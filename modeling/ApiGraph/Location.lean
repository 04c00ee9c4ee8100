import ApiGraph.Archive.Archive
import ApiGraph.Text.Utf8

namespace ApiGraph

structure Location where
  path : String
  archive : Option FilePath
deriving DecidableEq, Inhabited

-- The ways to name a description.
inductive Source where
  | text (path : String)
  | file (path : FilePath)
  | location (location : Location)

namespace Location

-- Loads the description from a file.
def loadFile (t : FileTree) (sizeLimit : Int) (path : FilePath) (store : Store) :
    Except (Failure ParseError) (NodeId × Store) := do
  match t.place? path with
  | none => throw (.announced (.missingFile path.text))
  | some (.folder _) => throw (.announced (.notRegular path.text))
  | some (.file .special) => throw (.announced (.notRegular path.text))
  | some (.file content) =>
      if sizeLimit < content.size then
        throw (.announced (.tooLarge path.text content.size sizeLimit))
      match content.text? with
      | none => throw (.announced (.undecodable path.text))
      | some s =>
          let text := String.ofList (Text.universalBreaks s.toList)
          Description.parse text path.name store

def loadEntry (a : Archive) (name : String) (store : Store) :
    Except (Failure ParseError) (NodeId × Store) := do
  let text ← (a.readText name).mapError .announced
  Description.parse text name store

def load (t : FileTree) (sizeLimit : Int) (l : Location) (store : Store) :
    Except (Failure ParseError) (NodeId × Store) := do
  match l.archive with
  | none => loadFile t sizeLimit (.ofText l.path) store
  | some path =>
      let a ← (Archive.openAt t path sizeLimit).mapError .announced
      loadEntry a l.path store

end Location

namespace Source

def pathText : Source → String
  | .text path => path
  | .file path => path.text
  | .location l => l.path

-- A path given as such must not be blank.
def load (t : FileTree) (sizeLimit : Int) (src : Source) (store : Store) :
    Except (Failure ParseError) (NodeId × Store) :=
  match src with
  | .location l => l.load t sizeLimit store
  | _ =>
      if src.pathText.toList.all Text.isBlank then throw (.announced .emptyPath)
      else Location.loadFile t sizeLimit (.ofText src.pathText) store

end Source

end ApiGraph
