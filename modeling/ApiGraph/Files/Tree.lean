import ApiGraph.Files.Path
import ApiGraph.Text.Utf8

namespace ApiGraph

-- An entry as an archive stores it. Reading a damaged one fails.
structure StoredEntry where
  name : String
  content : ByteArray
  damaged : Bool
deriving Inhabited

-- What stands in a directory and is no folder. A pipe, a socket or a device is no regular file.
inductive FileContent where
  | bytes (content : ByteArray)
  | archive (entries : List StoredEntry)
  | special
deriving Inhabited

mutual

inductive Directory where
  | mk (files : List (String × FileContent)) (folders : Folders)

inductive Folders where
  | nil
  | cons (name : String) (folder : Directory) (rest : Folders)

end

namespace FileContent

def isRegular : FileContent → Bool
  | .special => false
  | _ => true

-- An archive stores its entries as they are, each with two headers, and ends with a record.
def size : FileContent → Nat
  | .bytes content => content.size
  | .archive entries =>
      entries.foldl (fun n e => n + 76 + 2 * e.name.utf8ByteSize + e.content.size) 22
  | .special => 0

-- The record that ends an archive, where it has no entries.
def closingRecord : String :=
  String.ofList (['P', 'K', '\x05', '\x06'] ++ List.replicate 18 '\x00')

-- The file as text. The header of an archive entry is never text.
def text? : FileContent → Option String
  | .bytes content => Text.ofBytes? content
  | .archive [] => some closingRecord
  | .archive (_ :: _) => none
  | .special => none

end FileContent

namespace Folders

def get? (name : String) : Folders → Option Directory
  | .nil => none
  | .cons n d rest => if n = name then some d else rest.get? name

-- Changes one folder, which is there from now on.
def alter (name : String) (f : Directory → Directory) : Folders → Folders
  | .nil => .cons name (f (.mk [] .nil)) .nil
  | .cons n d rest =>
      if n = name then .cons n (f d) rest
      else if name < n then .cons name (f (.mk [] .nil)) (.cons n d rest)
      else .cons n d (rest.alter name f)

end Folders

namespace Directory

def empty : Directory := .mk [] .nil

instance : Inhabited Directory := ⟨empty⟩

def files : Directory → List (String × FileContent)
  | .mk fs _ => fs

def folders : Directory → Folders
  | .mk _ ds => ds

def file? (d : Directory) (name : String) : Option FileContent := d.files.lookup name

def folder? (d : Directory) (name : String) : Option Directory := d.folders.get? name

def alterAt (f : Directory → Directory) : List String → Directory → Directory
  | [], d => f d
  | name :: rest, .mk fs ds => .mk fs (ds.alter name (alterAt f rest))

def addFolder (path : List String) (d : Directory) : Directory := alterAt id path d

def addFile (path : List String) (name : String) (content : FileContent) (d : Directory) :
    Directory :=
  alterAt (fun | .mk fs ds => .mk ((name, content) :: fs) ds) path d

end Directory

-- The whole tree and the directory where relative paths start.
structure FileTree where
  root : Directory
  cwd : FilePath
deriving Inhabited

namespace FileTree

inductive Place where
  | folder (folder : Directory)
  | file (content : FileContent)

-- Follows the names from a directory; `above` are the directories around it, innermost first.
def descend (above : List Directory) (here : Directory) : List String → Option Place
  | [] => some (.folder here)
  | ".." :: rest =>
      match above with
      | [] => descend [] here rest
      | outer :: more => descend more outer rest
  | name :: rest =>
      match here.folder? name with
      | some d => descend (here :: above) d rest
      | none => if rest.isEmpty then (here.file? name).map .file else none

def place? (t : FileTree) (p : FilePath) : Option Place :=
  descend [] t.root (t.cwd.join p).parts

-- The regular file at the end of the path.
def file? (t : FileTree) (p : FilePath) : Option FileContent :=
  match t.place? p with
  | some (.file c) => if c.isRegular then some c else none
  | _ => none

def folder? (t : FileTree) (p : FilePath) : Option Directory :=
  match t.place? p with
  | some (.folder d) => some d
  | _ => none

-- The path from the root without steps up.
def absolute (t : FileTree) (p : FilePath) : FilePath := FilePath.absolute t.cwd p

-- No path holds the character that ends a path.
def isImpossible (p : FilePath) : Bool := p.parts.any fun s => s.toList.contains '\x00'

end FileTree

end ApiGraph
