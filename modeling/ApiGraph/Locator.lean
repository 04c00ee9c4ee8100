import ApiGraph.Files.Search
import ApiGraph.Location
import ApiGraph.ResolutionError

namespace ApiGraph

structure Locator where
  tree : FileTree
  archive : Option Archive
  roots : List String
  sizeLimit : Int
  searchDepth : Int

namespace Locator

open ApiGraph.Text

-- A root on disk is kept if it is a directory; inside an archive it is the start of entry names.
def usableRoots (t : FileTree) (inArchive : Bool) (raw : List String) : List String :=
  (raw.map fun s => String.ofList (trim s.toList)).filter fun s =>
    s != "" && (inArchive || (t.folder? (.ofText s)).isSome)

def make (tree : FileTree) (archive : Option Archive) (raw : List String)
    (sizeLimit searchDepth : Int) : Locator :=
  ⟨tree, archive, usableRoots tree archive.isSome raw, sizeLimit, searchDepth⟩

-- Without the character that ends a path, without white space around, with slashes forward.
def sanitize (ref : String) : String :=
  String.ofList (replaceChar '\\' '/' (trim (ref.toList.filter (· != '\x00'))))

-- Whether the path takes a step up somewhere.
def climbs (path : String) : Bool :=
  startsWith path.toList "../".toList || occursIn "/../".toList path.toList

-- A regular file; one above the size limit is an error.
def accept (l : Locator) (p : FilePath) : Except ResolutionError Bool :=
  match l.tree.file? p with
  | none => .ok false
  | some c =>
      if l.sizeLimit < c.size then .error (.tooLarge p.text c.size l.sizeLimit) else .ok true

def isWithin (l : Locator) (root p : FilePath) : Bool :=
  (l.tree.absolute root).isUnder (l.tree.absolute p)

-- The first candidate that is accepted.
def firstAccepted (l : Locator) : List FilePath → Except ResolutionError (Option FilePath)
  | [] => .ok none
  | p :: rest => do
      if ← l.accept p then return some p else l.firstAccepted rest

def besideCandidate (l : Locator) (path : String) (base : Option String) : FilePath :=
  let dir := match base with
    | some b => if b = "" then l.tree.cwd else .ofText b
    | none => l.tree.cwd
  (dir.join (.ofText path)).normalize

def rootPaths (l : Locator) : List FilePath := l.roots.map .ofText

def belowCandidates (l : Locator) (path : String) : List FilePath :=
  l.rootPaths.filterMap fun root =>
    let p := (root.join (.ofText path)).normalize
    if l.isWithin root p then some p else none

def baseName (path : String) : String := String.ofList (Reference.baseName path.toList)

def nameCandidates (l : Locator) (path : String) : List FilePath :=
  if climbs path then l.rootPaths.map fun root => root.join (.ofText (baseName path)) else []

def searchCandidates (l : Locator) (path : String) : List FilePath :=
  l.rootPaths.filterMap fun root => do
    let p ← l.tree.search? root (baseName path) l.searchDepth
    if l.isWithin root p then some p else none

-- Next to the referencing file, below each root, by its bare name in each root if the path climbs,
-- and by a search below each root.
def onDisk (l : Locator) (path : String) (base : Option String) :
    Except ResolutionError (Option FilePath) :=
  l.firstAccepted
    (l.besideCandidate path base :: l.belowCandidates path ++ l.nameCandidates path ++
      l.searchCandidates path)

-- Puts two parts of an entry name together; a second part that starts at the root stands alone.
def joinNames (base path : String) : String :=
  if startsWith path.toList ['/'] then path
  else if base = "" || endsWith base.toList ['/'] then base ++ path
  else base ++ "/" ++ path

-- An entry strictly below the one that the prefix names; a blank prefix is the whole archive.
def entryUnder? (start path : String) : Option String := do
  let entry ← EntryName.normalize? (joinNames start path)
  match EntryName.normalize? start with
  | none => return entry
  | some root =>
      if root = "." || startsWith entry.toList (root.toList ++ ['/']) then return entry else none

def dropSteps : List Char → List Char
  | '.' :: '.' :: '/' :: rest => dropSteps rest
  | cs => cs

def entryCandidates (l : Locator) (path base : String) : List (Option String) :=
  let named := if climbs path then l.roots.map fun root => entryUnder? root (baseName path) else []
  EntryName.normalize? (joinNames base path) :: l.roots.map (entryUnder? · path) ++ named ++
    [EntryName.normalize? (String.ofList (dropSteps path.toList))]

def inArchive (l : Locator) (a : Archive) (path base : String) : Option String :=
  match ((l.entryCandidates path base).filterMap id).find? a.hasEntry with
  | some name => some name
  | none => a.findByBaseName? (baseName path)

def notFound (l : Locator) (ref : String) : ResolutionError := .notFound ref l.roots.length

-- The location of the file that a reference names. `base` is the directory of the referencing
-- file; without one it is the current directory, or the root of the archive.
def locate (l : Locator) (ref : String) (base : Option String) :
    Except ResolutionError Location := do
  let path := sanitize ref
  if path = "" then throw (.emptyPath ref)
  if !Reference.namesFile path.toList then throw (.badEnding ref)
  match l.archive with
  | some a =>
      match l.inArchive a path (base.getD "") with
      | some name => return ⟨name, some a.path⟩
      | none => throw (l.notFound ref)
  | none =>
      match ← l.onDisk path base with
      | some p => return ⟨p.text, none⟩
      | none => throw (l.notFound ref)

end Locator

end ApiGraph
