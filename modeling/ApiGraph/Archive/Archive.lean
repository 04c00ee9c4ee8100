import ApiGraph.Archive.EntryName
import ApiGraph.Description
import ApiGraph.Files.Tree
import ApiGraph.OrderedMap
import ApiGraph.Text.Utf8

namespace ApiGraph

structure Archive where
  path : FilePath
  -- The largest entry that may be read, in bytes.
  entryLimit : Int
  entries : OrderedMap String StoredEntry

namespace Archive

def isFolderName (name : String) : Bool := Text.endsWith name.toList ['/']

-- Names of folders and names that leave the archive are no entries, and of entries with the same
-- normal name the last one counts.
def addEntry (m : OrderedMap String StoredEntry) (e : StoredEntry) :
    OrderedMap String StoredEntry :=
  match EntryName.normalize? e.name with
  | some name => if isFolderName e.name then m else m.insert name e
  | none => m

def ofEntries (path : FilePath) (entryLimit : Int) (entries : List StoredEntry) : Archive :=
  ⟨path, entryLimit, entries.foldl addEntry .empty⟩

def openAt (t : FileTree) (path : FilePath) (entryLimit : Int) : Except ParseError Archive :=
  match t.file? path with
  | none => .error (.missingArchive path.text)
  | some (.archive entries) => .ok (ofEntries path entryLimit entries)
  | some _ => .error (.brokenArchive path.text)

def get? (a : Archive) (name : String) : Option StoredEntry := do
  a.entries.get? (← EntryName.normalize? name)

def hasEntry (a : Archive) (name : String) : Bool := (a.get? name).isSome

def entryNames (a : Archive) : List String :=
  a.entries.keys.mergeSort fun x y => !decide (y < x)

-- The first entry, in the order of the names, whose last part is the given one.
def findByBaseName? (a : Archive) (base : String) : Option String :=
  a.entryNames.find? fun name => String.ofList (Reference.baseName name.toList) = base

def readText (a : Archive) (name : String) : Except ParseError String := do
  let some e := a.get? name | throw (.missingEntry a.path.text name)
  if a.entryLimit < e.content.size then
    throw (.entryTooLarge name e.content.size a.entryLimit)
  if e.damaged && e.content.size != 0 then throw (.brokenEntry a.path.text name)
  match Text.ofBytes? e.content with
  | some text => return text
  | none => throw (.undecodableEntry a.path.text name)

end Archive

end ApiGraph
