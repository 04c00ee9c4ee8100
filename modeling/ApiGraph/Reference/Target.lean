import ApiGraph.Text.Blank
import ApiGraph.Text.Split

namespace ApiGraph.Reference

open ApiGraph.Text

-- The endings of the files that a reference may name.
def fileEndings : List String := [".yaml", ".yml", ".json"]

-- Case does not count in an ending.
def hasEnding (cs : List Char) (ending : String) : Bool :=
  endsWith (cs.map Char.toLower) ending.toList

def namesFile (cs : List Char) : Bool := fileEndings.any (hasEnding cs)

-- The file part and the pointer behind the first number sign.
def split (ref : String) : String × String :=
  let (file, pointer) := cutFirst '#' ref.toList
  (String.ofList (replaceChar '\\' '/' (trim file)), String.ofList pointer)

def filePart (ref : String) : String := (split ref).1

def pointerPart (ref : String) : String := (split ref).2

def isInternal (ref : String) : Bool := startsWith ref.toList ['#']

def isExternal (ref : String) : Bool :=
  let file := (filePart ref).toList
  !file.isEmpty && namesFile file

-- In a pointer `~1` stands for a slash and `~0` for a tilde.
def unescape : List Char → List Char
  | [] => []
  | '~' :: '1' :: rest => '/' :: unescape rest
  | '~' :: '0' :: rest => '~' :: unescape rest
  | c :: rest => c :: unescape rest

def escape : List Char → List Char
  | [] => []
  | c :: rest =>
      if c = '/' then '~' :: '1' :: escape rest
      else if c = '~' then '~' :: '0' :: escape rest
      else c :: escape rest

theorem unescape_escape (cs : List Char) : unescape (escape cs) = cs := by
  induction cs with
  | nil => rfl
  | cons c rest ih =>
      by_cases h : c = '/'
      · simp [escape, unescape, h, ih]
      · by_cases h' : c = '~'
        · simp [escape, unescape, h', ih]
        · simp [escape, unescape, h, h', ih]

-- The decoded segments; slashes at both ends do not count.
def segments (pointer : String) : List String :=
  let body := stripChar '/' pointer.toList
  if body.isEmpty then [] else (splitOn '/' body).map fun cs => String.ofList (unescape cs)

-- The pointer with the given segments in the given order, not encoded.
def joinSegments (l : List String) : String := "/" ++ "/".intercalate l

def schemaPointer : String := "#/components/schemas/"

-- The component that a reference into the schemas names.
def schemaName? (ref : String) : Option String :=
  match segments (String.ofList (cutFirst '#' ref.toList).2) with
  | "components" :: "schemas" :: name :: rest =>
      ((name :: rest).getLast?).filter (· != "")
  | _ => none

-- What follows the last slash.
def baseName (cs : List Char) : List Char := (cs.reverse.takeWhile (· != '/')).reverse

-- What precedes the last slash; the slashes of a root stay.
def directory (cs : List Char) : List Char :=
  let head := (cs.reverse.dropWhile (· != '/')).reverse
  if head.all (· == '/') then head else (head.reverse.dropWhile (· == '/')).reverse

-- A component name made from the name of the file.
def fileStem? (ref : String) : Option String :=
  let base := baseName (filePart ref).toList
  if base.isEmpty then none
  else match fileEndings.find? (hasEnding base) with
    | some ending =>
        let stem := base.take (base.length - ending.length)
        if stem.isEmpty then none else some (String.ofList stem)
    | none => some (String.ofList base)

-- The kind and the name of a component, where the segments name one.
def component? : List String → Option (String × String)
  | [first, kind, name] => if first = "components" then some (kind, name) else none
  | _ => none

end ApiGraph.Reference
