import ApiGraph.Text.Split

namespace ApiGraph

-- A path starts at the root if it has leading slashes; exactly two of them are kept apart from one.
structure FilePath where
  -- How many slashes the path starts with: none, one or two.
  slashes : Nat
  parts : List String
deriving DecidableEq, Inhabited

namespace FilePath

open ApiGraph.Text

def leadingSlashes (cs : List Char) : Nat :=
  match (cs.takeWhile (· == '/')).length with
  | 0 => 0
  | 2 => 2
  | _ => 1

-- The names between the slashes, without empty ones and without dots that mean "here".
def names (cs : List Char) : List String :=
  ((splitOn '/' cs).filter fun piece => !piece.isEmpty && piece != ['.']).map String.ofList

def ofText (s : String) : FilePath :=
  ⟨leadingSlashes s.toList, names s.toList⟩

def isAbsolute (p : FilePath) : Bool := p.slashes != 0

def text (p : FilePath) : String :=
  let body := "".pushn '/' p.slashes ++ "/".intercalate p.parts
  if body = "" then "." else body

-- A second path that starts at the root stands alone.
def join (p q : FilePath) : FilePath :=
  if q.isAbsolute then q else ⟨p.slashes, p.parts ++ q.parts⟩

def name (p : FilePath) : String := p.parts.getLast?.getD ""

def parent (p : FilePath) : FilePath := ⟨p.slashes, p.parts.dropLast⟩

-- One step of taking steps up together with the names that they cancel. Above the root there is
-- nothing; a relative path keeps the steps that lead out of it.
def climb (absolute : Bool) (done : List String) (part : String) : List String :=
  if part = ".." then
    match done with
    | [] => if absolute then [] else [".."]
    | last :: rest => if last = ".." then ".." :: last :: rest else rest
  else part :: done

def collapse (absolute : Bool) (parts : List String) : List String :=
  (parts.foldl (climb absolute) []).reverse

def normalize (p : FilePath) : FilePath := ⟨p.slashes, collapse p.isAbsolute p.parts⟩

-- The path from the root, where relative paths start at the given directory.
def absolute (cwd p : FilePath) : FilePath :=
  ⟨1, collapse true (cwd.join p).parts⟩

-- Whether the path leads to the directory or into it, as written.
def isUnder (root p : FilePath) : Bool := root.parts.isPrefixOf p.parts

end FilePath

end ApiGraph
