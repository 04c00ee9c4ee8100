import ApiGraph.Document.Access
import ApiGraph.Settings
import ApiGraph.Text.Numeral

namespace ApiGraph.Config

inductive Problem where
  | notNumber
  | badNumber
  | hugeNumber
  | fractional
  | infinite
  | notList
  | notText
  | notMapping
deriving DecidableEq

def Problem.code : Problem → String
  | .notNumber => "int_type"
  | .badNumber => "int_parsing"
  | .hugeNumber => "int_parsing_size"
  | .fractional => "int_from_float"
  | .infinite => "finite_number"
  | .notList => "list_type"
  | .notText => "string_type"
  | .notMapping => "model_type"

-- One step on the way to a field.
inductive Step where
  | field (name : String)
  | item (index : Nat)
deriving DecidableEq

structure Complaint where
  place : List Step
  problem : Problem
deriving DecidableEq

-- A reading, with what was wrong on the way.
structure Checked (α : Type) where
  value : α
  complaints : List Complaint

namespace Checked

def ofExcept {α : Type} (fallback : α) (place : List Step) : Except Problem α → Checked α
  | .ok a => ⟨a, []⟩
  | .error p => ⟨fallback, [⟨place, p⟩]⟩

instance : Monad Checked where
  pure a := ⟨a, []⟩
  bind x f := ⟨(f x.value).value, x.complaints ++ (f x.value).complaints⟩

end Checked

open ApiGraph.Text

-- The white space that may stand around a number; the information separators do not count.
def trimNumber (cs : List Char) : List Char := trimBoth isPadding cs

-- Digits without needless zeros in front, possibly with a minus sign.
def plainInt? (cs : List Char) : Option (Except Problem Int) :=
  let (negative, ds) := match cs with
    | '-' :: rest => (true, rest)
    | _ => (false, cs)
  let tidy := !ds.isEmpty && ds.all Char.isDigit && (ds.length == 1 || ds.head? != some '0')
  if !tidy then none
  else if maxDecimalDigits < ds.length then some (.error .hugeNumber)
  else
    let n : Int := ofDigits 10 (ds.map fun c => c.toNat - '0'.toNat)
    some (.ok (if negative then -n else n))

-- The number from its first digit that counts on; the zero before a point stays.
def dropZeros? (cs : List Char) : Option (List Char) :=
  match cs with
  | '0' :: _ =>
      let rest := cs.dropWhile fun c => c == '0' || c == '_'
      match rest with
      | [] => some (cs.drop (cs.length - 1))
      | '.' :: _ => some (cs.drop (cs.length - rest.length - 1))
      | c :: _ => if c.isDigit then some rest else none
  | c :: _ => if c.isDigit || c == '-' then some cs else none
  | [] => none

-- The number without a point that only zeros follow.
def dropPoint (cs : List Char) : List Char :=
  let part := (cs.dropWhile (· != '.')).drop 1
  if part.all (· == '0') then cs.takeWhile (· != '.') else cs

-- The number without single underscores between its digits.
def dropUnderscores (cs : List Char) : List Char :=
  if cs.head? = some '_' || cs.getLast? = some '_' || occursIn ['_', '_'] cs then cs
  else cs.filter (· != '_')

def dropPlus? (cs : List Char) : Option (List Char) :=
  match cs with
  | '+' :: '-' :: _ => none
  | '+' :: rest => some rest
  | _ => some cs

def textInt (s : String) : Except Problem Int :=
  let tidied := do
    let cs ← dropPlus? (trimNumber s.toList)
    plainInt? (dropUnderscores (dropPoint (← dropZeros? cs)))
  (plainInt? s.toList <|> tidied).getD (.error .badNumber)

-- Whole numbers of at most sixty-three bits.
def floatInt (x : Binary64) : Except Problem Int :=
  if !x.isFinite then .error .infinite
  else match x.toInt? with
    | none => .error .fractional
    | some n => if n.natAbs < Nat.pow 2 63 then .ok n else .error .hugeNumber

def readInt : Value → Except Problem Int
  | .scalar (.int n) => .ok n
  | .scalar (.bool b) => .ok (if b then 1 else 0)
  | .scalar (.float x) => floatInt x
  | .scalar (.str s) => textInt s
  | _ => .error .notNumber

def intField (m : Entries) (place : List Step) (name : String) (fallback : Int) : Checked Int :=
  match m.field? name with
  | none => pure fallback
  | some v => .ofExcept fallback (place ++ [.field name]) (readInt v)

def readText (place : List Step) (v : Value) : Checked String :=
  .ofExcept "" place <| match v with
    | .scalar (.str s) => .ok s
    | _ => .error .notText

def readTexts (place : List Step) (l : List Value) : Checked (List String) :=
  l.zipIdx.mapM fun (v, i) => readText (place ++ [.item i]) v

def textsField (s : Store) (m : Entries) (place : List Step) (name : String)
    (fallback : List String) : Checked (List String) :=
  let place := place ++ [.field name]
  match m.field? name with
  | none => pure fallback
  | some v =>
      match s.asSequence? v with
      | some l => readTexts place l
      | none => .ofExcept fallback place (.error .notList)

-- A group of settings under a key.
def groupField {α : Type} (s : Store) (m : Entries) (name : String) (fallback : α)
    (read : Entries → List Step → Checked α) : Checked α :=
  match m.field? name with
  | none => pure fallback
  | some v =>
      match s.asMapping? v with
      | some (_, group) => read group [.field name]
      | none => .ofExcept fallback [.field name] (.error .notMapping)

def readResolver (s : Store) (m : Entries) (place : List Step) : Checked ResolverSettings := do
  let d : ResolverSettings := {}
  let int := intField m place
  let searchPaths ← textsField s m place "search_paths" d.searchPaths
  let maxRefDepth ← int "max_ref_depth" d.maxRefDepth
  let maxNodes ← int "max_nodes" d.maxNodes
  let maxFileSize ← int "max_file_size" d.maxFileSize
  let searchWalkDepth ← int "search_walk_depth" d.searchWalkDepth
  return { searchPaths, maxRefDepth, maxNodes, maxFileSize, searchWalkDepth }

def readComposition (m : Entries) (place : List Step) : Checked CompositionSettings := do
  let d : CompositionSettings := {}
  return { maxDepth := ← intField m place "max_depth" d.maxDepth }

def readNaming (m : Entries) (place : List Step) : Checked NamingSettings := do
  let d : NamingSettings := {}
  return { maxDepth := ← intField m place "max_depth" d.maxDepth }

def readReachability (m : Entries) (place : List Step) : Checked ReachabilitySettings := do
  let d : ReachabilitySettings := {}
  let int := intField m place
  let maxDepth ← int "max_depth" d.maxDepth
  let maxNestedDepth ← int "max_nested_depth" d.maxNestedDepth
  let maxBranches ← int "max_branches" d.maxBranches
  let maxProperties ← int "max_properties" d.maxProperties
  let maxNamesPerWalk ← int "max_names_per_walk" d.maxNamesPerWalk
  let maxNames ← int "max_names" d.maxNames
  let largeRegistryThreshold ← int "large_registry_threshold" d.largeRegistryThreshold
  let largeRegistryDepth ← int "large_registry_depth" d.largeRegistryDepth
  return { maxDepth, maxNestedDepth, maxBranches, maxProperties, maxNamesPerWalk, maxNames,
           largeRegistryThreshold, largeRegistryDepth }

-- All that is wrong with the fields is collected. A field that is missing or cannot be read keeps
-- its default, and unknown ones are ignored.
def readSettings (s : Store) (m : Entries) : Checked Settings := do
  let resolver ← groupField s m "resolver" {} (readResolver s)
  let composition ← groupField s m "composition" {} readComposition
  let naming ← groupField s m "naming" {} readNaming
  let reachability ← groupField s m "reachability" {} readReachability
  return { resolver, composition, naming, reachability }

end ApiGraph.Config
