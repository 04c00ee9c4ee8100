import ApiGraph.Calendar
import ApiGraph.Decimal.Text

namespace ApiGraph

inductive Scalar where
  | null
  | bool (value : Bool)
  | int (value : Int)
  | float (value : Binary64)
  | str (value : String)
  | date (value : Date)
  | dateTime (value : DateTime)
  | bytes (value : List UInt8)
deriving DecidableEq, Inhabited

namespace Scalar

-- What is left of a scalar when equal numbers and equal instants are identified.
inductive Identity where
  | null
  | integer (value : Int)
  | fractional (value : Binary64)
  | str (value : String)
  | date (value : Date)
  | localTime (microseconds : Int)
  | instant (microseconds : Int)
  | bytes (value : List UInt8)
deriving DecidableEq

def ofNumber (x : Binary64) : Identity :=
  match x.toInt? with
  | some n => .integer n
  | none => .fractional x

def identity : Scalar → Identity
  | .null => .null
  | .bool b => .integer (if b then 1 else 0)
  | .int n => .integer n
  | .float x => ofNumber x
  | .str s => .str s
  | .date d => .date d
  | .dateTime t => if t.offset.isSome then .instant t.instant else .localTime t.instant
  | .bytes b => .bytes b

-- Null, false, zero and empty text do not hold; everything else does.
def isTruthy : Scalar → Bool
  | .null => false
  | .bool b => b
  | .int n => n != 0
  | .float x => !x.isZero
  | .str s => s != ""
  | .date _ => true
  | .dateTime _ => true
  | .bytes b => !b.isEmpty

def byteText (quote : Char) (b : UInt8) : List Char :=
  let n := b.toNat
  if n = 0x5C then ['\\', '\\']
  else if n = 0x09 then ['\\', 't']
  else if n = 0x0A then ['\\', 'n']
  else if n = 0x0D then ['\\', 'r']
  else if n = quote.toNat then ['\\', quote]
  else if 0x20 ≤ n ∧ n < 0x7F then [Char.ofNat n]
  else '\\' :: 'x' :: Text.hexDigits 2 n

-- Bytes stand in single quotes unless only single quotes occur among them.
def bytesText (b : List UInt8) : String :=
  let quote := if b.contains 0x27 && !b.contains 0x22 then '"' else '\''
  String.ofList ('b' :: quote :: b.flatMap (byteText quote) ++ [quote])

-- The text of a scalar inside a label.
def text : Scalar → String
  | .null => "None"
  | .bool true => "True"
  | .bool false => "False"
  | .int n => toString n
  | .float x => x.text
  | .str s => s
  | .date d => d.text
  | .dateTime t => t.text " "
  | .bytes b => bytesText b

end Scalar

-- A scalar in the place of a mapping key.
structure Key where
  scalar : Scalar
deriving Inhabited

namespace Key

def str (s : String) : Key := ⟨.str s⟩

def string? (k : Key) : Option String :=
  match k.scalar with
  | .str s => some s
  | _ => none

-- Texts, the usual keys, are compared as they are.
def same (a b : Key) : Bool :=
  match a.scalar, b.scalar with
  | .str s, .str t => s == t
  | x, y => x.identity == y.identity

instance : BEq Key := ⟨same⟩

theorem beq_iff {a b : Key} : (a == b) = true ↔ a.scalar.identity = b.scalar.identity := by
  show same a b = true ↔ _
  unfold same
  split
  next hs ht => simp [hs, ht, Scalar.identity]
  next => exact beq_iff_eq

instance : EquivBEq Key where
  rfl := beq_iff.2 rfl
  symm h := beq_iff.2 (beq_iff.1 h).symm
  trans h h' := beq_iff.2 ((beq_iff.1 h).trans (beq_iff.1 h'))

theorem str_beq {s t : String} : (str s == str t) = true ↔ s = t := by
  rw [beq_iff]
  simp [str, Scalar.identity]

-- Only a text is the same key as a text.
theorem str_beq_iff {s : String} {k : Key} : (str s == k) = true ↔ str s = k := by
  refine ⟨fun h => ?_, fun h => h ▸ BEq.rfl⟩
  rw [beq_iff] at h
  obtain ⟨x⟩ := k
  cases x with
  | str t => simpa [str, Scalar.identity] using h
  | float x =>
      simp only [str, Scalar.identity, Scalar.ofNumber] at h
      split at h <;> cases h
  | dateTime t =>
      simp only [str, Scalar.identity] at h
      split at h <;> cases h
  | null | bool | int | date | bytes => cases h

theorem contains_str {l : List Key} {s : String} : l.contains (str s) = true ↔ str s ∈ l := by
  simp [List.contains_iff_exists_mem_beq, str_beq_iff]

end Key

end ApiGraph
