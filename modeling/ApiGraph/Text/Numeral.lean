import ApiGraph.Text.Blank
import ApiGraph.Text.Digit
import ApiGraph.Text.Split

namespace ApiGraph.Text

def maxDecimalDigits : Nat := 4300

-- Digits of other scripts are read as the ASCII digits of the same value.
def asciiDigit (c : Char) : Char :=
  match decimalDigit? c with
  | some d => Char.ofNat ('0'.toNat + d)
  | none => c

def signed (cs : List Char) : Bool × List Char :=
  match cs with
  | '-' :: rest => (true, rest)
  | '+' :: rest => (false, rest)
  | _ => (false, cs)

-- An underscore stands between two digits; the digits alone are returned.
def groupedDigits? (digit? : Char → Option Nat) : List Char → Option (List Nat)
  | [] => none
  | [c] => (digit? c).map ([·])
  | c :: '_' :: rest => do
      let d ← digit? c
      let ds ← groupedDigits? digit? rest
      return d :: ds
  | c :: rest => do
      let d ← digit? c
      let ds ← groupedDigits? digit? rest
      return d :: ds

-- The letter that may follow a leading zero in each base.
def baseMark? : Nat → Option Char
  | 2 => some 'b'
  | 8 => some 'o'
  | 16 => some 'x'
  | _ => none

def dropBaseMark (base : Nat) (cs : List Char) : List Char :=
  match cs with
  | '0' :: m :: rest =>
      if baseMark? base = some m.toLower then
        match rest with
        | '_' :: rest => rest
        | _ => rest
      else cs
  | _ => cs

def integer? (base : Nat) (cs : List Char) : Option Int := do
  let (negative, body) := signed (trimBoth isPadding cs |>.map asciiDigit)
  let digit? := fun c => (baseDigit? c).filter (· < base)
  let ds ← groupedDigits? digit? (dropBaseMark base body)
  if base = 10 ∧ maxDecimalDigits < ds.length then none
  let n := ofDigits base ds
  return if negative then -(n : Int) else n

end ApiGraph.Text
