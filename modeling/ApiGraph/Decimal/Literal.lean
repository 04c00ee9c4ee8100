import ApiGraph.Decimal.Binary64
import ApiGraph.Text.Numeral

namespace ApiGraph.Binary64

open ApiGraph.Text

-- Digits with an optional point and an optional exponent; at least one digit stands before the
-- exponent, and at least one in it.
def ofDigits? (negative : Bool) (cs : List Char) : Option Binary64 :=
  let digitsOf := fun (l : List Char) => l.map fun c => c.toNat - '0'.toNat
  let whole := cs.takeWhile Char.isDigit
  let afterWhole := cs.dropWhile Char.isDigit
  let (part, afterPart) := match afterWhole with
    | '.' :: rest => (rest.takeWhile Char.isDigit, rest.dropWhile Char.isDigit)
    | _ => ([], afterWhole)
  let digits := digitsOf (whole ++ part)
  if digits.isEmpty then none
  else match afterPart with
    | [] => some (ofScientific negative digits (-(part.length : Int)))
    | e :: rest =>
        let (down, places) := signed rest
        if (e = 'e' ∨ e = 'E') ∧ places ≠ [] ∧ places.all Char.isDigit then
          let n := Text.ofDigits 10 (digitsOf places)
          let shift : Int := if down then -(n : Int) else n
          some (ofScientific negative digits (shift - part.length))
        else none

-- An underscore has a digit on both sides.
def dropUnderscores? : Option Char → List Char → Option (List Char)
  | _, [] => some []
  | before, '_' :: rest =>
      match before, rest with
      | some b, a :: _ =>
          if b.isDigit && a.isDigit then dropUnderscores? (some '_') rest else none
      | _, _ => none
  | _, c :: rest => (dropUnderscores? (some c) rest).map (c :: ·)

def ofLiteral? (cs : List Char) : Option Binary64 := do
  let plain ← dropUnderscores? none (trimBoth isPadding cs |>.map asciiDigit)
  let (negative, body) := signed plain
  match String.ofList (body.map Char.toLower) with
  | "inf" | "infinity" => some (infinity negative)
  | "nan" => some nan
  | _ => ofDigits? negative body

end ApiGraph.Binary64
