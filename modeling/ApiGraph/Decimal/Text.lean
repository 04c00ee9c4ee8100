import ApiGraph.Decimal.Shortest
import ApiGraph.Text.Digit

namespace ApiGraph.Binary64

def trimZeros (cs : List Char) : List Char := (cs.reverse.dropWhile (· == '0')).reverse

-- `place` is the power of ten of the first digit.
def positional (digits : List Char) (place : Int) : List Char :=
  if place < 0 then
    '0' :: '.' :: List.replicate (-place - 1).toNat '0' ++ digits
  else
    let whole := place.toNat + 1
    let front := digits.take whole ++ List.replicate (whole - digits.length) '0'
    let back := digits.drop whole
    front ++ '.' :: (if back.isEmpty then ['0'] else back)

def exponential (digits : List Char) (place : Int) : List Char :=
  let mantissa := match digits with
    | [] => []
    | [d] => [d]
    | d :: rest => d :: '.' :: rest
  let sign := if place < 0 then '-' else '+'
  mantissa ++ 'e' :: sign :: (Text.padded 2 place.natAbs).toList

-- Positional where the first digit stands between the fourth place after the point and the
-- sixteenth before it.
def magnitudeText (x : Binary64) : List Char :=
  let d := x.shortest
  let all := (toString d.digits).toList
  let place : Int := d.exponent + all.length - 1
  let digits := trimZeros all
  if -4 ≤ place ∧ place < 16 then positional digits place else exponential digits place

def text (x : Binary64) : String :=
  if x.isNaN then "nan"
  else
    let body := if x.isInfinite then "inf".toList
      else if x.isZero then "0.0".toList
      else x.magnitudeText
    String.ofList (if x.isNegative then '-' :: body else body)

end ApiGraph.Binary64
