import ApiGraph.Decimal.Binary64

namespace ApiGraph.Binary64

-- A decimal number `digits · 10 ^ exponent`.
structure Decimal where
  digits : Nat
  exponent : Int
deriving DecidableEq

-- `2 ^ e` as a quotient.
def powerRatio (base : Nat) (e : Int) : Nat × Nat :=
  if 0 ≤ e then (base.pow e.toNat, 1) else (1, base.pow (-e).toNat)

-- Whether `d` rounds to the finite positive number `x`.
def rounds (x : Binary64) (d : Decimal) : Bool :=
  let m := x.mantissa
  let (un, ud) := powerRatio 2 x.exponent
  let (tn, td) := powerRatio 10 d.exponent
  let below := if m = Nat.pow 2 52 ∧ 1 < x.exponentField then 1 else 2
  let point := 4 * d.digits * tn * ud
  let low := (4 * m - below) * un * td
  let high := (4 * m + 2) * un * td
  if m % 2 = 0 then low ≤ point && point ≤ high else low < point && point < high

-- The position of the first digit: the `p` with `10 ^ p ≤ x < 10 ^ (p + 1)`.
def leadingPlace (x : Binary64) : Int :=
  let (un, ud) := powerRatio 2 x.exponent
  let num := x.mantissa * un
  let p : Int := (toString num).length - (toString ud).length
  let (tn, td) := powerRatio 10 p
  if ud * tn ≤ num * td then p else p - 1

-- The best decimal with `n` digits, if one reads back.
def withDigits? (x : Binary64) (n : Nat) : Option Decimal :=
  let e := x.leadingPlace + 1 - n
  let (un, ud) := powerRatio 2 x.exponent
  let (tn, td) := powerRatio 10 e
  let num := x.mantissa * un * td
  let den := ud * tn
  let q := num / den
  let down : Decimal := ⟨q, e⟩
  let up : Decimal := ⟨q + 1, e⟩
  match rounds x down, rounds x up with
  | true, true => some ⟨roundDiv num den, e⟩
  | true, false => some down
  | false, true => some up
  | false, false => none

-- Seventeen digits always suffice.
def shortest (x : Binary64) : Decimal :=
  ((List.range 17).findSome? fun i => x.withDigits? (i + 1)).getD ⟨0, 0⟩

end ApiGraph.Binary64
