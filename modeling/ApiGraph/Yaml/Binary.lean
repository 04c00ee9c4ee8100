namespace ApiGraph.Yaml.Binary

def sextet? (c : Char) : Option Nat :=
  if c.isUpper then some (c.toNat - 'A'.toNat)
  else if c.isLower then some (c.toNat - 'a'.toNat + 26)
  else if c.isDigit then some (c.toNat - '0'.toNat + 52)
  else if c == '+' then some 62
  else if c == '/' then some 63
  else none

-- `place` counts the sextets of the group so far, `left` holds the bits not yet written.
def decodeFrom (place left pads : Nat) (acc : List UInt8) : List Char → Option (List UInt8)
  | [] => if place = 0 then some acc.reverse else none
  | '=' :: rest =>
      if 2 ≤ place then
        if 4 ≤ place + (pads + 1) then some acc.reverse else decodeFrom place left (pads + 1) acc rest
      else decodeFrom place left pads acc rest
  | c :: rest =>
      match sextet? c with
      | none => decodeFrom place left pads acc rest
      | some n =>
          match place with
          | 0 => decodeFrom 1 n 0 acc rest
          | 1 => decodeFrom 2 (n % 16) 0 ((left * 4 + n / 16).toUInt8 :: acc) rest
          | 2 => decodeFrom 3 (n % 4) 0 ((left * 16 + n / 4).toUInt8 :: acc) rest
          | _ => decodeFrom 0 0 0 ((left * 64 + n).toUInt8 :: acc) rest

-- Text outside ASCII is no base 64 at all.
def decode? (cs : List Char) : Option (List UInt8) :=
  if cs.all fun c => c.toNat < 128 then decodeFrom 0 0 0 [] cs else none

end ApiGraph.Yaml.Binary
