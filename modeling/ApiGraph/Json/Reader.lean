import ApiGraph.Decimal.Literal
import ApiGraph.Document.Store
import ApiGraph.Failure
import ApiGraph.Json.Error

namespace ApiGraph.Json

open ApiGraph.Text

-- What is left to read, where it starts, and the containers read so far.
structure Input where
  rest : List Char
  position : Nat
  store : Store

abbrev Reader := StateT Input (Except (Failure Error))

def complain {α : Type} (c : Complaint) (position : Nat) : Reader α :=
  throw (.announced ⟨c, position⟩)

def complainHere {α : Type} (c : Complaint) : Reader α := do
  complain c (← get).position

def isSpace (c : Char) : Bool := c == ' ' || c == '\t' || c == '\n' || c == '\r'

def advance (n : Nat) : Reader Unit :=
  modify fun i => { i with rest := i.rest.drop n, position := i.position + n }

def skipSpace : Reader Unit := do
  advance ((← get).rest.takeWhile isSpace).length

def peek? : Reader (Option Char) := return (← get).rest.head?

def alloc (c : Container) : Reader Value :=
  modifyGet fun ⟨rest, position, store⟩ =>
    let (id, store) := store.alloc c
    (.node id, ⟨rest, position, store⟩)

def simpleEscape? : Char → Option Char
  | '"' => some '"'
  | '\\' => some '\\'
  | '/' => some '/'
  | 'b' => some '\x08'
  | 'f' => some '\x0c'
  | 'n' => some '\n'
  | 'r' => some '\r'
  | 't' => some '\t'
  | _ => none

def fourHex? (a b c d : Char) : Option Nat := do
  return ofDigits 16 [← hexDigit? a, ← hexDigit? b, ← hexDigit? c, ← hexDigit? d]

-- Half of a surrogate pair is no character.
def codeChar (n : Nat) : Char :=
  if 0xD800 ≤ n ∧ n < 0xE000 then '\uFFFD' else Char.ofNat n

-- The characters of a string up to its closing quote, last one first, with what follows the quote
-- and its position. `opened` is where the string started.
def scanString (opened : Nat) (acc : List Char) (position : Nat) :
    List Char → Except Error (List Char × List Char × Nat)
  | [] => .error ⟨.openString, opened⟩
  | '"' :: rest => .ok (acc, rest, position + 1)
  | '\\' :: 'u' :: a :: b :: c :: d :: '\\' :: 'u' :: e :: f :: g :: h :: next :: rest =>
      match fourHex? a b c d with
      | none => .error ⟨.unicodeEscape, position + 1⟩
      | some high =>
          if 0xD800 ≤ high ∧ high < 0xDC00 then
            match fourHex? e f g h with
            | none => .error ⟨.unicodeEscape, position + 7⟩
            | some low =>
                if 0xDC00 ≤ low ∧ low < 0xE000 then
                  let code := 0x10000 + (high - 0xD800) * 0x400 + (low - 0xDC00)
                  scanString opened (Char.ofNat code :: acc) (position + 12) (next :: rest)
                else
                  scanString opened (codeChar high :: acc) (position + 6)
                    ('\\' :: 'u' :: e :: f :: g :: h :: next :: rest)
          else
            scanString opened (codeChar high :: acc) (position + 6)
              ('\\' :: 'u' :: e :: f :: g :: h :: next :: rest)
  | '\\' :: 'u' :: a :: b :: c :: d :: next :: rest =>
      match fourHex? a b c d with
      | none => .error ⟨.unicodeEscape, position + 1⟩
      | some n => scanString opened (codeChar n :: acc) (position + 6) (next :: rest)
  | '\\' :: 'u' :: _ => .error ⟨.unicodeEscape, position + 1⟩
  | ['\\'] => .error ⟨.openString, opened⟩
  | '\\' :: c :: rest =>
      match simpleEscape? c with
      | none => .error ⟨.escape, position⟩
      | some r => scanString opened (r :: acc) (position + 2) rest
  | c :: rest =>
      if c.toNat ≤ 0x1F then .error ⟨.controlCharacter, position⟩
      else scanString opened (c :: acc) (position + 1) rest

-- Reads a string whose opening quote is the next character.
def string : Reader String := do
  let i ← get
  match scanString i.position [] (i.position + 1) (i.rest.drop 1) with
  | .error e => throw (.announced e)
  | .ok (acc, rest, position) =>
      set { i with rest, position }
      return String.ofList acc.reverse

-- The parts of a number at the start of a text: its whole part with sign, and its fraction and
-- exponent where they are complete.
structure NumberSpan where
  whole : List Char
  fraction : List Char
  exponent : List Char

def numberSpan? (cs : List Char) : Option NumberSpan := do
  let (sign, body) := match cs with
    | '-' :: rest => (['-'], rest)
    | _ => ([], cs)
  let digits ← match body with
    | [] => none
    | c :: _ =>
        if c = '0' then some ['0']
        else if c.isDigit then some (body.takeWhile Char.isDigit)
        else none
  let afterWhole := body.drop digits.length
  let fraction := match afterWhole with
    | '.' :: c :: rest => if c.isDigit then '.' :: (c :: rest).takeWhile Char.isDigit else []
    | _ => []
  let afterFraction := afterWhole.drop fraction.length
  let exponent := match afterFraction with
    | e :: rest =>
        if e = 'e' ∨ e = 'E' then
          let sign := rest.take (if rest.head? = some '-' ∨ rest.head? = some '+' then 1 else 0)
          let places := (rest.drop sign.length).takeWhile Char.isDigit
          if places.isEmpty then [] else e :: sign ++ places
        else []
    | [] => []
  return ⟨sign ++ digits, fraction, exponent⟩

def number : Reader Value := do
  match numberSpan? (← get).rest with
  | none => complainHere .value
  | some ⟨whole, fraction, exponent⟩ =>
      advance (whole.length + fraction.length + exponent.length)
      if fraction.isEmpty && exponent.isEmpty then
        match integer? 10 whole with
        | some n => return .scalar (.int n)
        | none => throw (.fault .unreadableLiteral)
      else
        match Binary64.ofLiteral? (whole ++ fraction ++ exponent) with
        | some x => return .scalar (.float x)
        | none => throw (.fault .unreadableLiteral)

def words : List (String × Scalar) :=
  [("null", .null), ("true", .bool true), ("false", .bool false), ("NaN", .float .nan),
   ("Infinity", .float (.infinity false)), ("-Infinity", .float (.infinity true))]

-- A word, or else a number.
def atom : Reader Value := do
  let rest := (← get).rest
  match words.find? fun w => startsWith rest w.1.toList with
  | some (word, value) =>
      advance word.length
      return .scalar value
  | none => number

-- Whether the entries of a container end here, at its closing bracket, or go on behind a comma.
def isLast (close : Char) : Reader Bool := do
  let next ← peek?
  if next = some close then
    advance 1
    return true
  if next != some ',' then complainHere .comma
  advance 1
  skipSpace
  return false

-- The items up to the closing bracket. Each takes some of the text, whose length bounds their
-- number.
def items (item : Reader Value) : Nat → List Value → Reader (List Value)
  | 0, _ => complainHere .value
  | bound + 1, acc => do
      let v ← item
      skipSpace
      if ← isLast ']' then return (v :: acc).reverse
      items item bound (v :: acc)

-- What stands behind the name of a member.
def memberValue (item : Reader Value) : Reader Value := do
  skipSpace
  if (← peek?) != some ':' then complainHere .colon
  advance 1
  skipSpace
  item

-- A repeated key keeps its first place and takes its last value.
def members (item : Reader Value) : Nat → Entries → Reader Entries
  | 0, _ => complainHere .name
  | bound + 1, acc => do
      if (← peek?) != some '"' then complainHere .name
      let key ← string
      let v ← memberValue item
      skipSpace
      let acc := acc.insert (.str key) v
      if ← isLast '}' then return acc
      members item bound acc

-- A value whose containers are nested at most as deep as allowed.
def value (bound : Nat) : (allowance : Nat) → Reader Value
  | 0 => do
      match ← peek? with
      | some '[' | some '{' => throw (.fault .stackExhausted)
      | some '"' => return .str (← string)
      | some _ => atom
      | none => complainHere .value
  | allowance + 1 => do
      match ← peek? with
      | some '[' =>
          advance 1
          skipSpace
          if (← peek?) = some ']' then
            advance 1
            alloc (.sequence [])
          else
            let l ← items (value bound allowance) bound []
            alloc (.sequence l)
      | some '{' =>
          advance 1
          skipSpace
          if (← peek?) = some '}' then
            advance 1
            alloc (.mapping .empty)
          else
            let m ← members (value bound allowance) bound .empty
            alloc (.mapping m)
      | some '"' => return .str (← string)
      | some _ => atom
      | none => complainHere .value

def document (allowance : Nat) : Reader Value := do
  if (← peek?) = some '\uFEFF' then complainHere .byteOrderMark
  skipSpace
  let v ← value ((← get).rest.length + 1) allowance
  skipSpace
  if (← peek?).isSome then complainHere .trailingText
  return v

-- Adds the containers of the text to the store.
def read (allowance : Nat) (source : List Char) (store : Store) :
    Except (Failure Error) (Value × Store) := do
  let (v, i) ← (document allowance).run ⟨source, 0, store⟩
  return (v, i.store)

end ApiGraph.Json
