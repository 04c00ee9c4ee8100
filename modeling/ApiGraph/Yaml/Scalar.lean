import ApiGraph.Decimal.Literal
import ApiGraph.Document.Scalar
import ApiGraph.Yaml.Binary
import ApiGraph.Yaml.Node

namespace ApiGraph.Yaml

namespace ScalarText

open ApiGraph.Text

abbrev Result := Except Problem

def orFault {α : Type} (x : Option α) (f : Fault) : Result α :=
  match x with
  | some a => return a
  | none => throw (.fault f)

def bool (text : List Char) : Result Scalar := do
  let word := String.ofList (text.map Char.toLower)
  return .bool (← orFault (Tag.truthWords.lookup word) .unknownTruthWord)

-- The sign of a number and what follows it; underscores are dropped first.
def signOf (text : List Char) : Result (Bool × List Char) := do
  let body := text.filter (· != '_')
  if body.isEmpty then throw (.fault .emptyLiteral)
  return signed body

-- Places in base sixty, the last one first.
def sixtieths (places : List Int) : Int :=
  places.foldr (fun d n => d + 60 * n) 0

def magnitude (body : List Char) : Result Int := do
  let read := fun base cs => orFault (integer? base cs) .unreadableLiteral
  match body with
  | [] => throw (.fault .emptyLiteral)
  | ['0'] => return 0
  | '0' :: 'b' :: rest => read 2 rest
  | '0' :: 'x' :: rest => read 16 rest
  | '0' :: _ => read 8 body
  | _ =>
      if body.contains ':' then
        return sixtieths (← (splitOn ':' body).mapM (read 10)).reverse
      else read 10 body

def int (text : List Char) : Result Scalar := do
  let (negative, body) ← signOf text
  let n ← magnitude body
  return .int (if negative then -n else n)

-- Adds the places from the last one on; `unit` is what one counts in the next place.
def sexagesimal : Int → Binary64 → List Binary64 → Result Binary64
  | _, total, [] => return total
  | unit, total, d :: rest => do
      let u ← orFault (Binary64.ofInt? unit) .numberOverflow
      sexagesimal (unit * 60) (total + d * u) rest

def float (text : List Char) : Result Scalar := do
  let (negative, body) ← signOf (text.map Char.toLower)
  let read := fun cs => orFault (Binary64.ofLiteral? cs) .unreadableLiteral
  let x ← if body = ".inf".toList then pure (Binary64.infinity false)
    else if body = ".nan".toList then pure .nan
    else if body.contains ':' then do
      sexagesimal 1 (.zero false) (← (splitOn ':' body).mapM read).reverse
    else read body
  return .float (if negative && !x.isNaN then x.negate else x)

def timestamp (text : List Char) : Result Scalar := do
  let t ← orFault (Timestamp.ofText? (Tag.dropFinalBreak text)) .malformedTime
  match t.time with
  | none => if t.date.isValid then return .date t.date else throw (.fault .unreadableLiteral)
  | some time =>
      if time.isValid then return .dateTime time else throw (.fault .unreadableLiteral)

def binary (text : List Char) : Result Scalar :=
  match Binary.decode? text with
  | some b => return .bytes b
  | none => throw malformed

end ScalarText

end ApiGraph.Yaml
