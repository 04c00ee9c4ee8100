import ApiGraph.Text.Numeral
import ApiGraph.Yaml.Token.Scalar

namespace ApiGraph.Yaml.Lex

def word : Lex String := do
  let cs ← takeWhile isWord
  if cs.isEmpty then fail
  return String.ofList cs

-- The name after the mark of an anchor or an alias.
def anchorName : Lex String := do
  forward 1
  let name ← word
  let c ← peek
  if !(isGapOrEnd c || ['?', ':', ',', ']', '}', '%', '@', '`'].contains c) then fail
  return name

def isUri (c : Char) : Bool :=
  c.isAlphanum || ['-', ';', '/', '?', ':', '@', '&', '=', '+', '$', ',', '_', '.', '!', '~', '*',
    '\'', '(', ')', '[', ']', '%'].contains c

def percentBytes : Nat → List UInt8 → Lex (List UInt8)
  | 0, _ => fail
  | bound + 1, acc => do
      if (← peek) == '%' then
        forward 1
        let n ← hexCode 2
        forward 2
        percentBytes bound (acc ++ [n.toUInt8])
      else return acc

-- A run of escaped bytes is the text that they encode.
def percentText : Lex (List Char) := do
  let bytes ← percentBytes (← get).bound []
  match String.fromUTF8? ⟨bytes.toArray⟩ with
  | some s => return s.toList
  | none => fail

def uriRest : Nat → List Char → Lex (List Char)
  | 0, _ => fail
  | bound + 1, acc => do
      let c ← peek
      if c == '%' then
        uriRest bound (acc ++ (← percentText))
      else if isUri c then
        forward 1
        uriRest bound (acc ++ [c])
      else return acc

def uri : Lex String := do
  if !isUri (← peek) then fail
  return String.ofList (← uriRest (← get).bound [])

-- A lone mark, or a name between two marks.
def tagHandle : Lex String := do
  if (← peek) != '!' then fail
  if (← peekAt 1) == ' ' then
    forward 1
    return "!"
  let name := ((← get).rest.drop 1).takeWhile isWord
  if (← peekAt (name.length + 1)) != '!' then fail
  forward (name.length + 2)
  return String.ofList ('!' :: name ++ ['!'])

def tag : Lex Token := do
  let c ← peekAt 1
  let t ← if c == '<' then do
      forward 2
      let suffix ← uri
      if (← peek) != '>' then fail
      forward 1
      pure (Token.tag none suffix)
    else if isGapOrEnd c then do
      forward 1
      pure (Token.tag none "!")
    else do
      let body := ((← get).rest.drop 1).takeWhile fun c => !isSpaceOrEnd c
      let handle ← if body.contains '!' then tagHandle
        else do
          forward 1
          pure "!"
      pure (Token.tag (some handle) (← uri))
  if !isSpaceOrEnd (← peek) then fail
  return t

def versionNumber : Lex Int := do
  let digits ← takeWhile Char.isDigit
  if digits.isEmpty then fail
  match Text.integer? 10 digits with
  | some n => return n
  | none => throw (.fault .unreadableLiteral)

def versionDirective : Lex Token := do
  skipWhile (· == ' ')
  let major ← versionNumber
  if (← peek) != '.' then fail
  forward 1
  discard versionNumber
  if !isSpaceOrEnd (← peek) then fail
  return .versionDirective major

def tagDirective : Lex Token := do
  skipWhile (· == ' ')
  let handle ← tagHandle
  if (← peek) != ' ' then fail
  skipWhile (· == ' ')
  let start ← uri
  if !isSpaceOrEnd (← peek) then fail
  return .tagDirective handle start

def directive : Lex Token := do
  forward 1
  let name ← word
  if !isSpaceOrEnd (← peek) then fail
  let t ← match name with
    | "YAML" => versionDirective
    | "TAG" => tagDirective
    | _ => do
        skipWhile fun c => !isBreakOrEnd c
        pure .otherDirective
  ignoredLine
  return t

end ApiGraph.Yaml.Lex
