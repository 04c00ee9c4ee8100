import ApiGraph.Text.Digit
import ApiGraph.Yaml.Token

namespace ApiGraph.Yaml

-- A place where a key without a mark of its own may have started.
structure KeyCandidate where
  -- How many tokens stood before it.
  tokenNumber : Nat
  -- In block context a token at the indentation of its mapping has to be a key.
  required : Bool
  index : Nat
  line : Nat
  column : Nat

structure Cursor where
  -- More than the characters of the whole text, so no loop over it takes more steps.
  bound : Nat
  rest : List Char
  index : Nat
  line : Nat
  column : Nat
  flowLevel : Nat
  indent : Int
  indents : List Int
  keyAllowed : Bool
  -- At most one candidate for each flow level.
  candidates : List (Nat × KeyCandidate)
  -- The tokens so far, last one first, and their number.
  tokens : List Token
  count : Nat
  -- How many tokens could be read before the latest step: one that may yet become a key could not.
  settled : Nat

def Cursor.start (text : List Char) : Cursor where
  bound := text.length + 1
  rest := text
  index := 0
  line := 0
  column := 0
  flowLevel := 0
  indent := -1
  indents := []
  keyAllowed := true
  candidates := []
  tokens := []
  count := 0
  settled := 0

abbrev Lex := EStateM Problem Cursor

namespace Lex

-- The end of the text shows as the one character that no text holds.
def endMark : Char := '\x00'

def isBreak (c : Char) : Bool :=
  c == '\n' || c == '\r' || c == '\x85' || c == '\u2028' || c == '\u2029'

def isBreakOrEnd (c : Char) : Bool := isBreak c || c == endMark

def isSpaceOrEnd (c : Char) : Bool := isBreakOrEnd c || c == ' '

def isGapOrEnd (c : Char) : Bool := isSpaceOrEnd c || c == '\t'

def isWord (c : Char) : Bool := c.isAlphanum || c == '-' || c == '_'

-- The characters that a text may hold at all.
def isPrintable (c : Char) : Bool :=
  let n := c.toNat
  n == 0x09 || n == 0x0A || n == 0x0D || (0x20 ≤ n && n ≤ 0x7E) || n == 0x85 ||
    (0xA0 ≤ n && n ≤ 0xD7FF) || (0xE000 ≤ n && n ≤ 0xFFFD) || (0x10000 ≤ n && n ≤ 0x10FFFF)

def fail {α : Type} : Lex α := throw malformed

def peekAt (k : Nat) : Lex Char := return ((← get).rest.drop k).headD endMark

def peek : Lex Char := peekAt 0

def ahead (k : Nat) : Lex (List Char) := return (← get).rest.take k

def step (c : Cursor) : Cursor :=
  match c.rest with
  | [] => c
  | x :: rest =>
      let c := { c with rest, index := c.index + 1 }
      if (isBreak x && x != '\r') || (x == '\r' && rest.head? != some '\n') then
        { c with line := c.line + 1, column := 0 }
      else if x == '\uFEFF' then c
      else { c with column := c.column + 1 }

def forward : Nat → Lex Unit
  | 0 => pure ()
  | n + 1 => do
      modify step
      forward n

-- Takes the characters as long as they satisfy the condition.
def takeWhile (p : Char → Bool) : Lex (List Char) := do
  let cs := (← get).rest.takeWhile p
  forward cs.length
  return cs

def skipWhile (p : Char → Bool) : Lex Unit := discard (takeWhile p)

-- Takes one line break, which reads as a line feed unless it is a separator of its own.
def lineBreak : Lex (List Char) := do
  match (← get).rest with
  | '\r' :: '\n' :: _ =>
      forward 2
      return ['\n']
  | c :: _ =>
      if c == '\u2028' || c == '\u2029' then
        forward 1
        return [c]
      else if isBreak c then
        forward 1
        return ['\n']
      else return []
  | [] => return []

-- Three dashes or three dots alone at the start of a line.
def atDocumentMark (mark : Char) : Lex Bool := do
  return (← ahead 3) == [mark, mark, mark] && isGapOrEnd (← peekAt 3)

def atDocumentBoundary : Lex Bool := do
  return (← atDocumentMark '-') || (← atDocumentMark '.')

def emit (t : Token) : Lex Unit :=
  modify fun c => { c with tokens := t :: c.tokens, count := c.count + 1 }

-- Puts a token before the ones that follow the given number.
def emitAt (number : Nat) (t : Token) : Lex Unit :=
  modify fun c =>
    let later := c.count - number
    { c with tokens := c.tokens.take later ++ t :: c.tokens.drop later, count := c.count + 1 }

end Lex

end ApiGraph.Yaml
