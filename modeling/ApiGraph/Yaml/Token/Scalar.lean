import ApiGraph.Yaml.Token.Cursor

namespace ApiGraph.Yaml.Lex

-- Blank lines after a break; a document boundary inside a quoted scalar is an error.
def quotedBreaks : Nat → List Char → Lex (List Char)
  | 0, _ => fail
  | bound + 1, acc => do
      if ← atDocumentBoundary then fail
      skipWhile fun c => c == ' ' || c == '\t'
      if isBreak (← peek) then
        quotedBreaks bound (acc ++ (← lineBreak))
      else return acc

def escapeChar? : Char → Option Char
  | '0' => some '\x00'
  | 'a' => some '\x07'
  | 'b' => some '\x08'
  | 't' => some '\t'
  | '\t' => some '\t'
  | 'n' => some '\n'
  | 'v' => some '\x0b'
  | 'f' => some '\x0c'
  | 'r' => some '\r'
  | 'e' => some '\x1b'
  | ' ' => some ' '
  | '"' => some '"'
  | '\\' => some '\\'
  | '/' => some '/'
  | 'N' => some '\x85'
  | '_' => some '\xa0'
  | 'L' => some '\u2028'
  | 'P' => some '\u2029'
  | _ => none

def escapeWidth? : Char → Option Nat
  | 'x' => some 2
  | 'u' => some 4
  | 'U' => some 8
  | _ => none

def hexCode (width : Nat) : Lex Nat := do
  match (← ahead width).mapM Text.hexDigit? with
  | some ds =>
      if ds.length = width then return Text.ofDigits 16 ds else fail
  | none => fail

-- A code beyond the last character is a fault rather than an error of the text.
def codeChar (n : Nat) : Lex Char :=
  if Nat.pow 2 31 ≤ n then throw (.fault .characterOverflow)
  else if 0x10FFFF < n then throw (.fault .unreadableLiteral)
  else if 0xD800 ≤ n ∧ n < 0xE000 then return '\uFFFD'
  else return Char.ofNat n

-- What an escape in double quotes stands for.
def escape : Lex (List Char) := do
  forward 1
  let c ← peek
  match escapeChar? c, escapeWidth? c with
  | some r, _ =>
      forward 1
      return [r]
  | none, some width =>
      forward 1
      let n ← hexCode width
      let r ← codeChar n
      forward width
      return [r]
  | none, none =>
      if isBreak c then
        discard lineBreak
        quotedBreaks (← get).bound []
      else fail

def isQuotedText (c : Char) : Bool := !(isGapOrEnd c || c == '\'' || c == '"' || c == '\\')

-- The characters up to the next gap or the closing quote.
def quotedText (double : Bool) : Nat → List Char → Lex (List Char)
  | 0, _ => fail
  | bound + 1, acc => do
      let acc := (← takeWhile isQuotedText).reverse ++ acc
      let c ← peek
      if !double && c == '\'' && (← peekAt 1) == '\'' then
        forward 2
        quotedText double bound ('\'' :: acc)
      else if (double && c == '\'') || (!double && (c == '"' || c == '\\')) then
        forward 1
        quotedText double bound (c :: acc)
      else if double && c == '\\' then
        quotedText double bound ((← escape).reverse ++ acc)
      else return acc

def quotedGap : Lex (List Char) := do
  let spaces ← takeWhile fun c => c == ' ' || c == '\t'
  let c ← peek
  if c == endMark then fail
  else if isBreak c then
    let first ← lineBreak
    let breaks ← quotedBreaks (← get).bound []
    if first != ['\n'] then return first ++ breaks
    else if breaks.isEmpty then return [' ']
    else return breaks
  else return spaces

def quotedRest (double : Bool) (quote : Char) : Nat → List Char → Lex (List Char)
  | 0, _ => fail
  | bound + 1, acc => do
      if (← peek) == quote then
        forward 1
        return acc
      else
        let gap ← quotedGap
        quotedRest double quote bound (← quotedText double bound (gap.reverse ++ acc))

def quoted (double : Bool) : Lex Token := do
  let quote ← peek
  forward 1
  let bound := (← get).bound
  let start ← quotedText double bound []
  let text ← quotedRest double quote bound start
  return .scalar (String.ofList text.reverse) false

-- A plain run ends at a gap, at a colon before a gap and, in flow context, at an indicator.
def plainRun (flow : Bool) : List Char → List Char
  | [] => []
  | c :: rest =>
      let next := rest.headD endMark
      if isGapOrEnd c ||
          (c == ':' && (isGapOrEnd next || (flow && [',', '[', ']', '{', '}'].contains next))) ||
          (flow && [',', '?', '[', ']', '{', '}'].contains c) then []
      else c :: plainRun flow rest

-- Blank lines inside a plain scalar; nothing if a document boundary ends it.
def plainBreaks : Nat → List Char → Lex (Option (List Char))
  | 0, _ => fail
  | bound + 1, acc => do
      let c ← peek
      if c == ' ' then
        forward 1
        plainBreaks bound acc
      else if isBreak c then
        let acc := acc ++ (← lineBreak)
        if ← atDocumentBoundary then return none
        plainBreaks bound acc
      else return some acc

def plainGap : Lex (List Char) := do
  let spaces ← takeWhile (· == ' ')
  if isBreak (← peek) then
    let first ← lineBreak
    modify fun c => { c with keyAllowed := true }
    if ← atDocumentBoundary then return []
    match ← plainBreaks (← get).bound [] with
    | none => return []
    | some breaks =>
        if first != ['\n'] then return first ++ breaks
        else if breaks.isEmpty then return [' ']
        else return breaks
  else return spaces

def plainRest (indent : Int) : Nat → List Char → List Char → Lex (List Char)
  | 0, _, _ => fail
  | bound + 1, acc, gap => do
      if (← peek) == '#' then return acc
      let flow := (← get).flowLevel != 0
      let run := plainRun flow (← get).rest
      if run.isEmpty then return acc
      modify fun c => { c with keyAllowed := false }
      forward run.length
      let acc := run.reverse ++ (gap.reverse ++ acc)
      let gap ← plainGap
      if gap.isEmpty || (← peek) == '#' || (!flow && (← get).column < indent) then return acc
      plainRest indent bound acc gap

def plain : Lex Token := do
  let indent := (← get).indent + 1
  let text ← plainRest indent (← get).bound [] []
  return .scalar (String.ofList text.reverse) true

-- How the breaks at the end of a block are kept.
inductive Chomping where
  | strip
  | clip
  | keep
deriving DecidableEq

def chomping? : Char → Option Chomping
  | '+' => some .keep
  | '-' => some .strip
  | _ => none

def blockIncrement : Lex (Option Nat) := do
  let c ← peek
  if c.isDigit then
    if c == '0' then fail
    forward 1
    return some (c.toNat - '0'.toNat)
  else return none

def blockChomping : Lex (Option Chomping) := do
  match chomping? (← peek) with
  | some k =>
      forward 1
      return some k
  | none => return none

-- The two indicators of a block header come in either order.
def blockHeader : Lex (Chomping × Option Nat) := do
  let early ← blockChomping
  let increment ← blockIncrement
  let late ← if early.isNone && increment.isSome then blockChomping else pure none
  if !isSpaceOrEnd (← peek) then fail
  return ((early <|> late).getD .clip, increment)

-- The rest of a line that holds at most a comment.
def ignoredLine : Lex Unit := do
  skipWhile (· == ' ')
  if (← peek) == '#' then skipWhile fun c => !isBreakOrEnd c
  if !isBreakOrEnd (← peek) then fail
  discard lineBreak

-- Leading blank lines of a block, and the deepest column that spaces reach in them.
def blockIndentation : Nat → List Char → Nat → Lex (List Char × Nat)
  | 0, _, _ => fail
  | bound + 1, acc, deepest => do
      let c ← peek
      if c == ' ' then
        forward 1
        blockIndentation bound acc (max deepest (← get).column)
      else if isBreak c then
        blockIndentation bound (acc ++ (← lineBreak)) deepest
      else return (acc, deepest)

-- Spaces up to the indentation.
def blockMargin (indent : Int) : Nat → Lex Unit
  | 0 => pure ()
  | bound + 1 => do
      if (← get).column < indent && (← peek) == ' ' then
        forward 1
        blockMargin indent bound

def blockBreaks (indent : Int) : Nat → List Char → Lex (List Char)
  | 0, _ => fail
  | bound + 1, acc => do
      blockMargin indent (← get).bound
      if isBreak (← peek) then
        blockBreaks indent bound (acc ++ (← lineBreak))
      else return acc

structure BlockText where
  -- The last character comes first.
  text : List Char
  lastBreak : List Char
  breaks : List Char

-- In a folded block a single break between two lines that start with text is a space.
def blockLines (folded : Bool) (indent : Int) : Nat → BlockText → Lex BlockText
  | 0, _ => fail
  | bound + 1, b => do
      if (← get).column == indent && (← peek) != endMark then
        let textFirst := !((← peek) == ' ' || (← peek) == '\t')
        let line ← takeWhile fun c => !isBreakOrEnd c
        let text := line.reverse ++ (b.breaks.reverse ++ b.text)
        let lastBreak ← lineBreak
        let breaks ← blockBreaks indent (← get).bound []
        let c ← peek
        if (← get).column == indent && c != endMark then
          if folded && lastBreak == ['\n'] && textFirst && !(c == ' ' || c == '\t') then
            blockLines folded indent bound
              ⟨if breaks.isEmpty then ' ' :: text else text, lastBreak, breaks⟩
          else blockLines folded indent bound ⟨lastBreak ++ text, lastBreak, breaks⟩
        else return ⟨text, lastBreak, breaks⟩
      else return b

def block (folded : Bool) : Lex Token := do
  forward 1
  let (chomping, increment) ← blockHeader
  ignoredLine
  let bound := (← get).bound
  let least : Int := max ((← get).indent + 1) 1
  let (breaks, indent) ← match increment with
    | none => do
        let (breaks, deepest) ← blockIndentation bound [] 0
        pure (breaks, max least deepest)
    | some n => do
        let indent := least + n - 1
        pure (← blockBreaks indent bound [], indent)
  let b ← blockLines folded indent bound ⟨[], [], breaks⟩
  let text := b.text.reverse ++ (if chomping = .strip then [] else b.lastBreak) ++
    (if chomping = .keep then b.breaks else [])
  return .scalar (String.ofList text) false

end ApiGraph.Yaml.Lex
