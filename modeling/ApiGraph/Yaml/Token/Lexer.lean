import ApiGraph.Yaml.Token.Name

namespace ApiGraph.Yaml

namespace Lex

def keyReach : Nat := 1024

def candidate? : Lex (Option KeyCandidate) := do
  let c ← get
  return c.candidates.lookup c.flowLevel

def dropCandidate : Lex Unit :=
  modify fun c => { c with candidates := c.candidates.filter (·.1 != c.flowLevel) }

-- Gives up the candidate of the current level, which must not be a required one.
def removeCandidate : Lex Unit := do
  if (← candidate?).any (·.required) then fail
  dropCandidate

-- Most keys are known only when the colon after them is met, so every place where one may start is
-- kept as a candidate.
def saveCandidate : Lex Unit := do
  if (← get).keyAllowed then
    removeCandidate
    modify fun c =>
      let k : KeyCandidate := {
        tokenNumber := c.count
        required := c.flowLevel == 0 && c.indent == c.column
        index := c.index
        line := c.line
        column := c.column }
      { c with candidates := (c.flowLevel, k) :: c.candidates }

def isStale (c : Cursor) (k : KeyCandidate) : Bool :=
  k.line != c.line || keyReach < c.index - k.index

def removeStale : Lex Unit := do
  let c ← get
  if c.candidates.any fun e => isStale c e.2 && e.2.required then fail
  set { c with candidates := c.candidates.filter fun e => !isStale c e.2 }

-- Notes which tokens can be read now.
def settle : Lex Unit :=
  modify fun c =>
    let live := c.candidates.filter fun e => !isStale c e.2
    { c with settled := live.foldl (fun n e => min n e.2.tokenNumber) c.count }

-- Ends the block collections that are indented deeper than the column.
def unwindTo (column : Int) : List Int → Lex Unit
  | [] => pure ()
  | outer :: more => do
      let c ← get
      if c.flowLevel == 0 && column < c.indent then
        set { c with indent := outer, indents := more }
        emit .blockEnd
        unwindTo column more

def unwind (column : Int) : Lex Unit := do unwindTo column (← get).indents

-- Whether a block collection has to start at the column.
def indentTo (column : Int) : Lex Bool := do
  let c ← get
  if c.indent < column then
    set { c with indent := column, indents := c.indent :: c.indents }
    return true
  else return false

def allowKey (allowed : Bool) : Lex Unit := modify fun c => { c with keyAllowed := allowed }

def inFlow : Lex Bool := return (← get).flowLevel != 0

def skipToToken : Nat → Lex Unit
  | 0 => fail
  | bound + 1 => do
      skipWhile (· == ' ')
      if (← peek) == '#' then skipWhile fun c => !isBreakOrEnd c
      if !(← lineBreak).isEmpty then
        if !(← inFlow) then allowKey true
        skipToToken bound

def streamEnd : Lex Unit := do
  unwind (-1)
  removeCandidate
  emit .streamEnd

def directiveToken : Lex Unit := do
  unwind (-1)
  removeCandidate
  allowKey false
  emit (← directive)

def documentMark (t : Token) : Lex Unit := do
  unwind (-1)
  removeCandidate
  allowKey false
  forward 3
  emit t

def flowStart (t : Token) : Lex Unit := do
  saveCandidate
  modify fun c => { c with flowLevel := c.flowLevel + 1 }
  allowKey true
  forward 1
  emit t

-- A bracket that closes nothing fails here; no document has a place for it.
def flowEnd (t : Token) : Lex Unit := do
  removeCandidate
  if !(← inFlow) then fail
  modify fun c => { c with flowLevel := c.flowLevel - 1 }
  allowKey false
  forward 1
  emit t

def flowEntry : Lex Unit := do
  allowKey true
  removeCandidate
  forward 1
  emit .flowEntry

-- In block context an entry, a key or a value may start only where a key may.
def startBlock (t : Token) : Lex Unit := do
  if !(← get).keyAllowed then fail
  if ← indentTo (← get).column then emit t

def blockEntry : Lex Unit := do
  if !(← inFlow) then startBlock .blockSequenceStart
  allowKey true
  removeCandidate
  forward 1
  emit .blockEntry

def key : Lex Unit := do
  if !(← inFlow) then startBlock .blockMappingStart
  allowKey (!(← inFlow))
  removeCandidate
  forward 1
  emit .key

def value : Lex Unit := do
  match ← candidate? with
  | some k =>
      dropCandidate
      emitAt k.tokenNumber .key
      if !(← inFlow) then
        if ← indentTo k.column then emitAt k.tokenNumber .blockMappingStart
      allowKey false
  | none =>
      if !(← inFlow) then startBlock .blockMappingStart
      allowKey (!(← inFlow))
      removeCandidate
  forward 1
  emit .value

-- A token that may be a key of its own.
def keyLike (t : Lex Token) : Lex Unit := do
  saveCandidate
  allowKey false
  emit (← t)

def blockScalar (folded : Bool) : Lex Unit := do
  allowKey true
  removeCandidate
  emit (← block folded)

def indicators : List Char :=
  ['-', '?', ':', ',', '[', ']', '{', '}', '#', '&', '*', '!', '|', '>', '\'', '"', '%', '@', '`']

def startsPlain : Lex Bool := do
  let c ← peek
  if !(isGapOrEnd c || indicators.contains c) then return true
  if isGapOrEnd (← peekAt 1) then return false
  return c == '-' || (!(← inFlow) && (c == '?' || c == ':'))

def token : Lex Unit := do
  let c ← peek
  let flow ← inFlow
  let gapNext := isGapOrEnd (← peekAt 1)
  let atLineStart := (← get).column == 0
  if c == '%' && atLineStart then directiveToken
  else if c == '-' && atLineStart && (← atDocumentMark '-') then documentMark .documentStart
  else if c == '.' && atLineStart && (← atDocumentMark '.') then documentMark .documentEnd
  else match c with
    | '[' => flowStart .flowSequenceStart
    | '{' => flowStart .flowMappingStart
    | ']' => flowEnd .flowSequenceEnd
    | '}' => flowEnd .flowMappingEnd
    | ',' => flowEntry
    | '*' => keyLike (return .alias (← anchorName))
    | '&' => keyLike (return .anchor (← anchorName))
    | '!' => keyLike tag
    | '\'' => keyLike (quoted false)
    | '"' => keyLike (quoted true)
    | _ =>
        if c == '-' && gapNext then blockEntry
        else if c == '?' && (flow || gapNext) then key
        else if c == ':' && (flow || gapNext) then value
        else if c == '|' && !flow then blockScalar false
        else if c == '>' && !flow then blockScalar true
        else if ← startsPlain then keyLike plain
        else fail

def tokens : Nat → Lex Unit
  | 0 => fail
  | bound + 1 => do
      settle
      skipToToken (← get).bound
      removeStale
      unwind (← get).column
      if (← peek) == endMark then streamEnd
      else
        token
        tokens bound

-- A byte order mark at the very start is no part of the text.
def text : Lex Unit := do
  if !(← get).rest.all isPrintable then fail
  if (← peek) == '\uFEFF' then forward 1
  tokens (← get).bound

end Lex

-- The tokens of a text, as far as it has any. Reading one that may yet become a key reads on, so
-- where a text stops being one before that is decided, the token is not there.
def TokenStream.ofText (text : List Char) : TokenStream :=
  match Lex.text.run (.start text) with
  | .ok _ c => ⟨c.tokens.reverse, malformed⟩
  | .error e c => ⟨c.tokens.reverse.take c.settled, e⟩

end ApiGraph.Yaml
