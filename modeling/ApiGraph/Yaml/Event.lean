import ApiGraph.Yaml.Token.Lexer

namespace ApiGraph.Yaml

inductive Event where
  | streamEnd
  | documentStart
  | documentEnd
  | alias (name : String)
  -- A plain scalar finds its tag from its text; another one without a tag is text.
  | scalar (anchor tag : Option String) (plain : Bool) (text : String)
  | sequenceStart (anchor tag : Option String)
  | sequenceEnd
  | mappingStart (anchor tag : Option String)
  | mappingEnd
deriving DecidableEq

structure EventStream where
  events : List Event
  ending : Problem

inductive Expectation where
  | firstDocument
  | document
  | documentContent
  | documentEnd
  | blockNode
  | blockEntry
  | indentlessEntry
  | blockKey
  | blockValue
  | flowEntry (first : Bool)
  | pairKey
  | pairValue
  | pairEnd
  | flowKey (first : Bool)
  | flowValue
  | flowEmptyValue
deriving DecidableEq

-- What is still to be read, and what is expected of it.
structure Reading where
  tokens : List Token
  ending : Problem
  handles : List (String × String)
  expected : List Expectation

namespace Reading

def defaultHandles : List (String × String) := [("!", "!"), ("!!", "tag:yaml.org,2002:")]

abbrev Step := StateT Reading (Except Problem)

def fail {α : Type} : Step α := throw malformed

def peek : Step Token := do
  match (← get).tokens with
  | t :: _ => return t
  | [] => throw (← get).ending

def skip : Step Unit := modify fun r => { r with tokens := r.tokens.drop 1 }

def next : Step Token := do
  let t ← peek
  skip
  return t

-- Replaces what was expected by what is expected after this step.
def expect (es : List Expectation) : Step Unit :=
  modify fun r => { r with expected := es ++ r.expected }

def emptyScalar : Event := .scalar none none true ""

-- A node, or an empty scalar if one of the given tokens is there instead.
def orEmpty (isNext : Token → Bool) (after : Expectation) (node : Step Event) : Step Event := do
  expect [after]
  if isNext (← peek) then return emptyScalar else node

def resolveTag (handle : Option String) (suffix : String) : Step String := do
  match handle with
  | none => return suffix
  | some h =>
      match (← get).handles.lookup h with
      | some start => return start ++ suffix
      | none => fail

-- An anchor and a tag in either order.
def properties : Step (Option String × Option String) := do
  match ← peek with
  | .anchor name =>
      skip
      match ← peek with
      | .tag handle suffix =>
          skip
          return (some name, some (← resolveTag handle suffix))
      | _ => return (some name, none)
  | .tag handle suffix =>
      skip
      match ← peek with
      | .anchor name =>
          skip
          return (some name, some (← resolveTag handle suffix))
      | _ => return (none, some (← resolveTag handle suffix))
  | _ => return (none, none)

-- The tag that says only that a node is a node.
def isOpenTag (tag : Option String) : Bool := tag == none || tag == some "!"

def node (block indentless : Bool) : Step Event := do
  if let .alias name := ← peek then
    skip
    return .alias name
  let (anchor, tag) ← properties
  match ← peek with
  | .blockEntry =>
      if indentless then
        expect [.indentlessEntry]
        return .sequenceStart anchor tag
      else missing anchor tag
  | .scalar text plain =>
      skip
      return .scalar anchor tag ((plain && tag == none) || tag == some "!") text
  | .flowSequenceStart =>
      expect [.flowEntry true]
      skip
      return .sequenceStart anchor tag
  | .flowMappingStart =>
      expect [.flowKey true]
      skip
      return .mappingStart anchor tag
  | .blockSequenceStart =>
      if block then
        expect [.blockEntry]
        skip
        return .sequenceStart anchor tag
      else missing anchor tag
  | .blockMappingStart =>
      if block then
        expect [.blockKey]
        skip
        return .mappingStart anchor tag
      else missing anchor tag
  | _ => missing anchor tag
where
  -- A node may consist of its properties alone.
  missing (anchor tag : Option String) : Step Event :=
    if anchor.isSome || tag.isSome then return .scalar anchor tag (isOpenTag tag) ""
    else fail

def blockNode : Step Event := node true false

def blockNodeOrIndentless : Step Event := node true true

def flowNode : Step Event := node false false

-- The directives before a document mark.
def directives : Nat → Bool → List (String × String) → Step (List (String × String))
  | 0, _, _ => fail
  | bound + 1, versionSeen, handles => do
      match ← peek with
      | .versionDirective major =>
          skip
          if versionSeen || major != 1 then fail
          directives bound true handles
      | .tagDirective handle start =>
          skip
          if (handles.lookup handle).isSome then fail
          directives bound versionSeen (handles ++ [(handle, start)])
      | .otherDirective =>
          skip
          directives bound versionSeen handles
      | _ => return handles

def skipDocumentEnds : Step Unit :=
  modify fun r => { r with tokens := r.tokens.dropWhile (· == .documentEnd) }

def document : Step Event := do
  skipDocumentEnds
  if (← peek) == .streamEnd then return .streamEnd
  let handles ← directives ((← get).tokens.length + 1) false []
  if (← next) != .documentStart then fail
  modify fun r => { r with handles := handles ++ defaultHandles }
  expect [.documentContent, .documentEnd]
  return .documentStart

def firstDocument : Step Event := do
  match ← peek with
  | .versionDirective _ | .tagDirective _ _ | .otherDirective | .documentStart | .streamEnd =>
      document
  | _ =>
      modify fun r => { r with handles := defaultHandles }
      expect [.blockNode, .documentEnd]
      return .documentStart

def documentContent : Step Event := do
  match ← peek with
  | .versionDirective _ | .tagDirective _ _ | .otherDirective | .documentStart | .documentEnd
  | .streamEnd => return emptyScalar
  | _ => blockNode

def documentEnd : Step Event := do
  if (← peek) == .documentEnd then skip
  expect [.document]
  return .documentEnd

def blockEntry : Step Event := do
  match ← next with
  | .blockEntry =>
      orEmpty (fun t => t == .blockEntry || t == .blockEnd) .blockEntry blockNode
  | .blockEnd => return .sequenceEnd
  | _ => fail

def indentlessEntry : Step Event := do
  if (← peek) == .blockEntry then
    skip
    orEmpty (fun t => t == .blockEntry || t == .key || t == .value || t == .blockEnd)
      .indentlessEntry blockNode
  else return .sequenceEnd

def endsBlockNode (t : Token) : Bool := t == .key || t == .value || t == .blockEnd

def blockKey : Step Event := do
  match ← next with
  | .key => orEmpty endsBlockNode .blockValue blockNodeOrIndentless
  | .blockEnd => return .mappingEnd
  | _ => fail

def blockValue : Step Event := do
  if (← peek) == .value then
    skip
    orEmpty endsBlockNode .blockKey blockNodeOrIndentless
  else
    expect [.blockKey]
    return emptyScalar

-- A comma stands between two entries.
def separator (first : Bool) : Step Unit := do
  if !first then
    if (← next) != .flowEntry then fail

def flowEntry (first : Bool) : Step Event := do
  if (← peek) == .flowSequenceEnd then
    skip
    return .sequenceEnd
  separator first
  match ← peek with
  | .key =>
      expect [.pairKey]
      return .mappingStart none none
  | .flowSequenceEnd =>
      skip
      return .sequenceEnd
  | _ =>
      expect [.flowEntry false]
      flowNode

def pairKey : Step Event := do
  skip
  orEmpty (fun t => t == .value || t == .flowEntry || t == .flowSequenceEnd) .pairValue flowNode

def pairValue : Step Event := do
  if (← peek) == .value then
    skip
    orEmpty (fun t => t == .flowEntry || t == .flowSequenceEnd) .pairEnd flowNode
  else
    expect [.pairEnd]
    return emptyScalar

def pairEnd : Step Event := do
  expect [.flowEntry false]
  return .mappingEnd

def flowKey (first : Bool) : Step Event := do
  if (← peek) == .flowMappingEnd then
    skip
    return .mappingEnd
  separator first
  match ← peek with
  | .key =>
      skip
      orEmpty (fun t => t == .value || t == .flowEntry || t == .flowMappingEnd) .flowValue flowNode
  | .flowMappingEnd =>
      skip
      return .mappingEnd
  | _ =>
      expect [.flowEmptyValue]
      flowNode

def flowValue : Step Event := do
  if (← peek) == .value then
    skip
    orEmpty (fun t => t == .flowEntry || t == .flowMappingEnd) (.flowKey false) flowNode
  else
    expect [.flowKey false]
    return emptyScalar

def flowEmptyValue : Step Event := do
  expect [.flowKey false]
  return emptyScalar

def meets : Expectation → Step Event
  | .firstDocument => firstDocument
  | .document => document
  | .documentContent => documentContent
  | .documentEnd => documentEnd
  | .blockNode => blockNode
  | .blockEntry => blockEntry
  | .indentlessEntry => indentlessEntry
  | .blockKey => blockKey
  | .blockValue => blockValue
  | .flowEntry first => flowEntry first
  | .pairKey => pairKey
  | .pairValue => pairValue
  | .pairEnd => pairEnd
  | .flowKey first => flowKey first
  | .flowValue => flowValue
  | .flowEmptyValue => flowEmptyValue

-- The next event; nothing is expected after the end of the stream.
def event : Step Event := do
  match (← get).expected with
  | [] => throw (← get).ending
  | e :: es =>
      modify fun r => { r with expected := es }
      meets e

def events : Nat → Reading → List Event → EventStream
  | 0, r, acc => ⟨acc.reverse, r.ending⟩
  | bound + 1, r, acc =>
      match event.run r with
      | .error e => ⟨acc.reverse, e⟩
      | .ok (e, r) =>
          if e = .streamEnd then ⟨(e :: acc).reverse, malformed⟩ else events bound r (e :: acc)

end Reading

-- Each token gives at most three events.
def EventStream.ofTokens (s : TokenStream) : EventStream :=
  Reading.events (4 * s.tokens.length + 8) ⟨s.tokens, s.ending, [], [.firstDocument]⟩ []

end ApiGraph.Yaml
