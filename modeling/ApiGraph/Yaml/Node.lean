import ApiGraph.Yaml.Event
import ApiGraph.Yaml.Tag

namespace ApiGraph.Yaml

inductive Content where
  | scalar (text : String)
  | sequence (items : List Nat)
  | mapping (entries : List (Nat × Nat))
deriving DecidableEq, Inhabited

structure Node where
  tag : Tag
  content : Content
deriving DecidableEq

abbrev NodeGraph := Array Node

-- The events left, the anchors met and the nodes built so far.
structure Composing where
  -- More than all events, so no collection has as many parts.
  bound : Nat
  events : List Event
  ending : Problem
  anchors : List (String × Nat)
  graph : NodeGraph

abbrev Compose := StateT Composing (Except Problem)

namespace Compose

def peek : Compose Event := do
  match (← get).events with
  | e :: _ => return e
  | [] => throw (← get).ending

def skip : Compose Unit := modify fun c => { c with events := c.events.drop 1 }

-- Adds a node, known under its anchor from here on.
def add (anchor : Option String) (n : Node) : Compose Nat := do
  let c ← get
  let id := c.graph.size
  let anchors := match anchor with
    | some name => (name, id) :: c.anchors
    | none => c.anchors
  set { c with graph := c.graph.push n, anchors }
  return id

def fill (id : Nat) (content : Content) : Compose Unit :=
  modify fun c => { c with graph := c.graph.modify id fun n => { n with content } }

def explicitTag? (tag : Option String) : Option Tag :=
  match tag with
  | none => none
  | some "!" => none
  | some name => some (.ofName name)

def scalarTag (tag : Option String) (plain : Bool) (text : String) : Tag :=
  (explicitTag? tag).getD (if plain then .ofPlainText text else .str)

def checkAnchor (anchor : Option String) : Compose Unit := do
  if let some name := anchor then
    if ((← get).anchors.lookup name).isSome then throw malformed

def items (node : Compose Nat) : Nat → List Nat → Compose (List Nat)
  | 0, _ => do throw (← get).ending
  | bound + 1, acc => do
      if (← peek) = .sequenceEnd then
        skip
        return acc.reverse
      else items node bound ((← node) :: acc)

def entries (node : Compose Nat) : Nat → List (Nat × Nat) → Compose (List (Nat × Nat))
  | 0, _ => do throw (← get).ending
  | bound + 1, acc => do
      if (← peek) = .mappingEnd then
        skip
        return acc.reverse
      else
        let key ← node
        let value ← node
        entries node bound ((key, value) :: acc)

-- A node whose collections are nested at most as deep as allowed.
def node : (allowance : Nat) → Compose Nat
  | 0 => throw (.fault .stackExhausted)
  | allowance + 1 => do
      match ← peek with
      | .alias name =>
          skip
          match (← get).anchors.lookup name with
          | some id => return id
          | none => throw malformed
      | .scalar anchor tag plain text =>
          checkAnchor anchor
          skip
          add anchor ⟨scalarTag tag plain text, .scalar text⟩
      | .sequenceStart anchor tag =>
          checkAnchor anchor
          skip
          let id ← add anchor ⟨(explicitTag? tag).getD .seq, .sequence []⟩
          fill id (.sequence (← items (node allowance) (← get).bound []))
          return id
      | .mappingStart anchor tag =>
          checkAnchor anchor
          skip
          let id ← add anchor ⟨(explicitTag? tag).getD .map, .mapping []⟩
          fill id (.mapping (← entries (node allowance) (← get).bound []))
          return id
      | _ => throw malformed

-- The root of the only document, or nothing if there is no document.
def document (allowance : Nat) : Compose (Option Nat) := do
  if (← peek) = .streamEnd then return none
  skip
  let root ← node allowance
  discard peek
  skip
  if (← peek) = .streamEnd then return some root else throw malformed

end Compose

def NodeGraph.ofEvents (allowance : Nat) (s : EventStream) :
    Except Problem (Option Nat × NodeGraph) := do
  let (root, c) ← (Compose.document allowance).run
    ⟨s.events.length + 1, s.events, s.ending, [], #[]⟩
  return (root, c.graph)

end ApiGraph.Yaml
