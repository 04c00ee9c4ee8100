import ApiGraph.Document.Store
import ApiGraph.Yaml.Scalar

namespace ApiGraph.Yaml

-- What a container that still has to be filled will hold.
inductive Filling where
  | sequence
  | pairs
  | mapping
  | set
deriving DecidableEq

structure Task where
  node : Nat
  target : NodeId
  filling : Filling

structure Building where
  graph : NodeGraph
  store : Store
  -- The values made so far, by node.
  values : Array (Option Value)
  -- The containers to fill next, last one first.
  queue : List Task

abbrev Build := StateT Building (Except Problem)

namespace Build

def nodeAt (id : Nat) : Build Node := do
  match (← get).graph[id]? with
  | some n => return n
  | none => throw malformed

def setContent (id : Nat) (content : Content) : Build Unit :=
  modify fun b => { b with graph := b.graph.modify id fun n => { n with content } }

def setTag (id : Nat) (tag : Tag) : Build Unit :=
  modify fun b => { b with graph := b.graph.modify id fun n => { n with tag } }

-- The text of a scalar, which a mapping may hold under its value key.
def scalarText : (allowance : Nat) → Nat → Build (List Char)
  | 0, _ => throw (.fault .stackExhausted)
  | allowance + 1, id => do
      match (← nodeAt id).content with
      | .scalar text => return text.toList
      | .sequence _ => throw malformed
      | .mapping entries =>
          let graph := (← get).graph
          match entries.find? fun e => graph[e.1]?.any (·.tag == .value) with
          | some e => scalarText allowance e.2
          | none => throw malformed

def enqueue (node : Nat) (filling : Filling) (start : Container) : Build Value := do
  let b ← get
  let (target, store) := b.store.alloc start
  set { b with store, queue := ⟨node, target, filling⟩ :: b.queue }
  return .node target

def freshValue (id : Nat) : Build Value := do
  let n ← nodeAt id
  let ofText := fun (f : List Char → Except Problem Scalar) => do
    let s ← f (← scalarText nestingAllowance id)
    return Value.scalar s
  match n.tag with
  | .null => ofText fun _ => return .null
  | .bool => ofText ScalarText.bool
  | .int => ofText ScalarText.int
  | .float => ofText ScalarText.float
  | .binary => ofText ScalarText.binary
  | .str => ofText fun cs => return .str (String.ofList cs)
  | .timestamp =>
      let text ← scalarText nestingAllowance id
      match n.content with
      | .scalar _ => ofText fun _ => ScalarText.timestamp text
      | _ => throw (.fault .mappingAsTime)
  | .seq => enqueue id .sequence (.sequence [])
  | .omap => enqueue id .pairs (.sequence [])
  | .pairs => enqueue id .pairs (.sequence [])
  | .map => enqueue id .mapping (.mapping .empty)
  | .set => enqueue id .set (.set [])
  | .merge => throw malformed
  | .value => throw malformed
  | .unknown => throw malformed

-- The one value of a node.
def valueOf (id : Nat) : Build Value := do
  match ((← get).values[id]?).join with
  | some v => return v
  | none =>
      let v ← freshValue id
      modify fun b => { b with values := b.values.setIfInBounds id (some v) }
      return v

def mappingEntries (id : Nat) : Build (List (Nat × Nat)) := do
  match (← nodeAt id).content with
  | .mapping entries => return entries
  | _ => throw malformed

-- Takes the merge entries out of a mapping from the given place on and returns what they merge.
-- `flatten` prepares a merged mapping; the bound covers every list that can be written down.
def collectMerges (flatten : Nat → Build Unit) (id : Nat) :
    (bound place : Nat) → Build (List (Nat × Nat))
  | 0, _ => throw (.fault .stackExhausted)
  | bound + 1, place => do
      let entries ← mappingEntries id
      match entries[place]? with
      | none => return []
      | some (key, source) =>
          match (← nodeAt key).tag with
          | .merge =>
              setContent id (.mapping (entries.eraseIdx place))
              let merged ← match (← nodeAt source).content with
                | .mapping _ => do
                    flatten source
                    mappingEntries source
                | .sequence items => do
                    let parts ← items.mapM fun item => do
                      discard (mappingEntries item)
                      flatten item
                      mappingEntries item
                    pure parts.reverse.flatten
                | .scalar _ => throw malformed
              return merged ++ (← collectMerges flatten id bound place)
          | .value =>
              setTag key .str
              collectMerges flatten id bound (place + 1)
          | _ => collectMerges flatten id bound (place + 1)

-- Puts the merged entries of a mapping in front of its own.
def flatten : (allowance : Nat) → Nat → Build Unit
  | 0, _ => throw (.fault .stackExhausted)
  | allowance + 1, id => do
      let merged ← collectMerges (flatten allowance) id (Nat.pow 2 32) 0
      unless merged.isEmpty do
        setContent id (.mapping (merged ++ (← mappingEntries id)))

def entriesOf : List (Nat × Nat) → Entries → Build Entries
  | [], acc => return acc
  | (key, value) :: rest, acc => do
      match ← valueOf key with
      | .scalar k =>
          let v ← valueOf value
          entriesOf rest (acc.insert ⟨k⟩ v)
      | _ => throw malformed

def mapping (id : Nat) : Build Entries := do
  discard (mappingEntries id)
  flatten nestingAllowance id
  entriesOf (← mappingEntries id) .empty

def pairOf (id : Nat) : Build Value := do
  match ← mappingEntries id with
  | [(key, value)] =>
      let k ← valueOf key
      let v ← valueOf value
      return .pair k v
  | _ => throw malformed

def sequenceItems (id : Nat) : Build (List Nat) := do
  match (← nodeAt id).content with
  | .sequence items => return items
  | _ => throw malformed

def fill (t : Task) : Build Unit := do
  let content ← match t.filling with
    | .sequence => do pure (Container.sequence (← (← sequenceItems t.node).mapM valueOf))
    | .pairs => do pure (.sequence (← (← sequenceItems t.node).mapM pairOf))
    | .mapping => do pure (.mapping (← mapping t.node))
    | .set => do pure (.set ((← mapping t.node).keys.map Key.scalar))
  modify fun b => { b with store := b.store.set t.target content }

-- Fills the waiting containers and then those that this made necessary.
def fillAll : Nat → Build Unit
  | 0 => pure ()
  | bound + 1 => do
      match (← get).queue.reverse with
      | [] => pure ()
      | tasks =>
          modify fun b => { b with queue := [] }
          tasks.forM fill
          fillAll bound

def document (root : Nat) : Build Value := do
  let v ← valueOf root
  fillAll ((← get).graph.size + 1)
  return v

end Build

-- Adds the containers of the text to the store; an empty text is null.
def read (allowance : Nat) (text : List Char) (store : Store) : Except Problem (Value × Store) := do
  let (root, graph) ← NodeGraph.ofEvents allowance (.ofTokens (.ofText text))
  match root with
  | none => return (.null, store)
  | some root =>
      let (v, b) ← (Build.document root).run ⟨graph, store, .replicate graph.size none, []⟩
      return (v, b.store)

end ApiGraph.Yaml
