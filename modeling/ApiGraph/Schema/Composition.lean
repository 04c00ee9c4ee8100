import ApiGraph.Document.Equality
import ApiGraph.Document.Access
import ApiGraph.Reference.Target
import ApiGraph.Settings

namespace ApiGraph.Composition

-- The facets of which the first branch decides.
def facets : List String :=
  ["type", "format", "pattern", "minLength", "maxLength", "minItems", "maxItems", "enum",
   "writeOnly", "readOnly"]

-- The component that a reference names, or else the schema itself.
def followRef (s : Store) (document : Option NodeId) (schema : NodeId) : NodeId :=
  (do
    let name ← Reference.schemaName? (← (s.entries schema).ref?)
    let (_, registry) ← s.registry? (← document)
    let (target, _) ← s.asMapping? (← registry.field? name)
    return target).getD schema

-- What a key of a merged schema holds.
inductive Slot where
  | given (value : Value)
  -- The collected properties.
  | properties
  -- The collected names of required properties.
  | required

-- A merged schema that is still being collected.
structure Draft where
  slots : OrderedMap Key Slot
  properties : Entries
  required : List Value

namespace Draft

def empty : Draft := ⟨.empty, .empty, []⟩

-- Takes the value of the branch under the key, unless a branch before has given one.
def addGiven (branch : Entries) (d : Draft) (key : String) : Draft :=
  match branch.field? key with
  | some v => { d with slots := d.slots.insertNew (.str key) (.given v) }
  | none => d

def addProperties (s : Store) (branch : Entries) (d : Draft) : Draft :=
  match (branch.field? "properties").bind s.asMapping? with
  | some (_, m) =>
      if m.isEmpty then d
      else { d with
        slots := d.slots.insertNew (.str "properties") .properties
        properties := m.entries.foldl (fun acc e => acc.insertNew e.1 e.2) d.properties }
  | none => d

def addNames (s : Store) : List Value → List Value → Except Fault (List Value)
  | [], acc => return acc
  | v :: rest, acc => do
      if ← s.member v acc then addNames s rest acc else addNames s rest (acc ++ [v])

def addRequired (s : Store) (branch : Entries) (d : Draft) : Except Fault Draft := do
  match (branch.field? "required").bind s.asSequence? with
  | some l =>
      if l.isEmpty then return d
      let required ← addNames s l d.required
      return { d with slots := d.slots.insertNew (.str "required") .required, required }
  | none => return d

-- Adds what one more branch declares.
def absorb (s : Store) (d : Draft) (branch : Entries) : Except Fault Draft := do
  let d := facets.foldl (addGiven branch) d
  let d := addProperties s branch d
  let d ← addRequired s branch d
  return addGiven branch d "items"

-- Writes the collected schema down as new containers.
def finish (s : Store) (d : Draft) : NodeId × Store :=
  let (properties, s) :=
    if d.slots.contains (.str "properties") then s.alloc (.mapping d.properties) else (0, s)
  let (required, s) :=
    if d.slots.contains (.str "required") then s.alloc (.sequence d.required) else (0, s)
  s.alloc <| .mapping <| d.slots.mapValues fun
    | .given v => v
    | .properties => .node properties
    | .required => .node required

end Draft

-- A failure keeps what was written before it.
abbrev Compose := ExceptT Fault (StateM Store)

-- Merges the effective forms of the branches.
def merge (form : NodeId → Compose NodeId) : List Value → Draft → Compose Draft
  | [], d => return d
  | v :: rest, d => do
      match (← get).asMapping? v with
      | none => merge form rest d
      | some (branch, _) =>
          let effective ← form branch
          let s ← get
          merge form rest (← d.absorb s (s.entries effective))

-- The keyword whose first branch stands for the schema.
def choice? (m : Entries) : Option String := ["oneOf", "anyOf"].find? m.has

def effectiveAt (document : Option NodeId) (maxDepth : Int) :
    (allowance : Nat) → (depth : Int) → NodeId → Compose NodeId
  | 0, _, _ => throw .stackExhausted
  | allowance + 1, depth, schema => do
      if maxDepth < depth then return schema
      let s ← get
      let m := s.entries schema
      let form := fun branch =>
        effectiveAt document maxDepth allowance (depth + 1) (followRef s document branch)
      if m.has "allOf" then
        match (m.field? "allOf").bind s.asSequence? with
        | none => return schema
        | some branches =>
            let d ← merge form branches .empty
            if d.slots.isEmpty then return schema
            let (merged, s) := d.finish (← get)
            set s
            return merged
      else
        match choice? m with
        | none => return schema
        | some keyword =>
            match ((m.field? keyword).bind s.asSequence?).bind List.head? with
            | none => return schema
            | some v =>
                match s.asMapping? v with
                | none => return schema
                | some (branch, _) => form branch

-- How the call ends, and the store with what was written for it.
def run (s : Store) (document : Option NodeId) (settings : CompositionSettings) (depth : Int)
    (schema : NodeId) : Except Fault NodeId × Store :=
  (effectiveAt document settings.maxDepth nestingAllowance depth schema).run.run s

-- The schema that the given one stands for, in the store that holds it.
def effective (s : Store) (document : Option NodeId) (settings : CompositionSettings)
    (depth : Int) (schema : NodeId) : Except Fault (NodeId × Store) :=
  let (outcome, s) := run s document settings depth schema
  outcome.map (·, s)

end ApiGraph.Composition
