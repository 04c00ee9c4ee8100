import ApiGraph.Document.Operations
import ApiGraph.Naming.Name
import ApiGraph.Naming.Table
import ApiGraph.Settings

namespace ApiGraph.Naming

-- What naming reads.
structure Scope where
  store : Store
  -- The identities of the components.
  topLevel : List NodeId
  maxDepth : Int

-- What it has done.
structure Progress where
  table : InlineTable
  visited : List NodeId
  limits : List SoftLimit
  events : List Event

abbrev Collect := StateT Progress (Except Fault)

def assign (node : NodeId) (name : String) : Collect Unit :=
  modify fun p =>
    let (table, events) := p.table.assign node name
    { p with table, events := p.events ++ events }

def properties? (s : Store) (m : Entries) : Option Entries :=
  ((m.field? "properties").bind s.asMapping?).map Prod.snd

-- An object schema with properties that is neither a reference nor a copy of a component.
def isNameable (s : Store) (m : Entries) : Bool :=
  m.ref?.isNone && !m.has resolvedRefKey && s.schemaType? m == some "object" &&
    (properties? s m).isSome

-- The bodies of the responses of an operation.
def bodies (s : Store) (operation : Entries) : List Value :=
  match (operation.field? "responses").bind s.asMapping? with
  | none => []
  | some (_, responses) => responses.values.flatMap fun r =>
      match s.asMapping? r with
      | some (_, response) => s.mediaSchemas response
      | none => []

-- Names the bodies that can be named; the counter counts them.
def nameBodies (c : Scope) : List (Entries × Value) → Nat → Collect Unit
  | [], _ => return
  | (operation, v) :: rest, counter => do
      match c.store.asMapping? v with
      | none => nameBodies c rest counter
      | some (id, m) =>
          if c.topLevel.contains id || !isNameable c.store m then nameBodies c rest counter
          else
            let keys := ((properties? c.store m).getD .empty).keys
            assign id (← responseName (operation.text? "operationId") keys counter)
            nameBodies c rest (counter + 1)

def nameResponses (c : Scope) (document : NodeId) : Collect Unit :=
  nameBodies c ((c.store.operations document).flatMap fun o =>
    (bodies c.store o.fields).map (o.fields, ·)) 1

def depthLimit (c : Scope) (property : Option Key) : SoftLimit :=
  let label := match property.filter (·.scalar.isTruthy) with
    | some key => key.scalar.text
    | none => "<anonymous>"
  ⟨.depth, s!"naming:{label}", s!"schema nested deeper than {c.maxDepth}"⟩

-- The mapping branches of the composition keywords.
def branches (s : Store) (m : Entries) : List NodeId :=
  compositionKeys.flatMap fun keyword =>
    (((m.field? keyword).bind s.asSequence?).getD []).filterMap fun v =>
      (s.asMapping? v).map Prod.fst

-- The items of an array schema.
def arrayItems? (s : Store) (m : Entries) : Option NodeId := do
  let (id, _) ← s.asMapping? (← m.field? "items")
  if s.schemaType? m = some "array" then some id else none

-- Names what the schema holds. A reference is to be followed to a mapping among the components whose
-- identity is not one of theirs. There is none, since every such mapping is one of them, so that no case
-- for it is written here: a reference is left alone, and what it names is scanned as a component.
def scan (c : Scope) : (allowance : Nat) → (depth : Nat) → (property : Option Key) →
    (inComposition : Bool) → NodeId → Collect Unit
  | 0, _, _, _, _ => throw .stackExhausted
  | allowance + 1, depth, property, inComposition, schema => do
      if c.maxDepth < depth then
        modify fun p => { p with limits := p.limits ++ [depthLimit c property] }
        return
      if (← get).visited.contains schema then return
      modify fun p => { p with visited := schema :: p.visited }
      let m := c.store.entries schema
      if m.ref?.isSome then return
      (branches c.store m).forM (scan c allowance (depth + 1) property true)
      let table := (← get).table
      if !inComposition && !c.topLevel.contains schema && !table.contains schema &&
          isNameable c.store m then
        assign schema (← propertyName (m.text? "title") property table.size)
      ((properties? c.store m).getD .empty).entries.forM fun (name, v) =>
        match c.store.asMapping? v with
        | some (id, _) => scan c allowance (depth + 1) (some name) inComposition id
        | none => return
      match arrayItems? c.store m with
      | some id => scan c allowance (depth + 1) property inComposition id
      | none => return

-- The components that are mappings.
def componentIds (s : Store) (document : NodeId) : List NodeId :=
  match s.registry? document with
  | some (_, registry) => registry.values.filterMap fun v => (s.asMapping? v).map Prod.fst
  | none => []

-- The bodies of responses are named first, and then what the components hold.
def collect (s : Store) (settings : NamingSettings) (document : NodeId) :
    Except Fault Progress := do
  let components := componentIds s document
  let c : Scope := ⟨s, components, settings.maxDepth⟩
  let run : Collect Unit := do
    nameResponses c document
    components.forM (scan c nestingAllowance 0 none false)
  let (_, p) ← run.run ⟨.empty, [], [], []⟩
  return p

end ApiGraph.Naming
