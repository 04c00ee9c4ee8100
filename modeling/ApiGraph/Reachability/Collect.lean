import ApiGraph.Failure
import ApiGraph.Journal
import ApiGraph.Reachability.ArrayIndex
import ApiGraph.Reachability.Seed
import ApiGraph.Settings

namespace ApiGraph.Reachability

-- What the walk reads.
structure Scope where
  store : Store
  registry : Entries
  index : ArrayIndex
  settings : ReachabilitySettings

def Scope.isLarge (c : Scope) : Bool := c.settings.largeRegistryThreshold < c.registry.size

-- What it has found.
structure Progress where
  names : List Key
  visited : List NodeId
  -- The label of the body that is walked, and how many names there were before it.
  label : String
  before : Nat
  limits : List SoftLimit
  -- The values that were left aside without a limit.
  passedOver : List Value

-- What was found stays found when a walk is broken off.
abbrev Walk := ExceptT Fault (StateM Progress)

def site (p : Progress) : String := s!"reachability:{p.label}"

-- A limit is recorded once for each kind and body.
def limit (kind : LimitKind) (detail : String) : Walk Unit :=
  modify fun p =>
    if p.limits.any fun l => l.kind == kind && l.site == site p then p
    else { p with limits := p.limits ++ [⟨kind, site p, detail⟩] }

-- Records a name and tells whether it is new.
def add (name : Key) : Walk Bool := do
  if (← get).names.contains name then return false
  modify fun p => { p with names := p.names ++ [name] }
  return true

def visit (id : NodeId) : Walk Unit := modify fun p => { p with visited := id :: p.visited }

def passOver (l : List Value) : Walk Unit :=
  modify fun p => { p with passedOver := p.passedOver ++ l }

def isFull (c : Scope) : Walk Bool := do
  let p ← get
  return decide (c.settings.maxNamesPerWalk < (p.names.length : Int) - p.before)

def namesDetail (c : Scope) : String :=
  s!"more than {c.settings.maxNamesPerWalk} names in one walk"

-- Whether the walk may go on at the depth; if not, why is recorded.
def mayEnter (c : Scope) (depth : Nat) : Walk Bool := do
  let g := c.settings
  if g.maxDepth < depth then
    limit .depth s!"schema nested deeper than {g.maxDepth}"
    return false
  if ← isFull c then
    limit .nameCount (namesDetail c)
    return false
  if c.isLarge && decide (g.largeRegistryDepth < depth) then
    limit .depth (s!"registry has more than {g.largeRegistryThreshold} schemas; " ++
      s!"stopped below depth {g.largeRegistryDepth}")
    return false
  return true

-- The first branches; a negative bound leaves out that many at the end.
def firstBranches (bound : Int) (l : List Value) : List Value :=
  if 0 ≤ bound then l.take bound.toNat else l.take (l.length - (-bound).toNat)

def branches (s : Store) (m : Entries) (keyword : String) : List Value :=
  ((m.field? keyword).bind s.asSequence?).getD []

def properties (s : Store) (m : Entries) : Entries :=
  (((m.field? "properties").bind s.asMapping?).map Prod.snd).getD .empty

def isArray (s : Store) (m : Entries) : Bool := s.schemaType? m = some "array"

-- Every part of a schema.
def parts (s : Store) (m : Entries) : List Value :=
  compositionKeys.flatMap (branches s m) ++ (m.field? "items").toList ++ (properties s m).values

-- The parts of an array besides its items.
def sideParts (s : Store) (m : Entries) : List Value :=
  compositionKeys.flatMap (branches s m) ++ (properties s m).values

-- Whether the mapping is the very component that it names.
def isOwnBody (registry : Entries) (id : NodeId) (m : Entries) : Bool :=
  (referenceName? m).any fun name => registry.field? name = some (.node id)

-- Where the names of a component's body are met: in the items of an array, in the parts of a
-- mapping that names itself, or else in the body as it is.
def bodyOf (s : Store) (registry : Entries) (name : Key) : List Value :=
  match (registry.get? name).bind s.asMapping? with
  | none => []
  | some (id, m) =>
      if isArray s m then (m.field? "items").toList
      else if isOwnBody registry id m then parts s m
      else [.node id]

-- What a schema that was visited before may still hold: an array component is visited for its items
-- alone.
def unreadOf (s : Store) (names : List Key) (v : Value) (m : Entries) : List Value :=
  match referenceName? m with
  | some name => if names.contains (.str name) then [] else [v]
  | none => if isArray s m then sideParts s m else []

-- What a component that was visited before may still hold: an array that names a component is
-- visited for that name alone.
def unreadBody (s : Store) (m : Entries) : List Value :=
  if isArray s m && (referenceName? m).isSome then (m.field? "items").toList else []

def walkBranches (c : Scope) (walk : Value → Walk Unit) (m : Entries) : List String → Walk Unit
  | [] => return
  | keyword :: rest => do
      let l := branches c.store m keyword
      if !l.isEmpty then
        let bound := c.settings.maxBranches
        if bound < l.length then
          limit .branchCount s!"{keyword} has {l.length} branches; walked {bound}"
        (firstBranches bound l).forM walk
      walkBranches c walk m rest

-- Walks as many properties as allowed and stops when the body has too many names.
def walkProperties (c : Scope) (walk : Value → Walk Unit) : List Value → (count : Nat) → Walk Unit
  | [], _ => return
  | v :: rest, count => do
      if c.settings.maxProperties ≤ count then return
      if ← isFull c then
        limit .nameCount (namesDetail c)
        return
      walk v
      walkProperties c walk rest (count + 1)

-- Where there are too many properties, that is recorded first.
def walkAllProperties (c : Scope) (walk : Value → Walk Unit) (m : Entries) : Walk Unit := do
  let l := properties c.store m
  let bound := c.settings.maxProperties
  if !l.isEmpty && decide (bound < l.size) then
    limit .branchCount s!"{l.size} properties; walked {bound}"
  walkProperties c walk l.values 0

def walkItems (walk : Value → Walk Unit) (m : Entries) : Walk Unit := do
  if let some items := m.field? "items" then walk items

def walkParts (c : Scope) (walk : Value → Walk Unit) (m : Entries) : Walk Unit := do
  walkBranches c walk m compositionKeys
  walkItems walk m
  walkAllProperties c walk m

-- Walks the body of a component, of an array its items. Tells whether there is such a component.
def walkComponent (c : Scope) (walk : Value → Walk Unit) (depth : Nat) (name : String) :
    Walk Bool := do
  match (c.registry.field? name).bind c.store.asMapping? with
  | none => return false
  | some (id, m) =>
      if (← get).visited.contains id then
        passOver (unreadBody c.store m)
        return true
      if c.settings.maxNestedDepth ≤ depth then
        passOver (bodyOf c.store c.registry (.str name))
        return true
      if isArray c.store m then
        visit id
        walk ((m.field? "items").getD .null)
      else walk (.node id)
      return true

-- A named schema: records the name and walks the component. Tells whether that was all.
def walkNamed (c : Scope) (walk : Value → Walk Unit) (depth : Nat) (id : NodeId) (m : Entries)
    (name : String) : Walk Bool := do
  if isOwnBody c.registry id m then
    discard (add (.str name))
    return false
  let found ← if ← add (.str name) then walkComponent c walk depth name else pure true
  if found || m.ref?.isSome then
    visit id
    return true
  return false

-- An array schema without a name: records the component that it is a copy of and walks its items.
def walkArray (c : Scope) (walk : Value → Walk Unit) (isSeed : Bool) (id : NodeId) (m : Entries) :
    Walk Unit := do
  visit id
  passOver (sideParts c.store m)
  if let some name := c.index.find? c.store id m isSeed then
    discard (add name)
    passOver (bodyOf c.store c.registry name)
  walkItems walk m

def walk (c : Scope) : (allowance : Nat) → (depth : Nat) → (isSeed : Bool) → Value → Walk Unit
  | 0, _, _, _ => throw .stackExhausted
  | allowance + 1, depth, isSeed, v => do
      if !(← mayEnter c depth) then return
      let next := walk c allowance (depth + 1) false
      match c.store.asMapping? v with
      | none => return
      | some (id, m) =>
          let p ← get
          if p.visited.contains id then
            passOver (unreadOf c.store p.names v m)
            return
          match referenceName? m with
          | some name =>
              if ← walkNamed c next depth id m name then return
          | none =>
              if isArray c.store m then
                walkArray c next isSeed id m
                return
          if c.settings.maxNestedDepth ≤ depth then
            passOver (if isOwnBody c.registry id m then parts c.store m else [.node id])
            return
          visit id
          walkParts c next m

-- A walk that goes too deep leaves at least the name of the body.
def rescue (c : Scope) (seed : Seed) : Walk Unit := do
  limit .stack "schema nesting exhausted the stack"
  if let some name := (c.store.asMapping? seed.schema).bind (referenceName? ·.2) then
    discard (add (.str name))

def walkSeed (c : Scope) (seed : Seed) : StateM Progress Unit := do
  modify fun p => { p with label := seed.label, before := p.names.length }
  discard (tryCatch (walk c nestingAllowance 0 true seed.schema) fun _ => rescue c seed).run

-- Stops after the body with which there are too many names.
def walkSeeds (c : Scope) : List Seed → StateM Progress Unit
  | [] => return
  | seed :: rest => do
      walkSeed c seed
      let bound := c.settings.maxNames
      if bound < (← get).names.length then
        discard (limit .nameCount s!"more than {bound} names collected").run
      else walkSeeds c rest

def registryOf (s : Store) (document : NodeId) : Entries :=
  ((s.registry? document).map Prod.snd).getD .empty

def scopeOf (s : Store) (settings : ReachabilitySettings) (document : NodeId) : Scope :=
  let registry := registryOf s document
  ⟨s, registry, .ofRegistry s registry, settings⟩

def collect (s : Store) (settings : ReachabilitySettings) (document : NodeId) : Progress :=
  let c := scopeOf s settings document
  ((walkSeeds c (seeds s document)).run ⟨[], [], "", 0, [], []⟩).2

end ApiGraph.Reachability
