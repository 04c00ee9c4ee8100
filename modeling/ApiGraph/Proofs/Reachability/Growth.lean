import ApiGraph.Proofs.Ensures
import ApiGraph.Reachability.Collect

namespace ApiGraph.Reachability

-- With its name recorded, a mapping is done if the name led somewhere or the mapping is a reference.
def finishNamed (id : NodeId) (m : Entries) (found : Bool) : Walk Bool := do
  if found || m.ref?.isSome then
    visit id
    return true
  return false

def enter (c : Scope) (walk : Value → Walk Unit) (depth : Nat) (id : NodeId) (m : Entries) :
    Walk Unit := do
  if c.settings.maxNestedDepth ≤ depth then
    passOver (if isOwnBody c.registry id m then parts c.store m else [.node id])
    return
  visit id
  walkParts c walk m

def walkFresh (c : Scope) (walk : Value → Walk Unit) (depth : Nat) (isSeed : Bool) (id : NodeId)
    (m : Entries) : Walk Unit := do
  match referenceName? m with
  | some name => if ← walkNamed c walk depth id m name then return
  | none =>
      if isArray c.store m then
        walkArray c walk isSeed id m
        return
  enter c walk depth id m

-- A pass only adds to what it has found.
structure Grows (p p' : Progress) : Prop where
  names : p.names <+: p'.names
  visited : p.visited <:+ p'.visited
  limits : p.limits <+: p'.limits
  passedOver : p.passedOver <+: p'.passedOver

theorem Grows.refl (p : Progress) : Grows p p :=
  ⟨List.prefix_rfl, List.suffix_rfl, List.prefix_rfl, List.prefix_rfl⟩

theorem Grows.trans {p q r : Progress} (h : Grows p q) (h' : Grows q r) : Grows p r :=
  ⟨h.names.trans h'.names, h.visited.trans h'.visited, h.limits.trans h'.limits,
    h.passedOver.trans h'.passedOver⟩

def Growing {α : Type} (x : Walk α) : Prop :=
  ∀ p, Ensures x p (fun _ => Grows p) fun _ => Grows p

section Steps

variable {α : Type} {c : Scope}

theorem growing_pure (a : α) : Growing (pure a : Walk α) :=
  fun p => ensures_pure.mpr (Grows.refl p)

theorem Growing.bind {β : Type} {x : Walk α} {f : α → Walk β} (hx : Growing x)
    (hf : ∀ a, Growing (f a)) : Growing (x >>= f) := by
  intro p
  rw [ensures_bind]
  refine (hx p).mono (fun a q hq => ?_) fun _ _ => id
  exact (hf a q).mono (fun _ _ => hq.trans) fun _ _ => hq.trans

theorem growing_get {f : Progress → Walk α} (hf : ∀ p, Growing (f p)) :
    Growing (get >>= f) := by
  intro p
  rw [ensures_bind, ensures_get]
  exact hf p p

theorem growing_modify {f : Progress → Progress} (hf : ∀ p, Grows p (f p)) :
    Growing (modify f : Walk Unit) := fun p => ensures_modify.mpr (hf p)

theorem Growing.discard {x : Walk α} (hx : Growing x) : Growing (discard x) := by
  intro p
  rw [ensures_discard]
  exact hx p

theorem growing_forM {walk : Value → Walk Unit} (hw : ∀ v, Growing (walk v)) (l : List Value) :
    Growing (l.forM walk) := by
  induction l with
  | nil => exact growing_pure ()
  | cons v rest ih => exact (hw v).bind fun _ => ih

theorem growing_limit (kind : LimitKind) (detail : String) : Growing (limit kind detail) := by
  refine growing_modify fun p => ?_
  split
  · exact .refl p
  · exact ⟨List.prefix_rfl, List.suffix_rfl, List.prefix_append _ _, List.prefix_rfl⟩

theorem growing_add (k : Key) : Growing (add k) := by
  refine growing_get fun p => ?_
  split
  · exact growing_pure _
  · refine Growing.bind (growing_modify fun p => ?_) fun _ => growing_pure _
    exact ⟨List.prefix_append _ _, List.suffix_rfl, List.prefix_rfl, List.prefix_rfl⟩

theorem growing_visit (id : NodeId) : Growing (visit id) :=
  growing_modify fun _ => ⟨List.prefix_rfl, List.suffix_cons _ _, List.prefix_rfl, List.prefix_rfl⟩

theorem growing_passOver (l : List Value) : Growing (passOver l) :=
  growing_modify fun _ => ⟨List.prefix_rfl, List.suffix_rfl, List.prefix_rfl,
    List.prefix_append _ _⟩

theorem growing_finishNamed (id : NodeId) (m : Entries) (found : Bool) :
    Growing (finishNamed id m found) := by
  unfold finishNamed
  split
  · exact (growing_visit _).bind fun _ => growing_pure _
  · exact growing_pure _

theorem growing_isFull : Growing (isFull c) := growing_get fun _ => growing_pure _

theorem growing_mayEnter (depth : Nat) : Growing (mayEnter c depth) := by
  unfold mayEnter
  dsimp only
  split
  · exact (growing_limit _ _).bind fun _ => growing_pure _
  · refine growing_isFull.bind fun full => ?_
    split
    · exact (growing_limit _ _).bind fun _ => growing_pure _
    · split
      · exact (growing_limit _ _).bind fun _ => growing_pure _
      · exact growing_pure _

end Steps

section Walk

variable {c : Scope} {walk : Value → Walk Unit} (hw : ∀ v, Growing (walk v))
include hw

theorem growing_walkBranches (m : Entries) (keywords : List String) :
    Growing (walkBranches c walk m keywords) := by
  induction keywords with
  | nil => exact growing_pure ()
  | cons keyword rest ih =>
      unfold walkBranches
      dsimp only
      split
      · split
        · exact (growing_limit _ _).bind fun _ => (growing_forM hw _).bind fun _ => ih
        · exact (growing_forM hw _).bind fun _ => ih
      · exact ih

theorem growing_walkProperties (l : List Value) (count : Nat) :
    Growing (walkProperties c walk l count) := by
  induction l generalizing count with
  | nil => exact growing_pure ()
  | cons v rest ih =>
      unfold walkProperties
      split
      · exact growing_pure ()
      · refine growing_isFull.bind fun full => ?_
        split
        · exact (growing_limit _ _).bind fun _ => growing_pure ()
        · exact (hw v).bind fun _ => ih _

theorem growing_walkAllProperties (m : Entries) : Growing (walkAllProperties c walk m) := by
  unfold walkAllProperties
  dsimp only
  split
  · exact (growing_limit _ _).bind fun _ => growing_walkProperties hw _ _
  · exact growing_walkProperties hw _ _

theorem growing_walkItems (m : Entries) : Growing (walkItems walk m) := by
  unfold walkItems
  split
  · exact hw _
  · exact growing_pure _

theorem growing_walkParts (m : Entries) : Growing (walkParts c walk m) := by
  unfold walkParts
  refine (growing_walkBranches hw m _).bind fun _ => ?_
  exact (growing_walkItems hw m).bind fun _ => growing_walkAllProperties hw m

theorem growing_walkComponent (depth : Nat) (name : String) :
    Growing (walkComponent c walk depth name) := by
  unfold walkComponent
  split
  · exact growing_pure _
  · refine growing_get fun p => ?_
    split
    · exact (growing_passOver _).bind fun _ => growing_pure _
    · split
      · exact (growing_passOver _).bind fun _ => growing_pure _
      · split
        · exact (growing_visit _).bind fun _ => (hw _).bind fun _ => growing_pure _
        · exact (hw _).bind fun _ => growing_pure _

theorem growing_walkNamed (depth : Nat) (id : NodeId) (m : Entries) (name : String) :
    Growing (walkNamed c walk depth id m name) := by
  unfold walkNamed
  split
  · exact (growing_add _).discard.bind fun _ => growing_pure _
  · refine (growing_add _).bind fun isNew => ?_
    split
    · exact (growing_walkComponent hw _ _).bind (growing_finishNamed id m)
    · exact (growing_pure _).bind (growing_finishNamed id m)

theorem growing_walkArray (isSeed : Bool) (id : NodeId) (m : Entries) :
    Growing (walkArray c walk isSeed id m) := by
  unfold walkArray
  refine (growing_visit _).bind fun _ => (growing_passOver _).bind fun _ => ?_
  split
  · refine (growing_add _).discard.bind fun _ => (growing_passOver _).bind fun _ => ?_
    exact growing_walkItems hw m
  · exact growing_walkItems hw m

theorem growing_enter (depth : Nat) (id : NodeId) (m : Entries) :
    Growing (enter c walk depth id m) := by
  unfold enter
  split
  · exact (growing_passOver _).bind fun _ => growing_pure _
  · exact (growing_visit _).bind fun _ => growing_walkParts hw m

theorem growing_walkFresh (depth : Nat) (isSeed : Bool) (id : NodeId) (m : Entries) :
    Growing (walkFresh c walk depth isSeed id m) := by
  unfold walkFresh
  split
  · refine (growing_walkNamed hw _ _ _ _).bind fun all => ?_
    split
    · exact growing_pure _
    · exact growing_enter hw depth id m
  · split
    · exact (growing_walkArray hw _ _ _).bind fun _ => growing_pure _
    · exact growing_enter hw depth id m

end Walk

theorem growing_walk (c : Scope) (allowance depth : Nat) (isSeed : Bool) (v : Value) :
    Growing (walk c allowance depth isSeed v) := by
  induction allowance generalizing depth isSeed v with
  | zero => exact fun p => ensures_throw.mpr (Grows.refl p)
  | succ allowance ih =>
      have hw := ih (depth + 1) false
      unfold walk
      refine (growing_mayEnter depth).bind fun entered => ?_
      split
      · exact growing_pure _
      · dsimp only
        split
        · exact growing_pure _
        · refine growing_get fun p => ?_
          split
          · exact (growing_passOver _).bind fun _ => growing_pure _
          · exact growing_walkFresh hw depth isSeed _ _

section Runs

variable {c : Scope}

-- A run goes on with the other bodies unless there are too many names.
theorem walkSeeds_cons (seed : Seed) (rest : List Seed) (p : Progress) :
    ((walkSeeds c (seed :: rest)).run p).2 =
      if c.settings.maxNames < ((walkSeed c seed).run p).2.names.length then
        ((discard (limit .nameCount s!"more than {c.settings.maxNames} names collected").run).run
          ((walkSeed c seed).run p).2).2
      else ((walkSeeds c rest).run ((walkSeed c seed).run p).2).2 := by
  rw [walkSeeds, StateT.run_bind]
  generalize (walkSeed c seed).run p = r
  show (StateT.run (if c.settings.maxNames < r.2.names.length then
    discard (limit .nameCount s!"more than {c.settings.maxNames} names collected").run
    else walkSeeds c rest) r.2).2 = _
  split
  · rfl
  · rfl

theorem growing_rescue (seed : Seed) : Growing (rescue c seed) := by
  unfold rescue
  refine (growing_limit _ _).bind fun _ => ?_
  split
  · exact (growing_add _).discard
  · exact growing_pure _

theorem grows_walkSeed (seed : Seed) (p : Progress) : Grows p ((walkSeed c seed).run p).2 := by
  have hstart : Grows p { p with label := seed.label, before := p.names.length } :=
    ⟨List.prefix_rfl, List.suffix_rfl, List.prefix_rfl, List.prefix_rfl⟩
  have hwalk := growing_walk c nestingAllowance 0 true seed.schema
    { p with label := seed.label, before := p.names.length }
  have hend : Ensures (tryCatch (walk c nestingAllowance 0 true seed.schema)
      fun _ => rescue c seed) { p with label := seed.label, before := p.names.length }
      (fun _ => Grows p) fun _ => Grows p := by
    rw [ensures_tryCatch]
    refine hwalk.mono (fun _ _ hq => hstart.trans hq) fun _ q hq => ?_
    exact (growing_rescue seed q).mono (fun _ _ hr => (hstart.trans hq).trans hr)
      fun _ _ hr => (hstart.trans hq).trans hr
  exact hend.state

theorem grows_walkSeeds (l : List Seed) (p : Progress) : Grows p ((walkSeeds c l).run p).2 := by
  induction l generalizing p with
  | nil => exact .refl p
  | cons seed rest ih =>
      have hseed : Grows p ((walkSeed c seed).run p).2 := grows_walkSeed seed p
      rw [walkSeeds_cons]
      split
      · exact hseed.trans (growing_limit _ _ _).state
      · exact hseed.trans (ih _)

end Runs

end ApiGraph.Reachability
