import ApiGraph.Proofs.Alike
import ApiGraph.Proofs.Reachability.Completeness

namespace ApiGraph.Reachability

-- That there are too many names was recorded for the body of the label.
def CountLimited (label : String) (p : Progress) : Prop :=
  ∃ l ∈ p.limits, l.kind = .nameCount ∧ l.site = s!"reachability:{label}"

def Exhausted (p : Progress) : Prop := ∃ l ∈ p.limits, l.kind = .stack

-- The body may still look for another name.
def HasRoom (c : Scope) (p : Progress) : Prop :=
  (p.names.length : Int) - p.before ≤ c.settings.maxNamesPerWalk

def Scope.allowing (c : Scope) (n : Int) : Scope :=
  { c with settings := { c.settings with maxNamesPerWalk := n } }

namespace Scope

variable (c : Scope) (n : Int)

@[simp] theorem allowing_store : (c.allowing n).store = c.store := rfl

@[simp] theorem allowing_registry : (c.allowing n).registry = c.registry := rfl

@[simp] theorem allowing_index : (c.allowing n).index = c.index := rfl

@[simp] theorem allowing_isLarge : (c.allowing n).isLarge = c.isLarge := rfl

@[simp] theorem allowing_settings :
    (c.allowing n).settings = { c.settings with maxNamesPerWalk := n } := rfl

end Scope

section Body

variable {c : Scope} {p q r : Progress}

-- What happens within one body: from any point of it, at most one name more than allowed is there at
-- the end.
structure InBody (c : Scope) (p q : Progress) : Prop where
  label : q.label = p.label
  before : q.before = p.before
  limits : p.limits <+: q.limits
  names : (q.names.length : Int) ≤ max (p.names.length : Int)
    (p.before + c.settings.maxNamesPerWalk + 1)

theorem InBody.refl (c : Scope) (p : Progress) : InBody c p p :=
  ⟨rfl, rfl, List.prefix_rfl, Int.le_max_left _ _⟩

theorem InBody.trans (h : InBody c p q) (h' : InBody c q r) : InBody c p r where
  label := h'.label.trans h.label
  before := h'.before.trans h.before
  limits := h.limits.trans h'.limits
  names := by
    have hq := h.names
    have hr := h'.names
    rw [h.before] at hr
    omega

theorem CountLimited.mono {label : String} (h : CountLimited label p)
    (hl : p.limits <+: q.limits) : CountLimited label q := by
  obtain ⟨l, hmem, hl'⟩ := h
  exact ⟨l, hl.subset hmem, hl'⟩

theorem Exhausted.mono (h : Exhausted p) (hl : p.limits <+: q.limits) : Exhausted q := by
  obtain ⟨l, hmem, hl'⟩ := h
  exact ⟨l, hl.subset hmem, hl'⟩

-- A limit is either there already or recorded.
theorem limit_cases (kind : LimitKind) (detail : String) (p : Progress) :
    (∃ l ∈ p.limits, l.kind = kind ∧ l.site = site p) ∧ ((limit kind detail).run.run p).2 = p ∨
      ((limit kind detail).run.run p).2 = { p with limits := p.limits ++ [⟨kind, site p, detail⟩] } := by
  have hrun : ((limit kind detail).run.run p).2 =
      if p.limits.any fun l => l.kind == kind && l.site == site p then p
      else { p with limits := p.limits ++ [⟨kind, site p, detail⟩] } := rfl
  rw [hrun]
  split
  next hany =>
    obtain ⟨l, hmem, hl⟩ := List.any_eq_true.mp hany
    rw [Bool.and_eq_true, beq_iff_eq, beq_iff_eq] at hl
    exact .inl ⟨⟨l, hmem, hl⟩, rfl⟩
  next => exact .inr rfl

theorem limited_limit (kind : LimitKind) (detail : String) (p : Progress) :
    ∃ l ∈ ((limit kind detail).run.run p).2.limits,
      l.kind = kind ∧ l.site = s!"reachability:{p.label}" := by
  rcases limit_cases kind detail p with ⟨hl, hrun⟩ | hrun
  · rw [hrun]
    exact hl
  · rw [hrun]
    exact ⟨_, List.mem_append_right _ List.mem_cons_self, rfl, rfl⟩

theorem names_limit (kind : LimitKind) (detail : String) (p : Progress) :
    ((limit kind detail).run.run p).2.names = p.names := by
  rcases limit_cases kind detail p with ⟨-, hrun⟩ | hrun
  all_goals rw [hrun]

theorem visited_limit (kind : LimitKind) (detail : String) (p : Progress) :
    ((limit kind detail).run.run p).2.visited = p.visited := by
  rcases limit_cases kind detail p with ⟨-, hrun⟩ | hrun
  all_goals rw [hrun]

theorem inBody_limit (c : Scope) (kind : LimitKind) (detail : String) (p : Progress) :
    InBody c p ((limit kind detail).run.run p).2 := by
  rcases limit_cases kind detail p with ⟨-, hrun⟩ | hrun
  · rw [hrun]
    exact .refl c p
  · rw [hrun]
    exact ⟨rfl, rfl, List.prefix_append _ _, Int.le_max_left _ _⟩

theorem inBody_add (h : HasRoom c p) (k : Key) : InBody c p ((add k).run.run p).2 := by
  show InBody c p ((if p.names.contains k then pure false else do
    modify fun p => { p with names := p.names ++ [k] }
    return true : Walk Bool).run.run p).2
  split
  · exact .refl c p
  · refine ⟨rfl, rfl, List.prefix_rfl, ?_⟩
    show ((p.names ++ [k]).length : Int) ≤ _
    unfold HasRoom at h
    rw [List.length_append, List.length_singleton]
    omega

end Body

section Capped

variable {α β : Type} {c : Scope} {p : Progress} {n : Int}

-- The first program stays within the body. The second one, which may be allowed more names, does
-- the same unless the first one met the bound.
structure Capped (c : Scope) (x y : Walk α) (p : Progress) : Prop where
  body : InBody c p (x.run.run p).2
  same : CountLimited p.label (x.run.run p).2 ∨ y.run.run p = x.run.run p

variable {x x' y y' : Walk α}

theorem capped_of_inBody (h : InBody c p (x.run.run p).2) : Capped c x x p := ⟨h, .inr rfl⟩

theorem capped_pure (a : α) : Capped c (pure a) (pure a) p := capped_of_inBody (.refl c p)

theorem Capped.bind {f g : α → Walk β} (h : Capped c x y p)
    (hf : ∀ a q, x.run.run p = (.ok a, q) → Capped c (f a) (g a) q) :
    Capped c (x >>= f) (y >>= g) p := by
  obtain ⟨hbody, hsame⟩ := h
  rcases hend : x.run.run p with ⟨e | a, q⟩
  · have hx : (x >>= f).run.run p = (.error e, q) := by
      rw [run_bind, hend]
      rfl
    rw [hend] at hbody hsame
    refine ⟨by rwa [hx], ?_⟩
    rw [hx]
    refine hsame.imp_right fun hy => ?_
    rw [run_bind, hy]
    rfl
  · have hx : (x >>= f).run.run p = (f a).run.run q := by
      rw [run_bind, hend]
      rfl
    rw [hend] at hbody hsame
    obtain ⟨hrest, hsame'⟩ := hf a q hend
    refine ⟨by rw [hx]; exact hbody.trans hrest, ?_⟩
    rw [hx]
    -- Once the bound is met, it stays recorded.
    rcases hsame with hcut | hy
    · exact .inl (hcut.mono hrest.limits)
    · rw [hbody.label] at hsame'
      refine hsame'.imp_right fun hy' => ?_
      rw [run_bind, hy]
      exact hy'

theorem capped_ite {P : Prop} [Decidable P] (h : P → Capped c x y p) (h' : ¬P → Capped c x' y' p) :
    Capped c (if P then x else x') (if P then y else y') p := by
  by_cases hP : P
  · rw [if_pos hP, if_pos hP]
    exact h hP
  · rw [if_neg hP, if_neg hP]
    exact h' hP

theorem capped_visit_bind {id : NodeId} (h : Capped c x y { p with visited := id :: p.visited }) :
    Capped c (do visit id; x) (do visit id; y) p :=
  Capped.bind (capped_of_inBody ⟨rfl, rfl, List.prefix_rfl, Int.le_max_left _ _⟩)
    fun _ _ hrun => by cases hrun; exact h

theorem capped_passOver_bind {l : List Value}
    (h : Capped c x y { p with passedOver := p.passedOver ++ l }) :
    Capped c (do passOver l; x) (do passOver l; y) p :=
  Capped.bind (capped_of_inBody ⟨rfl, rfl, List.prefix_rfl, Int.le_max_left _ _⟩)
    fun _ _ hrun => by cases hrun; exact h

theorem capped_get_bind {f g : Progress → Walk α} (h : Capped c (f p) (g p) p) :
    Capped c (get >>= f) (get >>= g) p := ⟨h.body, h.same⟩

theorem Capped.discard (h : Capped c x y p) : Capped c (discard x) (discard y) p := by
  show Capped c ((fun _ => PUnit.unit) <$> x) ((fun _ => PUnit.unit) <$> y) p
  rw [map_eq_pure_bind, map_eq_pure_bind]
  exact h.bind fun _ _ _ => capped_pure _

theorem capped_limit_bind (kind : LimitKind) (detail : String) (h : ∀ q, Capped c x y q) :
    Capped c (do limit kind detail; x) (do limit kind detail; y) p :=
  Capped.bind (capped_of_inBody (inBody_limit c kind detail p)) fun _ q _ => h q

theorem capped_add (h : HasRoom c p) (k : Key) : Capped c (add k) (add k) p :=
  capped_of_inBody (inBody_add h k)

theorem run_unlessFull {z : Walk α} (h : HasRoom c p) :
    (do if ← isFull c then z else x).run.run p = x.run.run p := by
  show (if decide (c.settings.maxNamesPerWalk < (p.names.length : Int) - p.before) = true then z
    else x).run.run p = _
  rw [if_neg (by simpa using Int.not_lt.mpr h)]

theorem run_full {z : Walk α} (h : ¬HasRoom c p) :
    (do if ← isFull c then z else x).run.run p = z.run.run p := by
  show (if decide (c.settings.maxNamesPerWalk < (p.names.length : Int) - p.before) = true then z
    else x).run.run p = _
  rw [if_pos (by simpa using Int.not_le.mp h)]

-- A test of the bound: without room it is recorded, and with room both programs pass.
theorem capped_unlessFull (hn : c.settings.maxNamesPerWalk ≤ n) (a : α)
    (h : HasRoom c p → Capped c x y p) :
    Capped c (do
      if ← isFull c then
        limit .nameCount (namesDetail c)
        return a
      x) (do
      if ← isFull (c.allowing n) then
        limit .nameCount (namesDetail (c.allowing n))
        return a
      y) p := by
  by_cases hroom : HasRoom c p
  · have hroom' : HasRoom (c.allowing n) p := Int.le_trans hroom hn
    obtain ⟨hbody, hsame⟩ := h hroom
    constructor
    · rwa [run_unlessFull hroom]
    · rwa [run_unlessFull hroom, run_unlessFull hroom']
  · constructor
    · rw [run_full hroom]
      exact inBody_limit c .nameCount (namesDetail c) p
    · rw [run_full hroom]
      exact .inl (limited_limit .nameCount (namesDetail c) p)

theorem capped_mayEnter (hn : c.settings.maxNamesPerWalk ≤ n) (depth : Nat) :
    Capped c (mayEnter c depth) (mayEnter (c.allowing n) depth) p := by
  unfold mayEnter
  simp only [Scope.allowing_settings, Scope.allowing_isLarge]
  refine capped_ite (fun _ => ?_) fun _ => ?_
  · exact capped_limit_bind _ _ fun _ => capped_pure _
  · refine capped_unlessFull hn false fun _ => capped_ite (fun _ => ?_) fun _ => ?_
    · exact capped_limit_bind _ _ fun _ => capped_pure _
    · exact capped_pure _

-- A walk that may go on has found room.
theorem mayEnter_eq_true {depth : Nat} {q : Progress}
    (h : (mayEnter c depth).run.run p = (.ok true, q)) : q = p ∧ HasRoom c p := by
  have hentered : Ensures (mayEnter c depth) p (fun b q => b = true → q = p ∧ HasRoom c p)
      fun _ _ => True := by
    have refused (kind : LimitKind) (detail : String) :
        Ensures (do limit kind detail; return false) p (fun b q => b = true → q = p ∧ HasRoom c p)
          fun _ _ => True := by
      rw [limit, ensures_bind, ensures_modify, ensures_pure]
      exact fun h => nomatch h
    unfold mayEnter
    dsimp only
    split
    · exact refused _ _
    · simp only [isFull, bind_assoc, ensures_bind, ensures_get, ensures_pure]
      split
      · exact refused _ _
      next hroom =>
        split
        · exact refused _ _
        · exact ensures_pure.mpr fun _ => ⟨rfl, Int.not_lt.mp (by simpa using hroom)⟩
  exact (ensures_of_ok h).mp hentered rfl

end Capped

section Walk

variable {c : Scope} {p : Progress} {n : Int} {walk walk' : Value → Walk Unit}
  (hw : ∀ v p, Capped c (walk v) (walk' v) p)
include hw

theorem capped_forM (l : List Value) : Capped c (l.forM walk) (l.forM walk') p := by
  induction l generalizing p with
  | nil => exact capped_pure ()
  | cons v rest ih => exact (hw v p).bind fun _ _ _ => ih

theorem capped_walkBranches (m : Entries) (keywords : List String) :
    Capped c (walkBranches c walk m keywords) (walkBranches (c.allowing n) walk' m keywords) p := by
  induction keywords generalizing p with
  | nil => exact capped_pure ()
  | cons keyword rest ih =>
      unfold walkBranches
      simp only [Scope.allowing_settings, Scope.allowing_store]
      refine capped_ite (fun _ => capped_ite (fun _ => ?_) fun _ => ?_) fun _ => ih
      · exact capped_limit_bind _ _ fun _ => (capped_forM hw _).bind fun _ _ _ => ih
      · exact (capped_forM hw _).bind fun _ _ _ => ih

theorem capped_walkProperties (hn : c.settings.maxNamesPerWalk ≤ n) (l : List Value) (count : Nat) :
    Capped c (walkProperties c walk l count) (walkProperties (c.allowing n) walk' l count) p := by
  induction l generalizing count p with
  | nil => exact capped_pure ()
  | cons v rest ih =>
      unfold walkProperties
      refine capped_ite (fun _ => capped_pure ()) fun _ => ?_
      exact capped_unlessFull hn () fun _ => (hw v p).bind fun _ _ _ => ih _

theorem capped_walkAllProperties (hn : c.settings.maxNamesPerWalk ≤ n) (m : Entries) :
    Capped c (walkAllProperties c walk m) (walkAllProperties (c.allowing n) walk' m) p := by
  unfold walkAllProperties
  simp only [Scope.allowing_settings, Scope.allowing_store]
  refine capped_ite (fun _ => ?_) fun _ => ?_
  · exact capped_limit_bind _ _ fun _ => capped_walkProperties hw hn _ _
  · exact capped_walkProperties hw hn _ _

theorem capped_walkItems (m : Entries) : Capped c (walkItems walk m) (walkItems walk' m) p := by
  unfold walkItems
  cases m.field? "items" with
  | none => exact capped_pure _
  | some items => exact hw items p

theorem capped_walkParts (hn : c.settings.maxNamesPerWalk ≤ n) (m : Entries) :
    Capped c (walkParts c walk m) (walkParts (c.allowing n) walk' m) p := by
  unfold walkParts
  refine (capped_walkBranches hw m _).bind fun _ _ _ => ?_
  exact (capped_walkItems hw m).bind fun _ _ _ => capped_walkAllProperties hw hn m

theorem capped_walkComponent (depth : Nat) (name : String) :
    Capped c (walkComponent c walk depth name) (walkComponent (c.allowing n) walk' depth name) p := by
  unfold walkComponent
  simp only [Scope.allowing_settings, Scope.allowing_store, Scope.allowing_registry]
  cases (c.registry.field? name).bind c.store.asMapping? with
  | none => exact capped_pure _
  | some e =>
      obtain ⟨id, m⟩ := e
      refine capped_get_bind (capped_ite (fun _ => ?_) fun _ => capped_ite (fun _ => ?_) fun _ =>
        capped_ite (fun _ => ?_) fun _ => ?_)
      · exact capped_passOver_bind (capped_pure _)
      · exact capped_passOver_bind (capped_pure _)
      · exact capped_visit_bind ((hw _ _).bind fun _ _ _ => capped_pure _)
      · exact (hw _ _).bind fun _ _ _ => capped_pure _

-- The mapping has been entered with room for a name, and one is recorded.
theorem capped_walkNamed (h : HasRoom c p) (depth : Nat) (id : NodeId) (m : Entries)
    (name : String) :
    Capped c (walkNamed c walk depth id m name) (walkNamed (c.allowing n) walk' depth id m name) p := by
  have finish (found : Bool) (q : Progress) :
      Capped c (finishNamed id m found) (finishNamed id m found) q :=
    capped_ite (fun _ => capped_visit_bind (capped_pure _)) fun _ => capped_pure _
  unfold walkNamed
  refine capped_ite (fun _ => (capped_add h _).discard.bind fun _ _ _ => capped_pure _) fun _ => ?_
  refine (capped_add h _).bind fun isNew q _ => capped_ite (fun _ => ?_) fun _ => ?_
  · exact (capped_walkComponent hw depth name).bind fun found q _ => finish found q
  · exact (capped_pure _).bind fun found q _ => finish found q

theorem capped_walkArray (h : HasRoom c p) (isSeed : Bool) (id : NodeId) (m : Entries) :
    Capped c (walkArray c walk isSeed id m) (walkArray (c.allowing n) walk' isSeed id m) p := by
  unfold walkArray
  simp only [Scope.allowing_store, Scope.allowing_registry, Scope.allowing_index]
  refine capped_visit_bind (capped_passOver_bind ?_)
  cases c.index.find? c.store id m isSeed with
  | none => exact capped_walkItems hw m
  | some name =>
      refine Capped.bind (capped_add ?_ name).discard fun _ _ _ => ?_
      · exact h
      · exact capped_passOver_bind (capped_walkItems hw m)

theorem capped_enter (hn : c.settings.maxNamesPerWalk ≤ n) (depth : Nat) (id : NodeId) (m : Entries) :
    Capped c (enter c walk depth id m) (enter (c.allowing n) walk' depth id m) p := by
  unfold enter
  exact capped_ite (fun _ => capped_passOver_bind (capped_pure _))
    fun _ => capped_visit_bind (capped_walkParts hw hn m)

theorem capped_walkFresh (hn : c.settings.maxNamesPerWalk ≤ n) (h : HasRoom c p) (depth : Nat)
    (isSeed : Bool) (id : NodeId) (m : Entries) :
    Capped c (walkFresh c walk depth isSeed id m) (walkFresh (c.allowing n) walk' depth isSeed id m)
      p := by
  unfold walkFresh
  simp only [Scope.allowing_store]
  cases referenceName? m with
  | some name =>
      refine (capped_walkNamed hw h depth id m name).bind fun all r _ => ?_
      exact capped_ite (fun _ => capped_pure _) fun _ => capped_enter hw hn depth id m
  | none =>
      refine capped_ite (fun _ => ?_) fun _ => capped_enter hw hn depth id m
      exact (capped_walkArray hw h isSeed id m).bind fun _ _ _ => capped_pure _

end Walk

theorem capped_walk {c : Scope} {n : Int} (hn : c.settings.maxNamesPerWalk ≤ n)
    (allowance depth : Nat) (isSeed : Bool) (v : Value) (p : Progress) :
    Capped c (walk c allowance depth isSeed v) (walk (c.allowing n) allowance depth isSeed v) p := by
  induction allowance generalizing depth isSeed v p with
  | zero => exact capped_of_inBody (.refl c p)
  | succ allowance ih =>
      have hw := ih (depth + 1) false
      unfold walk
      refine (capped_mayEnter hn depth).bind fun entered q hrun => ?_
      cases entered with
      | false => exact capped_pure _
      | true =>
          obtain ⟨rfl, hroom⟩ := mayEnter_eq_true hrun
          simp only [Scope.allowing_store]
          cases c.store.asMapping? v with
          | none => exact capped_pure _
          | some e =>
              obtain ⟨id, m⟩ := e
              refine capped_get_bind (capped_ite (fun _ => ?_) fun _ => ?_)
              · exact capped_passOver_bind (capped_pure _)
              · exact capped_walkFresh hw hn hroom depth isSeed id m

section Bodies

variable {c : Scope} {seed : Seed} {p : Progress} {n : Int}

-- What a body leaves behind.
def afterSeed (c : Scope) (seed : Seed) (p : Progress) : Progress := ((walkSeed c seed).run p).2

-- The bodies one after another, however many names there are.
def afterSeeds (c : Scope) (l : List Seed) (p : Progress) : Progress :=
  l.foldl (fun p seed => afterSeed c seed p) p

def openSeed (seed : Seed) (p : Progress) : Progress :=
  { p with label := seed.label, before := p.names.length }

-- The walk of a body, which may exhaust the stack.
def seedWalk (c : Scope) (seed : Seed) : Walk Unit := walk c nestingAllowance 0 true seed.schema

theorem capped_seedWalk (hn : c.settings.maxNamesPerWalk ≤ n) (seed : Seed) (p : Progress) :
    Capped c (seedWalk c seed) (seedWalk (c.allowing n) seed) (openSeed seed p) :=
  capped_walk hn nestingAllowance 0 true seed.schema (openSeed seed p)

theorem afterSeed_eq (seed : Seed) (p : Progress) :
    afterSeed c seed p =
      match (seedWalk c seed).run.run (openSeed seed p) with
      | (.ok _, q) => q
      | (.error _, q) => ((rescue c seed).run.run q).2 := by
  have hrun : afterSeed c seed p =
      ((tryCatch (seedWalk c seed) fun _ => rescue c seed).run.run (openSeed seed p)).2 := rfl
  rw [hrun, run_tryCatch]
  rcases (seedWalk c seed).run.run (openSeed seed p) with ⟨e | a, q⟩
  · rfl
  · rfl

theorem rescue_label (seed : Seed) (p : Progress) :
    ((rescue c seed).run.run p).2.label = p.label := by
  have hlimit := (inBody_limit c .stack "schema nesting exhausted the stack" p).label
  have hadd (k : Key) (q : Progress) (hq : q.label = p.label) :
      Ensures (discard (add k)) q (fun _ r => r.label = p.label) fun _ r => r.label = p.label := by
    rw [ensures_discard, ensures_add]
    split
    · exact hq
    · exact hq
  have hend : Ensures (rescue c seed) p (fun _ q => q.label = p.label)
      fun _ q => q.label = p.label := by
    unfold rescue
    rw [limit, ensures_bind, ensures_modify]
    split
    · exact hadd _ _ hlimit
    · exact ensures_pure.mpr hlimit
  exact hend.state

theorem exhausted_rescue (seed : Seed) (p : Progress) :
    Exhausted ((rescue c seed).run.run p).2 := by
  obtain ⟨l, hmem, hkind, -⟩ := limited_limit .stack "schema nesting exhausted the stack" p
  refine Exhausted.mono ⟨l, hmem, hkind⟩ ?_
  unfold rescue
  split
  · exact ((growing_add _).discard _).state.limits
  · exact List.prefix_rfl

theorem label_afterSeed (seed : Seed) (p : Progress) : (afterSeed c seed p).label = seed.label := by
  have hbody := (capped_seedWalk (c := c) (Int.le_refl _) seed p).body.label
  rw [afterSeed_eq]
  rcases hrun : (seedWalk c seed).run.run (openSeed seed p) with ⟨e | a, q⟩
  all_goals rw [hrun] at hbody
  · exact (rescue_label seed q).trans hbody
  · exact hbody

theorem names_afterSeed (h : ¬Exhausted (afterSeed c seed p)) :
    ((afterSeed c seed p).names.length : Int) ≤
      p.names.length + max 0 (c.settings.maxNamesPerWalk + 1) := by
  have hbody := (capped_seedWalk (c := c) (Int.le_refl _) seed p).body.names
  rw [afterSeed_eq] at h ⊢
  rcases hrun : (seedWalk c seed).run.run (openSeed seed p) with ⟨e | a, q⟩
  all_goals rw [hrun] at h hbody
  · exact absurd (exhausted_rescue seed q) h
  · show (q.names.length : Int) ≤ _
    simp only [openSeed] at hbody
    omega

-- A body that more names would change has that recorded.
theorem afterSeed_allowing (hn : c.settings.maxNamesPerWalk ≤ n) (seed : Seed) (p : Progress) :
    CountLimited seed.label (afterSeed c seed p) ∨
      afterSeed (c.allowing n) seed p = afterSeed c seed p := by
  have hsame := (capped_seedWalk hn seed p).same
  rw [afterSeed_eq, afterSeed_eq]
  rcases hsame with hcut | hsame
  · left
    rcases hrun : (seedWalk c seed).run.run (openSeed seed p) with ⟨e | a, q⟩
    all_goals rw [hrun] at hcut
    · exact hcut.mono (growing_rescue seed q).state.limits
    · exact hcut
  · right
    rw [hsame]
    rfl

-- How a run stops: behind the first body with which there are too many names, or behind all of them.
structure StopsAt (c : Scope) (p : Progress) (walked rest : List Seed) (out : Progress) : Prop where
  names : out.names = (afterSeeds c walked p).names
  limits : (afterSeeds c walked p).limits <+: out.limits
  few : ∀ first last, walked = first ++ last → first ≠ [] → last ≠ [] →
    ((afterSeeds c first p).names.length : Int) ≤ c.settings.maxNames
  stopped : rest ≠ [] → c.settings.maxNames < out.names.length ∧
    ∃ seed, walked.getLast? = some seed ∧ CountLimited seed.label out

theorem stopsAt_walkSeeds (l : List Seed) (p : Progress) :
    ∃ walked rest, l = walked ++ rest ∧ StopsAt c p walked rest ((walkSeeds c l).run p).2 := by
  induction l generalizing p with
  | nil =>
      refine ⟨[], [], rfl, rfl, List.prefix_rfl, fun first last h hfirst => ?_, fun h => ?_⟩
      · exact absurd (List.append_eq_nil_iff.mp h.symm).1 hfirst
      · exact absurd rfl h
  | cons seed l ih =>
      rw [walkSeeds_cons]
      split
      next hmany =>
        obtain ⟨recorded, hmem, hrecorded⟩ := limited_limit .nameCount
          s!"more than {c.settings.maxNames} names collected" (afterSeed c seed p)
        rw [label_afterSeed] at hrecorded
        have hnames := names_limit .nameCount s!"more than {c.settings.maxNames} names collected"
          (afterSeed c seed p)
        refine ⟨[seed], l, rfl, hnames, (inBody_limit c _ _ _).limits,
          fun first last h hfirst hlast => ?_, fun _ => ⟨?_, seed, rfl, recorded, hmem, hrecorded⟩⟩
        · obtain ⟨rfl, -⟩ | ⟨-, rfl⟩ := List.append_eq_singleton_iff.mp h.symm
          · exact absurd rfl hfirst
          · exact absurd rfl hlast
        · exact hnames ▸ hmany
      next hfew =>
        obtain ⟨walked, rest, rfl, hstops⟩ := ih (afterSeed c seed p)
        refine ⟨seed :: walked, rest, rfl, hstops.names, hstops.limits, ?_, fun hrest => ?_⟩
        · intro first last h hfirst hlast
          cases first with
          | nil => exact absurd rfl hfirst
          | cons other first =>
              obtain ⟨rfl, hsplit⟩ := List.cons.inj h
              cases first with
              | nil => exact Int.not_lt.mp hfew
              | cons next first => exact hstops.few _ last hsplit (List.cons_ne_nil _ _) hlast
        · obtain ⟨hmany, last, hlast, hlimited⟩ := hstops.stopped hrest
          exact ⟨hmany, last, by rw [List.getLast?_cons, hlast]; rfl, hlimited⟩

end Bodies

section Runs

variable {c : Scope} {p : Progress}

def noProgress : Progress := ⟨[], [], "", 0, [], []⟩

-- Nothing is done but to record that there are too many names.
structure LeftOut (x : Walk Unit) (p : Progress) : Prop where
  returns : (x.run.run p).1 = .ok ()
  names : (x.run.run p).2.names = p.names
  visited : (x.run.run p).2.visited = p.visited
  limited : CountLimited p.label (x.run.run p).2

theorem leftOut_of_run {x : Walk Unit} (detail : String)
    (h : x.run.run p = (limit .nameCount detail).run.run p) : LeftOut x p := by
  refine ⟨by rw [h]; rfl, ?_, ?_, ?_⟩
  · rw [h, names_limit]
  · rw [h, visited_limit]
  · rw [h]
    exact limited_limit .nameCount detail p

-- Without room, a value is left out wherever it is met.
theorem leftOut_walk (h : ¬HasRoom c p) {depth : Nat} (hdepth : depth ≤ c.settings.maxDepth)
    (allowance : Nat) (isSeed : Bool) (v : Value) :
    LeftOut (walk c (allowance + 1) depth isSeed v) p := by
  have hrefused : (mayEnter c depth).run.run p =
      (do limit .nameCount (namesDetail c); return false : Walk Bool).run.run p := by
    unfold mayEnter
    dsimp only
    rw [if_neg (Int.not_lt.mpr hdepth)]
    exact run_full h
  refine leftOut_of_run (namesDetail c) ?_
  unfold walk
  rw [run_bind, hrefused]
  rfl

theorem leftOut_walkProperties (h : ¬HasRoom c p) {count : Nat}
    (hcount : count < c.settings.maxProperties) (walk : Value → Walk Unit) (v : Value)
    (rest : List Value) : LeftOut (walkProperties c walk (v :: rest) count) p := by
  refine leftOut_of_run (namesDetail c) ?_
  unfold walkProperties
  rw [if_neg (Int.not_le.mpr hcount)]
  exact run_full h

-- A body, walked behind others in a run with the outcome `out`.
structure BodyCeiling (c : Scope) (seed : Seed) (p out : Progress) : Prop where
  names : ¬Exhausted out → ((afterSeed c seed p).names.length : Int) ≤
    p.names.length + max 0 (c.settings.maxNamesPerWalk + 1)
  -- Either the bound was recorded for the body, or a higher one changes nothing in it.
  skipped : ∀ n, c.settings.maxNamesPerWalk ≤ n → CountLimited seed.label (afterSeed c seed p) ∨
    afterSeed (c.allowing n) seed p = afterSeed c seed p
  limits : (afterSeed c seed p).limits <+: out.limits

structure Ceilings (c : Scope) (walked rest : List Seed) (out : Progress) : Prop where
  names : out.names = (afterSeeds c walked noProgress).names
  body : ∀ first seed last, walked = first ++ seed :: last →
    BodyCeiling c seed (afterSeeds c first noProgress) out
  total : ¬Exhausted out → (out.names.length : Int) ≤
    max 0 c.settings.maxNames + max 0 (c.settings.maxNamesPerWalk + 1)
  stopped : rest ≠ [] → c.settings.maxNames < out.names.length ∧
    ∃ seed, walked.getLast? = some seed ∧ CountLimited seed.label out

theorem grows_afterSeeds (l : List Seed) (p : Progress) : Grows p (afterSeeds c l p) := by
  induction l generalizing p with
  | nil => exact .refl p
  | cons seed l ih => exact (grows_walkSeed seed p).trans (ih _)

theorem afterSeeds_append (l l' : List Seed) (p : Progress) :
    afterSeeds c (l ++ l') p = afterSeeds c l' (afterSeeds c l p) := List.foldl_append

theorem StopsAt.body {walked rest : List Seed} {out : Progress}
    (h : StopsAt c noProgress walked rest out) {first last : List Seed} {seed : Seed}
    (hsplit : walked = first ++ seed :: last) :
    BodyCeiling c seed (afterSeeds c first noProgress) out := by
  have hwalked : afterSeeds c walked noProgress =
      afterSeeds c last (afterSeed c seed (afterSeeds c first noProgress)) := by
    rw [hsplit, afterSeeds_append]
    rfl
  have hlast : Grows (afterSeed c seed (afterSeeds c first noProgress))
      (afterSeeds c walked noProgress) := hwalked ▸ grows_afterSeeds last _
  have hlimits := hlast.limits.trans h.limits
  exact ⟨fun hstack => names_afterSeed fun hbody => hstack (hbody.mono hlimits),
    fun n hn => afterSeed_allowing hn seed _, hlimits⟩

-- Only the last body can take the run over the bound, from at most as many names as allowed.
theorem StopsAt.total {walked rest : List Seed} {out : Progress}
    (h : StopsAt c noProgress walked rest out) (hstack : ¬Exhausted out) : (out.names.length : Int) ≤
      max 0 c.settings.maxNames + max 0 (c.settings.maxNamesPerWalk + 1) := by
  rcases List.eq_nil_or_concat walked with rfl | ⟨first, seed, rfl⟩
  · rw [h.names]
    show ((0 : Nat) : Int) ≤ _
    omega
  · have hsplit : first.concat seed = first ++ seed :: [] := List.concat_eq_append ..
    have hlast := (h.body hsplit).names hstack
    have hout : out.names = (afterSeed c seed (afterSeeds c first noProgress)).names := by
      rw [h.names, List.concat_eq_append, afterSeeds_append]
      rfl
    have hfew : ((afterSeeds c first noProgress).names.length : Int) ≤ max 0 c.settings.maxNames := by
      cases first with
      | nil => exact Int.le_max_left 0 _
      | cons other first =>
          have hfew := h.few (other :: first) [seed] (List.concat_eq_append ..)
            (List.cons_ne_nil _ _) (List.cons_ne_nil _ _)
          exact Int.le_trans hfew (Int.le_max_right _ _)
    rw [hout]
    omega

-- How the bounds on names hold in a run. A body that is walked has at most one name more than allowed,
-- and what it leaves out for the bound is recorded; so it is when bodies are left out. Wherever there is
-- no room, a value and the next property are left out, whether another walk would find a name there or
-- not.
theorem names_within_ceilings (s : Store) (settings : ReachabilitySettings) (document : NodeId) :
    (∃ walked rest, seeds s document = walked ++ rest ∧
      Ceilings (scopeOf s settings document) walked rest (collect s settings document)) ∧
    ∀ p, ¬HasRoom (scopeOf s settings document) p →
      (∀ allowance (depth : Nat) isSeed v, depth ≤ settings.maxDepth →
        LeftOut (walk (scopeOf s settings document) (allowance + 1) depth isSeed v) p) ∧
      ∀ walk v rest (count : Nat), count < settings.maxProperties →
        LeftOut (walkProperties (scopeOf s settings document) walk (v :: rest) count) p := by
  constructor
  · obtain ⟨walked, rest, hseeds, hstops⟩ :=
      stopsAt_walkSeeds (c := scopeOf s settings document) (seeds s document) noProgress
    exact ⟨walked, rest, hseeds, hstops.names, fun _ _ _ => hstops.body, hstops.total, hstops.stopped⟩
  · intro p hfull
    exact ⟨fun allowance depth isSeed v hdepth => leftOut_walk hfull hdepth allowance isSeed v,
      fun walk v rest count hcount => leftOut_walkProperties hfull hcount walk v rest⟩

-- Two paths, the first one with three components in its body and the second one with another.
def fourNames : Store :=
  ⟨#[
    .ofFields [("components", .node 1), ("paths", .node 3)],
    .ofFields [("schemas", .node 2)],
    .ofFields [("A", .node 4), ("B", .node 4), ("C", .node 4), ("D", .node 4)],
    .ofFields [("/a", .node 5), ("/b", .node 11)],
    .ofFields [("type", .str "string")],
    .ofFields [("get", .node 6)],
    .ofFields [("responses", .node 7)],
    .ofFields [("200", .node 8)],
    .ofFields [("content", .node 9)],
    .ofFields [("application/json", .node 10)],
    .ofFields [("schema", .node 17)],
    .ofFields [("get", .node 12)],
    .ofFields [("responses", .node 13)],
    .ofFields [("200", .node 14)],
    .ofFields [("content", .node 15)],
    .ofFields [("application/json", .node 16)],
    .ofFields [("schema", .node 22)],
    .ofFields [("properties", .node 18)],
    .ofFields [("a", .node 19), ("b", .node 20), ("c", .node 21)],
    .ofFields [("$ref", .str "#/components/schemas/A")],
    .ofFields [("$ref", .str "#/components/schemas/B")],
    .ofFields [("$ref", .str "#/components/schemas/C")],
    .ofFields [("$ref", .str "#/components/schemas/D")]]⟩

-- One name is allowed in a body, and one in all.
def oneName : ReachabilitySettings := { maxNamesPerWalk := 1, maxNames := 1 }

-- The first body is left with two names, and the second one is not walked.
theorem fourNames_within_ceilings :
    ((collect fourNames oneName 0).names.length : Int) ≤ max 0 1 + max 0 (1 + 1) ∧
      (collect fourNames oneName 0).names.contains (.str "D") = false ∧
      ∃ seed ∈ seeds fourNames 0, CountLimited seed.label (collect fourNames oneName 0) := by
  obtain ⟨⟨walked, rest, hseeds, hceilings⟩, -⟩ := names_within_ceilings fourNames oneName 0
  have hstack : ¬Exhausted (collect fourNames oneName 0) := by
    have hall : (collect fourNames oneName 0).limits.all (fun l => l.kind != .stack) = true := by
      decide +kernel
    rintro ⟨l, hmem, hkind⟩
    simpa [hkind] using List.all_eq_true.mp hall l hmem
  have hlost : (collect fourNames oneName 0).names.contains (.str "D") = false := by decide +kernel
  have hall : (afterSeeds (scopeOf fourNames oneName 0) (seeds fourNames 0) noProgress).names.contains
      (.str "D") = true := by decide +kernel
  have hrest : rest ≠ [] := by
    rintro rfl
    rw [List.append_nil] at hseeds
    rw [hseeds, ← hceilings.names, hlost] at hall
    cases hall
  obtain ⟨-, seed, hlast, hlimited⟩ := hceilings.stopped hrest
  refine ⟨hceilings.total hstack, hlost, seed, ?_, hlimited⟩
  rw [hseeds]
  exact List.mem_append_left _ (List.mem_of_getLast? hlast)

end Runs

end ApiGraph.Reachability
