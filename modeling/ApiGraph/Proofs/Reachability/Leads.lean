import ApiGraph.Proofs.Reachability.Completeness

namespace ApiGraph.Reachability

open Store

-- The parts through which a walk goes on in a schema itself. A schema with a name is left for its
-- component, unless it is the component or there is none.
def ownParts (c : Scope) (id : NodeId) (m : Entries) : List Value :=
  match referenceName? m with
  | none => coreParts c.store m
  | some name =>
      let component? := (c.registry.field? name).bind c.store.asMapping?
      if isOwnBody c.registry id m || (component?.isNone && m.ref?.isNone) then parts c.store m
      else []

-- A response body is matched with more components than other values.
inductive Leads (c : Scope) : (isSeed : Bool) → Value → Key → Prop
  | named {isSeed : Bool} {v : Value} {id : NodeId} {m : Entries} {name : String}
      (hv : c.store.asMapping? v = some (id, m)) (hn : referenceName? m = some name) :
      Leads c isSeed v (.str name)
  | matched {isSeed : Bool} {v : Value} {id : NodeId} {m : Entries} {k : Key}
      (hv : c.store.asMapping? v = some (id, m)) (hn : referenceName? m = none)
      (ha : isArray c.store m = true) (hk : c.index.find? c.store id m isSeed = some k) :
      Leads c isSeed v k
  | body {isSeed : Bool} {v w : Value} {id : NodeId} {m : Entries} {name : String} {k : Key}
      (hv : c.store.asMapping? v = some (id, m)) (hn : referenceName? m = some name)
      (hw : w ∈ dueOf c.store c.registry (.str name)) (h : Leads c false w k) : Leads c isSeed v k
  | part {isSeed : Bool} {v w : Value} {id : NodeId} {m : Entries} {k : Key}
      (hv : c.store.asMapping? v = some (id, m)) (hw : w ∈ ownParts c id m)
      (h : Leads c false w k) : Leads c isSeed v k

-- Why an array without a name counts as visited: it was walked, or it is the body of a component.
def Matched (c : Scope) (p : Progress) (id : NodeId) (m : Entries) : Prop :=
  (∃ isSeed, ∀ k, c.index.find? c.store id m isSeed = some k → p.names.contains k = true) ∨
    ∃ name, .str name ∈ p.names ∧ c.registry.field? name = some (.node id)

-- The names are among the good ones, and the arrays that were visited are matched.
structure Sound (c : Scope) (G : Key → Prop) (p : Progress) : Prop where
  names : ∀ k ∈ p.names, G k
  arrays : ∀ id ∈ p.visited, ∀ m, c.store.mapping? id = some m → referenceName? m = none →
    isArray c.store m = true → Matched c p id m

def Keeps {α : Type} (c : Scope) (G : Key → Prop) (p : Progress) (x : Walk α) : Prop :=
  Ensures x p (fun _ => Sound c G) fun _ => Sound c G

variable {c : Scope} {G : Key → Prop} {p p' : Progress}

section Steps

variable {α β : Type} {id : NodeId} {m : Entries} {k : Key}

theorem Matched.mono (h : Matched c p id m) (hn : ∀ k ∈ p.names, k ∈ p'.names) :
    Matched c p' id m := by
  rcases h with ⟨isSeed, h⟩ | ⟨name, hname, hreg⟩
  · refine .inl ⟨isSeed, fun k hk => ?_⟩
    obtain ⟨k', hk', hbeq⟩ := List.contains_iff_exists_mem_beq.mp (h k hk)
    exact List.contains_iff_exists_mem_beq.mpr ⟨k', hn k' hk', hbeq⟩
  · exact .inr ⟨name, hn _ hname, hreg⟩

theorem Sound.congr (h : Sound c G p) (hn : p'.names = p.names) (hv : p'.visited = p.visited) :
    Sound c G p' where
  names := hn ▸ h.names
  arrays id hid m hm hr ha := (h.arrays id (hv ▸ hid) m hm hr ha).mono fun _ hk => hn ▸ hk

theorem Sound.add (h : Sound c G p) (hk : G k) :
    Sound c G { p with names := p.names ++ [k] } where
  names k' hk' := by
    rcases List.mem_append.mp hk' with hold | hnew
    · exact h.names k' hold
    · exact List.mem_singleton.mp hnew ▸ hk
  arrays id hid m hm hr ha := (h.arrays id hid m hm hr ha).mono fun _ => List.mem_append_left _

theorem Sound.visit (h : Sound c G p)
    (hid : ∀ m, c.store.mapping? id = some m → referenceName? m = none →
      isArray c.store m = true → Matched c p id m) :
    Sound c G { p with visited := id :: p.visited } where
  names := h.names
  arrays id' hid' m hm hr ha := by
    rcases List.mem_cons.mp hid' with rfl | hold
    · exact (hid m hm hr ha).mono fun _ hk => hk
    · exact (h.arrays id' hold m hm hr ha).mono fun _ hk => hk

theorem Keeps.bind {x : Walk α} {f : α → Walk β} (hx : Keeps c G p x)
    (hf : ∀ a q, Sound c G q → Keeps c G q (f a)) : Keeps c G p (x >>= f) := by
  unfold Keeps
  rw [ensures_bind]
  exact Ensures.mono hx (fun a q hq => hf a q hq) fun _ _ => id

theorem keeps_pure (h : Sound c G p) (a : α) : Keeps c G p (pure a : Walk α) := ensures_pure.mpr h

theorem keeps_limit (h : Sound c G p) (kind : LimitKind) (detail : String) :
    Keeps c G p (limit kind detail) := by
  refine ensures_modify.mpr ?_
  split
  · exact h
  · exact h.congr rfl rfl

theorem keeps_passOver (h : Sound c G p) (l : List Value) : Keeps c G p (passOver l) :=
  ensures_modify.mpr (h.congr rfl rfl)

theorem keeps_add (h : Sound c G p) (hk : G k) : Keeps c G p (add k) := by
  refine ensures_add.mpr ?_
  split
  · exact h
  · exact h.add hk

theorem keeps_isFull (h : Sound c G p) : Keeps c G p (isFull c) := by
  unfold Keeps isFull
  rw [ensures_bind, ensures_get]
  exact ensures_pure.mpr h

theorem keeps_mayEnter (h : Sound c G p) (depth : Nat) : Keeps c G p (mayEnter c depth) := by
  have refuse {q : Progress} (hq : Sound c G q) (kind : LimitKind) (detail : String) :
      Keeps c G q (do limit kind detail; return false) :=
    (keeps_limit hq kind detail).bind fun _ _ hr => keeps_pure hr _
  unfold mayEnter
  dsimp only
  split
  · exact refuse h _ _
  · refine (keeps_isFull h).bind fun full q hq => ?_
    split
    · exact refuse hq _ _
    · split
      · exact refuse hq _ _
      · exact keeps_pure hq _

end Steps

theorem not_leads_null {isSeed : Bool} {k : Key} : ¬Leads c isSeed .null k := by
  intro h
  cases h with
  | named hv _ => cases hv
  | matched hv _ _ _ => cases hv
  | body hv _ _ _ => cases hv
  | part hv _ _ => cases hv

section Walk

variable {walk : Value → Walk Unit}

-- Walking a value finds only names that the value leads to.
def Follows (c : Scope) (G : Key → Prop) (walk : Value → Walk Unit) : Prop :=
  ∀ p v, (∀ k, Leads c false v k → G k) → Sound c G p → Keeps c G p (walk v)

variable (hw : Follows c G walk)
include hw

theorem keeps_forM {l : List Value} (hl : ∀ v ∈ l, ∀ k, Leads c false v k → G k)
    (h : Sound c G p) : Keeps c G p (l.forM walk) := by
  induction l generalizing p with
  | nil => exact keeps_pure h ()
  | cons v rest ih =>
      refine (hw p v (hl v List.mem_cons_self) h).bind fun _ q hq => ?_
      exact ih (fun w hw => hl w (List.mem_cons_of_mem _ hw)) hq

theorem keeps_walkBranches {m : Entries} {keywords : List String}
    (hm : ∀ v ∈ keywords.flatMap (branches c.store m), ∀ k, Leads c false v k → G k)
    (h : Sound c G p) : Keeps c G p (walkBranches c walk m keywords) := by
  induction keywords generalizing p with
  | nil => exact keeps_pure h ()
  | cons keyword rest ih =>
      rw [List.flatMap_cons] at hm
      have hrest {q : Progress} (hq : Sound c G q) : Keeps c G q (walkBranches c walk m rest) :=
        ih (fun v hv => hm v (List.mem_append_right _ hv)) hq
      have hfirst {q : Progress} (hq : Sound c G q) :
          Keeps c G q ((firstBranches c.settings.maxBranches (branches c.store m keyword)).forM walk) := by
        refine keeps_forM hw (fun v hv => hm v (List.mem_append_left _ ?_)) hq
        unfold firstBranches at hv
        split at hv
        · exact List.mem_of_mem_take hv
        · exact List.mem_of_mem_take hv
      unfold walkBranches
      dsimp only
      split
      · split
        · refine (keeps_limit h _ _).bind fun _ q hq => ?_
          exact (hfirst hq).bind fun _ _ hr => hrest hr
        · exact (hfirst h).bind fun _ _ hr => hrest hr
      · exact hrest h

theorem keeps_walkProperties {l : List Value} {count : Nat}
    (hl : ∀ v ∈ l, ∀ k, Leads c false v k → G k) (h : Sound c G p) :
    Keeps c G p (walkProperties c walk l count) := by
  induction l generalizing count p with
  | nil => exact keeps_pure h ()
  | cons v rest ih =>
      unfold walkProperties
      split
      · exact keeps_pure h ()
      · refine (keeps_isFull h).bind fun full q hq => ?_
        split
        · exact (keeps_limit hq _ _).bind fun _ _ hr => keeps_pure hr ()
        · refine (hw q v (hl v List.mem_cons_self) hq).bind fun _ r hr => ?_
          exact ih (fun w hw => hl w (List.mem_cons_of_mem _ hw)) hr

theorem keeps_walkItems {m : Entries}
    (hm : ∀ v ∈ (m.field? "items").toList, ∀ k, Leads c false v k → G k) (h : Sound c G p) :
    Keeps c G p (walkItems walk m) := by
  unfold walkItems
  split
  next items hitems => exact hw p items (hm items (by simp [hitems])) h
  next => exact keeps_pure h ()

theorem keeps_walkParts {m : Entries} (hm : ∀ v ∈ parts c.store m, ∀ k, Leads c false v k → G k)
    (h : Sound c G p) : Keeps c G p (walkParts c walk m) := by
  unfold parts at hm
  have hproperties {q : Progress} (hq : Sound c G q) : Keeps c G q (walkAllProperties c walk m) := by
    have hall := fun v hv => hm v (List.mem_append_right _ hv)
    unfold walkAllProperties
    dsimp only
    split
    · exact (keeps_limit hq _ _).bind fun _ _ hr => keeps_walkProperties hw hall hr
    · exact keeps_walkProperties hw hall hq
  unfold walkParts
  refine (keeps_walkBranches hw (fun v hv => hm v ?_) h).bind fun _ q hq => ?_
  · exact List.mem_append_left _ (List.mem_append_left _ hv)
  · refine (keeps_walkItems hw (fun v hv => hm v ?_) hq).bind fun _ r hr => hproperties hr
    exact List.mem_append_left _ (List.mem_append_right _ hv)

-- The name has been recorded before its component is walked.
theorem keeps_walkComponent (depth : Nat) {name : String} (hname : .str name ∈ p.names)
    (hbody : ∀ v ∈ dueOf c.store c.registry (.str name), ∀ k, Leads c false v k → G k)
    (h : Sound c G p) :
    Ensures (walkComponent c walk depth name) p
      (fun found p' => Sound c G p' ∧
        found = ((c.registry.field? name).bind c.store.asMapping?).isSome)
      fun _ => Sound c G := by
  have return_true {α : Type} {x : Walk α} {q : Progress} (hx : Keeps c G q x) :
      Ensures (x >>= fun _ => pure true) q (fun found p' => Sound c G p' ∧ found = true)
        fun _ => Sound c G := by
    rw [ensures_bind]
    exact Ensures.mono hx (fun _ _ hq => ensures_pure.mpr ⟨hq, rfl⟩) fun _ _ hq => hq
  unfold walkComponent
  split
  next hnone => exact ensures_pure.mpr ⟨h, by rw [hnone]; rfl⟩
  next id m hsome =>
    obtain ⟨v, hfield, hv⟩ := Option.bind_eq_some_iff.mp hsome
    obtain ⟨rfl, hm⟩ := asMapping?_eq_some.mp hv
    rw [dueOf_of_some (k := .str name) hsome] at hbody
    rw [hsome, Option.isSome_some, ensures_bind, ensures_get]
    split
    · exact return_true (keeps_passOver h _)
    · split
      · exact return_true (keeps_passOver h _)
      · split
        next ha =>
          rw [if_pos ha] at hbody
          have hvisited : Sound c G { p with visited := id :: p.visited } :=
            h.visit fun _ _ _ _ => .inr ⟨name, hname, hfield⟩
          rw [ensures_bind]
          refine ensures_modify.mpr (return_true (hw _ _ (fun k hk => ?_) hvisited))
          cases hitems : m.field? "items" with
          | none =>
              rw [hitems] at hk
              exact absurd hk not_leads_null
          | some items =>
              rw [hitems] at hbody hk
              exact hbody items (by simp) k hk
        next ha =>
          rw [if_neg ha] at hbody
          exact return_true (hw p _ (hbody _ List.mem_cons_self) h)

omit hw in
-- Only a name without a component lets the walk go on in the mapping itself.
theorem keeps_finishNamed {id : NodeId} {m : Entries} {name : String} {found : Bool}
    (hm : c.store.mapping? id = some m) (hr : referenceName? m = some name) (h : Sound c G p)
    (hfound : found = false → (c.registry.field? name).bind c.store.asMapping? = none) :
    Ensures (finishNamed id m found) p
      (fun all p' => Sound c G p' ∧ (all = false → ownParts c id m = parts c.store m))
      fun _ => Sound c G := by
  unfold finishNamed
  split
  next =>
    rw [ensures_bind]
    refine ensures_modify.mpr (ensures_pure.mpr ⟨h.visit fun m' hm' hr' _ => ?_, by simp⟩)
    obtain rfl : m = m' := Option.some.inj (hm.symm.trans hm')
    rw [hr] at hr'
    cases hr'
  next hleft =>
    obtain ⟨hf, href⟩ : found = false ∧ m.ref? = none := by simpa using hleft
    exact ensures_pure.mpr ⟨h, fun _ => by simp [ownParts, hr, hfound hf, href]⟩

theorem keeps_walkNamed (depth : Nat) {isSeed : Bool} {id : NodeId} {m : Entries} {name : String}
    (hm : c.store.mapping? id = some m) (hr : referenceName? m = some name)
    (hleads : ∀ k, Leads c isSeed (.node id) k → G k)
    (h : Sound c G p) :
    Ensures (walkNamed c walk depth id m name) p
      (fun all p' => Sound c G p' ∧ (all = false → ownParts c id m = parts c.store m))
      fun _ => Sound c G := by
  have hnode : c.store.asMapping? (.node id) = some (id, m) := asMapping?_eq_some.mpr ⟨rfl, hm⟩
  have hname : G (.str name) := hleads _ (.named hnode hr)
  unfold walkNamed
  split
  next hb =>
    rw [ensures_bind, ensures_discard]
    refine Ensures.mono (keeps_add h hname) (fun _ q hq => ensures_pure.mpr ⟨hq, fun _ => ?_⟩)
      fun _ _ hq => hq
    simp [ownParts, hr, hb]
  next hb =>
    simp only [ensures_bind, ensures_add]
    split
    next =>
      rw [if_neg (by simp), ensures_bind, ensures_pure]
      exact keeps_finishNamed hm hr h fun hfound => by cases hfound
    next =>
      rw [if_pos trivial, ensures_bind]
      refine (keeps_walkComponent hw depth (by simp) (fun v hv k hk => ?_)
        (h.add hname)).mono (fun found q hq => keeps_finishNamed hm hr hq.1 fun hf => ?_) fun _ _ hq => hq
      · exact hleads k (.body hnode hr hv hk)
      · have hsome := hq.2
        rw [hf] at hsome
        simpa using hsome.symm

theorem keeps_walkArray {isSeed : Bool} {id : NodeId} {m : Entries}
    (hm : c.store.mapping? id = some m) (hr : referenceName? m = none)
    (ha : isArray c.store m = true) (hleads : ∀ k, Leads c isSeed (.node id) k → G k)
    (h : Sound c G p) : Keeps c G p (walkArray c walk isSeed id m) := by
  have hnode : c.store.asMapping? (.node id) = some (id, m) := asMapping?_eq_some.mpr ⟨rfl, hm⟩
  have hitems : ∀ v ∈ (m.field? "items").toList, ∀ k, Leads c false v k → G k := by
    refine fun v hv k hk => hleads k (.part hnode ?_ hk)
    simpa [ownParts, hr, coreParts, ha] using hv
  have hself {q : Progress} (hq : Matched c q id m) :
      ∀ m', c.store.mapping? id = some m' → referenceName? m' = none →
        isArray c.store m' = true → Matched c q id m' := by
    intro m' hm' _ _
    exact Option.some.inj (hm.symm.trans hm') ▸ hq
  unfold walkArray Keeps
  simp only [visit, passOver, ensures_bind, ensures_modify]
  split
  next k hk =>
    -- The array is matched as soon as the name is recorded.
    have hgood : G k := hleads k (.matched hnode hr ha hk)
    simp only [ensures_bind, ensures_discard, ensures_add, ensures_modify]
    have hmatched {q : Progress} (hq : q.names.contains k = true) : Matched c q id m := by
      refine .inl ⟨isSeed, fun k' hk' => ?_⟩
      obtain rfl : k = k' := Option.some.inj (hk.symm.trans hk')
      exact hq
    split
    next hold =>
      refine keeps_walkItems hw hitems ?_
      exact (h.visit (hself (hmatched hold))).congr rfl rfl
    next =>
      refine keeps_walkItems hw hitems ?_
      have hadd := h.add hgood
      exact (hadd.visit (hself (hmatched (by simp)))).congr rfl rfl
  next hnone =>
    refine keeps_walkItems hw hitems ?_
    refine (h.visit (hself (.inl ⟨isSeed, fun k hk => ?_⟩))).congr rfl rfl
    exact (hnone k hk).elim

theorem keeps_enter (depth : Nat) {id : NodeId} {m : Entries} (hm : c.store.mapping? id = some m)
    (hparts : ∀ v ∈ parts c.store m, ∀ k, Leads c false v k → G k)
    (hother : referenceName? m = none → isArray c.store m = false) (h : Sound c G p) :
    Keeps c G p (enter c walk depth id m) := by
  unfold enter
  split
  · exact (keeps_passOver h _).bind fun _ _ hq => keeps_pure hq ()
  · unfold Keeps
    rw [ensures_bind]
    refine ensures_modify.mpr (keeps_walkParts hw hparts (h.visit fun m' hm' hname harray => ?_))
    obtain rfl : m = m' := Option.some.inj (hm.symm.trans hm')
    rw [hother hname] at harray
    cases harray

theorem keeps_walkFresh (depth : Nat) {isSeed : Bool} {id : NodeId} {m : Entries}
    (hm : c.store.mapping? id = some m) (hleads : ∀ k, Leads c isSeed (.node id) k → G k)
    (h : Sound c G p) : Keeps c G p (walkFresh c walk depth isSeed id m) := by
  have hown (hparts : ownParts c id m = parts c.store m) :
      ∀ v ∈ parts c.store m, ∀ k, Leads c false v k → G k :=
    fun v hv k hk => hleads k (.part (asMapping?_eq_some.mpr ⟨rfl, hm⟩) (hparts ▸ hv) hk)
  unfold walkFresh
  split
  next name hname =>
    unfold Keeps
    rw [ensures_bind]
    refine (keeps_walkNamed hw depth hm hname hleads h).mono (fun all r hr => ?_) fun _ _ hr => hr
    split
    next => exact ensures_pure.mpr hr.1
    next hall =>
      have hparts := hr.2 (by simpa using hall)
      refine keeps_enter hw depth hm (hown hparts) (fun hnone => ?_) hr.1
      rw [hname] at hnone
      cases hnone
  next hname =>
    split
    next ha =>
      exact (keeps_walkArray hw hm hname ha hleads h).bind fun _ _ hr => keeps_pure hr ()
    next ha =>
      have hparts : ownParts c id m = parts c.store m := by simp [ownParts, hname, coreParts, ha]
      exact keeps_enter hw depth hm (hown hparts) (fun _ => by simpa using ha) h

end Walk

theorem keeps_walk (c : Scope) (G : Key → Prop) (allowance depth : Nat) (isSeed : Bool) (v : Value)
    (p : Progress) (hv : ∀ k, Leads c isSeed v k → G k) (h : Sound c G p) :
    Keeps c G p (walk c allowance depth isSeed v) := by
  induction allowance generalizing depth isSeed v p with
  | zero => exact ensures_throw.mpr h
  | succ allowance ih =>
      have hw : Follows c G (walk c allowance (depth + 1) false) :=
        fun p v hv h => ih (depth + 1) false v p hv h
      unfold walk
      refine (keeps_mayEnter h depth).bind fun entered q hq => ?_
      split
      · exact keeps_pure hq ()
      · dsimp only
        split
        next => exact keeps_pure hq ()
        next id m hm =>
          obtain ⟨rfl, hmapping⟩ := asMapping?_eq_some.mp hm
          unfold Keeps
          rw [ensures_bind, ensures_get]
          split
          · exact (keeps_passOver hq _).bind fun _ _ ht => keeps_pure ht ()
          · exact keeps_walkFresh hw depth hmapping hv hq

end ApiGraph.Reachability
