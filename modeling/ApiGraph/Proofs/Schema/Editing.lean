import ApiGraph.Proofs.Schema.Writing

namespace ApiGraph.Composition

-- The schema that stands for it, by the choice of first branches alone.
inductive Chosen (s : Store) (document : Option NodeId) : NodeId → NodeId → Prop
  | self (n : NodeId) : Chosen s document n n
  | step {n b r : NodeId} (hkind : kindOf s n = .first b) (h : Chosen s document (followRef s document b) r) :
      Chosen s document n r

-- A new mapping with new containers for what was collected.
structure IsNewSchema (s s₁ : Store) (r : NodeId) : Prop where
  fresh : s.nodes.size ≤ r
  mapping : (s₁.mapping? r).isSome = true
  properties : ∀ v, (s₁.entries r).field? "properties" = some v →
    ∃ p, v = .node p ∧ s.nodes.size ≤ p ∧ p ≠ r ∧ (s₁.mapping? p).isSome = true
  required : ∀ v, (s₁.entries r).field? "required" = some v →
    ∃ q, v = .node q ∧ s.nodes.size ≤ q ∧ q ≠ r ∧ (s₁.sequence? q).isSome = true

-- The schema itself, its properties and its required names.
def OwnPart (s : Store) (r id : NodeId) : Prop :=
  id = r ∨ (s.entries r).field? "properties" = some (.node id) ∨
    (s.entries r).field? "required" = some (.node id)

-- The second store comes from the first one by changes to the parts of the schema.
structure Edited (s₁ s₂ : Store) (r : NodeId) : Prop where
  size : s₁.nodes.size ≤ s₂.nodes.size
  other : ∀ id < s₁.nodes.size, ¬OwnPart s₁ r id → s₂.get? id = s₁.get? id

-- Two calls end alike: in the same fault, with the same old schema or with new ones of the same content.
inductive SameAnswer (size : Nat) : Except Fault NodeId × Store → Except Fault NodeId × Store → Prop
  | failed (f : Fault) (s₁ s₂ : Store) : SameAnswer size (.error f, s₁) (.error f, s₂)
  | old {r : NodeId} (hr : r < size) (s₁ s₂ : Store) : SameAnswer size (.ok r, s₁) (.ok r, s₂)
  | new {r r' : NodeId} {s₁ s₂ : Store} (hr : size ≤ r) (hr' : size ≤ r')
      (h : Store.SameContent s₁ s₂ (.node r) (.node r')) : SameAnswer size (.ok r, s₁) (.ok r', s₂)

section Chosen

variable {s : Store} {document : Option NodeId} {maxDepth depth : Int} {allowance : Nat} {n r : NodeId}

theorem chosen_of_formAt (h : formAt s document maxDepth allowance depth n = .ok (.kept r)) :
    Chosen s document n r := by
  induction allowance generalizing depth n with
  | zero => cases h
  | succ allowance ih =>
      rw [formAt] at h
      split at h
      · cases h
        exact .self _
      split at h
      · obtain ⟨d, -, hd⟩ := map_eq_ok.mp h
        split at hd
        · cases hd
          exact .self _
        · cases hd
      · next b hkind => exact .step hkind (ih h)
      · cases h
        exact .self _

end Chosen

section Content

variable {s a b : Store} {d : Draft} {p q r p' q' r' : NodeId} {v v' : Value}

-- What stands for what in two stores with the same draft.
inductive Twin (size : Nat) (d : Draft) (p q r p' q' r' : NodeId) : Value → Value → Prop
  | old {v : Value} (hv : v.within size = true) : Twin size d p q r p' q' r' v v
  | schema : Twin size d p q r p' q' r' (.node r) (.node r')
  | properties (hc : d.slots.contains (.str "properties") = true) :
      Twin size d p q r p' q' r' (.node p) (.node p')
  | required (hc : d.slots.contains (.str "required") = true) :
      Twin size d p q r p' q' r' (.node q) (.node q')

theorem forall₂_old {l : List Value} {size : Nat} (hl : ∀ v ∈ l, v.within size = true) :
    List.Forall₂ (Twin size d p q r p' q' r') l l :=
  List.forall₂_same.mpr fun v hv => .old (hl v hv)

-- A slot holds what was there, or one of the new containers.
theorem Draft.Fit.twin {size : Nat} (hd : d.Fit size) {e : Key × Slot} (he : e ∈ d.slots.entries) :
    Twin size d p q r p' q' r' (e.2.value p q) (e.2.value p' q') := by
  obtain ⟨k, slot⟩ := e
  have hget : d.slots.get? k = some slot := OrderedMap.get?_of_mem he
  obtain ⟨key, hkey, hslot⟩ := Option.bind_eq_some_iff.mp ((hd.sound k).symm.trans hget)
  obtain rfl := Key.string?_eq_some.mp hkey
  have hcontains : d.slots.contains (.str key) = true := by
    rw [OrderedMap.contains_eq_isSome_get?, hget]
    rfl
  unfold Declared.slot? at hslot
  split at hslot
  · obtain ⟨v, hv, rfl⟩ := Option.map_eq_some_iff.mp hslot
    exact .old (hd.within.given key v hv)
  split at hslot
  · next hproperties =>
    obtain ⟨-, hslot⟩ := Option.ite_none_left_eq_some.mp hslot
    cases hslot
    exact .properties (hproperties ▸ hcontains)
  split at hslot
  · next hrequired =>
    obtain ⟨-, hslot⟩ := Option.ite_none_left_eq_some.mp hslot
    cases hslot
    exact .required (hrequired ▸ hcontains)
  · cases hslot

theorem shape_of_mapping? {m : Entries} (h : s.mapping? r = some m) :
    s.shape (.node r) = .mapping m.keys := by
  unfold Store.shape
  dsimp only
  rw [Store.mapping?_eq_some.mp h]

theorem shape_of_retains (h : s.Retains a) (hv : v.within s.nodes.size = true) : a.shape v = s.shape v :=
  Store.shape_congr fun id hid => h.old id (by subst hid; exact of_decide_eq_true hv)

theorem parts_of_retains (h : s.Retains a) (hv : v.within s.nodes.size = true) : a.parts v = s.parts v := by
  cases v with
  | scalar x => rfl
  | pair x y => rfl
  | node id =>
      unfold Store.parts Store.children
      dsimp only
      rw [h.old id (of_decide_eq_true hv)]

theorem sameContent_of_written (hs : s.Closed) (hd : d.Fit s.nodes.size) (ha : s.Retains a) (hb : s.Retains b)
    (h : d.Written s.nodes.size a p q r) (h' : d.Written s.nodes.size b p' q' r') :
    Store.SameContent a b (.node r) (.node r') := by
  refine Store.sameContent_of_simulation (B := Twin s.nodes.size d p q r p' q' r') ?_ .schema
  intro v v' hv
  cases hv with
  | old hv =>
      rw [shape_of_retains ha hv, shape_of_retains hb hv, parts_of_retains ha hv, parts_of_retains hb hv]
      exact ⟨rfl, forall₂_old fun w hw => Store.within_of_mem_parts hs hv hw⟩
  | schema =>
      refine ⟨?_, ?_⟩
      · rw [shape_of_mapping? h.mapping, shape_of_mapping? h'.mapping]
        simp [OrderedMap.keys, OrderedMap.mapValues]
      · show List.Forall₂ _ (a.children r) (b.children r')
        rw [Store.children_of_mapping? h.mapping, Store.children_of_mapping? h'.mapping]
        simp only [OrderedMap.values, OrderedMap.mapValues, List.map_map, List.forall₂_map_left_iff,
          List.forall₂_map_right_iff]
        exact List.forall₂_same.mpr fun e he => hd.twin he
  | properties hc =>
      obtain ⟨-, -, hp⟩ := h.properties hc
      obtain ⟨-, -, hp'⟩ := h'.properties hc
      refine ⟨by rw [shape_of_mapping? hp, shape_of_mapping? hp'], ?_⟩
      show List.Forall₂ _ (a.children p) (b.children p')
      rw [Store.children_of_mapping? hp, Store.children_of_mapping? hp']
      refine forall₂_old fun v hv => ?_
      obtain ⟨e, he, rfl⟩ := List.mem_map.mp hv
      exact hd.within.properties e he
  | required hc =>
      obtain ⟨-, -, hq⟩ := h.required hc
      obtain ⟨-, -, hq'⟩ := h'.required hc
      have hget := Store.sequence?_eq_some.mp hq
      have hget' := Store.sequence?_eq_some.mp hq'
      refine ⟨?_, ?_⟩
      · unfold Store.shape
        dsimp only
        rw [hget, hget']
      · show List.Forall₂ _ (a.children q) (b.children q')
        rw [Store.children_of_get? hget, Store.children_of_get? hget']
        exact forall₂_old hd.within.required

end Content

section Run

variable {s s₁ s₂ : Store} {document : Option NodeId} {settings : CompositionSettings} {depth : Int}
  {n r : NodeId} {F : Form}

-- Whatever was added since, a call answers the same.
theorem sameAnswer_of_retains (hs : s.Closed) (hdoc : ∀ d ∈ document, d < s.nodes.size)
    (hn : n < s.nodes.size) (hr : s.Retains s₁) :
    SameAnswer s.nodes.size (run s document settings depth n) (run s₁ document settings depth n) := by
  rcases run_cases hs hdoc hn (.refl s) with ⟨f, a, hrun, -, hf⟩ | ⟨r, a, F, hrun, hra, hF, hshows⟩
  · rcases run_cases hs hdoc hn hr with ⟨f', b, hrun', -, hf'⟩ | ⟨r', b, F', hrun', hrb, hF', hshows'⟩
    · rw [hrun, hrun']
      rw [hf] at hf'
      cases hf'
      exact .failed f a b
    · rw [hf] at hF'
      cases hF'
  · rcases run_cases hs hdoc hn hr with ⟨f', b, hrun', -, hf'⟩ | ⟨r', b, F', hrun', hrb, hF', hshows'⟩
    · rw [hF] at hf'
      cases hf'
    · rw [hrun, hrun']
      rw [hF] at hF'
      cases hF'
      cases hshows with
      | kept hlt =>
          cases hshows' with
          | kept => exact .old hlt a b
      | merged hd h =>
          cases hshows' with
          | merged _ h' => exact .new h.fresh h'.fresh (sameContent_of_written hs hd hra (hr.trans hrb) h h')

theorem Draft.Written.isNewSchema {d : Draft} {p q : NodeId} (hd : d.Sound)
    (h : d.Written s.nodes.size s₁ p q r) : IsNewSchema s s₁ r := by
  have hslot {key : String} {v : Value} (hv : (s₁.entries r).field? key = some v) :
      ∃ slot, d.declared.slot? key = some slot ∧ slot.value p q = v ∧ d.slots.contains (.str key) = true := by
    rw [h.field? hd] at hv
    obtain ⟨slot, hslot, hvalue⟩ := Option.map_eq_some_iff.mp hv
    exact ⟨slot, hslot, hvalue, by rw [hd.contains, hslot]; rfl⟩
  refine ⟨h.fresh, by rw [h.mapping]; rfl, fun v hv => ?_, fun v hv => ?_⟩
  · obtain ⟨slot, hslot, rfl, hcontains⟩ := hslot hv
    rw [Declared.slot?_properties] at hslot
    obtain ⟨-, heq⟩ := Option.ite_none_left_eq_some.mp hslot
    cases heq
    obtain ⟨hfresh, hne, hp⟩ := h.properties hcontains
    exact ⟨p, rfl, hfresh, hne, by rw [hp]; rfl⟩
  · obtain ⟨slot, hslot, rfl, hcontains⟩ := hslot hv
    rw [Declared.slot?_required] at hslot
    obtain ⟨-, heq⟩ := Option.ite_none_left_eq_some.mp hslot
    cases heq
    obtain ⟨hfresh, hne, hq⟩ := h.required hcontains
    exact ⟨q, rfl, hfresh, hne, by rw [hq]; rfl⟩

theorem IsNewSchema.le_of_ownPart (h : IsNewSchema s s₁ r) {id : NodeId} (hid : OwnPart s₁ r id) :
    s.nodes.size ≤ id := by
  rcases hid with rfl | hid | hid
  · exact h.fresh
  · obtain ⟨p, hp, hfresh, -⟩ := h.properties _ hid
    cases hp
    exact hfresh
  · obtain ⟨q, hq, hfresh, -⟩ := h.required _ hid
    cases hq
    exact hfresh

theorem IsNewSchema.retains (h : IsNewSchema s s₁ r) (hr : s.Retains s₁) (hedit : Edited s₁ s₂ r) :
    s.Retains s₂ where
  size := Nat.le_trans hr.size hedit.size
  old id hid := by
    rw [hedit.other id (Nat.lt_of_lt_of_le hid hr.size) fun hown =>
      absurd (h.le_of_ownPart hown) (Nat.not_le_of_lt hid), hr.old id hid]

-- A call changes no container that was there. It returns a schema that was there, chosen through first
-- branches, or a new one; whatever is done to the parts of a new one, the old containers stay as they were,
-- and every later call for an old schema answers as before.
theorem run_safe_to_edit (hs : s.Closed) (hdoc : ∀ d ∈ document, d < s.nodes.size) (hn : n < s.nodes.size) :
    (∀ id < s.nodes.size, (run s document settings depth n).2.get? id = s.get? id) ∧
    ∀ r s₁, run s document settings depth n = (.ok r, s₁) →
      r < s.nodes.size ∧ Chosen s document n r ∨
      IsNewSchema s s₁ r ∧ ∀ s₂, Edited s₁ s₂ r →
        (∀ id < s.nodes.size, s₂.get? id = s.get? id) ∧
        ∀ document' settings' depth' n', (∀ d ∈ document', d < s.nodes.size) → n' < s.nodes.size →
          SameAnswer s.nodes.size (run s document' settings' depth' n') (run s₂ document' settings' depth' n') := by
  rcases run_cases hs hdoc hn (.refl s) with ⟨f, a, hrun, hra, -⟩ | ⟨r, a, F, hrun, hra, hF, hshows⟩
  · rw [hrun]
    refine ⟨hra.old, fun r s₁ h => ?_⟩
    cases h
  · rw [hrun]
    refine ⟨hra.old, fun r' s₁ h => ?_⟩
    cases h
    cases hshows with
    | kept hlt => exact .inl ⟨hlt, chosen_of_formAt hF⟩
    | merged hd h =>
        have hnew := h.isNewSchema hd.sound
        refine .inr ⟨hnew, fun s₂ hedit => ?_⟩
        have hr₂ := hnew.retains hra hedit
        exact ⟨hr₂.old, fun document' settings' depth' n' hdoc' hn' => sameAnswer_of_retains hs hdoc' hn' hr₂⟩

end Run

-- A schema whose only branch has a property and requires it.
def oneBranch : Store :=
  ⟨#[
    .ofFields [("allOf", .node 1)],
    .sequence [.node 2],
    .ofFields [("properties", .node 3), ("required", .node 4)],
    .ofFields [("x", .node 5)],
    .sequence [.str "x"],
    .ofFields []]⟩

theorem oneBranch_safe_to_edit : ∃ r s₁, run oneBranch none {} 0 0 = (.ok r, s₁) ∧
    IsNewSchema oneBranch s₁ r ∧ ∀ s₂, Edited s₁ s₂ r →
      SameAnswer 6 (run oneBranch none {} 0 0) (run s₂ none {} 0 0) := by
  have hanswer : (run oneBranch none {} 0 0).1.toOption = some 8 := by decide
  rcases hrun : run oneBranch none {} 0 0 with ⟨f | r, s₁⟩
  · rw [hrun] at hanswer
    cases hanswer
  · rw [hrun] at hanswer
    obtain rfl := Option.some.inj hanswer
    obtain ⟨hlt, -⟩ | ⟨hnew, hlater⟩ :=
      (run_safe_to_edit (by decide) (by decide) (by decide)).2 8 s₁ hrun
    · exact absurd hlt (by decide)
    · refine ⟨8, s₁, rfl, hnew, fun s₂ hedit => ?_⟩
      rw [← hrun]
      exact (hlater s₂ hedit).2 none {} 0 0 (by decide) (by decide)

end ApiGraph.Composition
