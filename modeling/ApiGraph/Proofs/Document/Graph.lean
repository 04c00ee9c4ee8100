import ApiGraph.Document.Access

namespace ApiGraph

-- The values that stand directly in a container.
def Container.children : Container → List Value
  | .mapping m => m.values
  | .sequence l => l
  | .set _ => []

-- A mapping with text keys, in the given order.
def Container.ofFields (fields : List (String × Value)) : Container :=
  .mapping (.ofList (fields.map fun e => (.str e.1, e.2)))

namespace Store

def children (s : Store) (id : NodeId) : List Value :=
  ((s.get? id).map Container.children).getD []

inductive Reach (s : Store) (a : NodeId) : NodeId → Prop
  | refl : Reach s a a
  | step {b c : NodeId} (h : Reach s a b) (hc : .node c ∈ s.children b) : Reach s a c

-- Containers name only containers of the store.
def WellFormed (s : Store) : Prop :=
  ∀ id (j : Nat), .node j ∈ s.children id → j < s.nodes.size

-- The value names nothing, or a container that `s'` has and `s` has not.
def IsNew (s s' : Store) (v : Value) : Prop :=
  ∀ j : Nat, v = .node j → s.nodes.size ≤ j ∧ j < s'.nodes.size

-- The same containers and new ones, which name only new ones.
structure Extends (s s' : Store) : Prop where
  size : s.nodes.size ≤ s'.nodes.size
  old : ∀ id < s.nodes.size, s'.get? id = s.get? id
  new : ∀ id, s.nodes.size ≤ id → ∀ v ∈ s'.children id, IsNew s s' v

variable {s s' s₀ : Store} {id : Nat} {c : Container} {v : Value}

theorem get?_eq_none (h : s.nodes.size ≤ id) : s.get? id = none := by
  simp [get?, h]

theorem lt_size_of_get? (h : s.get? id = some c) : id < s.nodes.size := by
  rw [get?, Array.getElem?_eq_some_iff] at h
  exact h.choose

theorem children_of_get? (h : s.get? id = some c) : s.children id = c.children := by
  simp [children, h]

theorem lt_size_of_mem_children (h : v ∈ s.children id) : id < s.nodes.size := by
  cases hc : s.get? id with
  | none => simp [children, hc] at h
  | some c => exact lt_size_of_get? hc

theorem mapping?_eq_some {m : Entries} :
    s.mapping? id = some m ↔ s.get? id = some (.mapping m) := by
  unfold mapping?
  split
  next h => simp [h]
  next h =>
    simp only [reduceCtorEq, false_iff]
    exact h m

theorem asMapping?_eq_some {id : NodeId} {m : Entries} :
    s.asMapping? v = some (id, m) ↔ v = .node id ∧ s.mapping? id = some m := by
  cases v with
  | node i =>
      simp only [Store.asMapping?, Option.map_eq_some_iff, Prod.mk.injEq, Value.node.injEq]
      constructor
      · rintro ⟨m', h, rfl, rfl⟩
        exact ⟨rfl, h⟩
      · rintro ⟨rfl, h⟩
        exact ⟨m, h, rfl, rfl⟩
  | scalar _ => simp [Store.asMapping?]
  | pair _ _ => simp [Store.asMapping?]

theorem entries_of_mapping? {m : Entries} (h : s.mapping? id = some m) : s.entries id = m := by
  simp [entries, h]

theorem isTruthy_of_mapping? {m : Entries} (h : s.mapping? id = some m) :
    s.isTruthy (.node id) = !m.isEmpty := by
  simp only [isTruthy, mapping?_eq_some.mp h]

theorem fieldMapping?_eq_some {child : NodeId} {key : String} {m : Entries} :
    s.fieldMapping? id key = some (child, m) ↔
      (s.entries id).get? (.str key) = some (.node child) ∧ s.mapping? child = some m := by
  show ((s.entries id).get? (.str key)).bind s.asMapping? = some (child, m) ↔ _
  rw [Option.bind_eq_some_iff]
  constructor
  · rintro ⟨v, hv, hm⟩
    obtain ⟨hnode, hm⟩ := asMapping?_eq_some.mp hm
    exact ⟨hnode ▸ hv, hm⟩
  · rintro ⟨hv, hm⟩
    exact ⟨_, hv, asMapping?_eq_some.mpr ⟨rfl, hm⟩⟩

-- What stands in the place of a mapping that is not found is none.
theorem asMapping?_of_fieldMapping?_eq_none {key : String} (hf : s.fieldMapping? id key = none)
    (hv : (s.entries id).get? (.str key) = some v) : s.asMapping? v = none := by
  have hbind : ((s.entries id).get? (.str key)).bind s.asMapping? = none := hf
  rwa [hv] at hbind

theorem asMapping?_node_eq_none {j : NodeId} :
    s.asMapping? (.node j) = none ↔ s.mapping? j = none := Option.map_eq_none_iff

theorem mapping?_of_fieldMapping? {child : NodeId} {key : String} {mc : Entries}
    (h : s.fieldMapping? id key = some (child, mc)) :
    ∃ m, s.mapping? id = some m ∧ m.get? (.str key) = some (.node child) := by
  have hk := (fieldMapping?_eq_some.mp h).1
  cases hm : s.mapping? id with
  | none => simp [entries, hm, OrderedMap.empty, OrderedMap.get?] at hk
  | some m =>
      rw [entries_of_mapping? hm] at hk
      exact ⟨m, rfl, hk⟩

theorem components?_eq_some {document : NodeId} {kind : String} {m : Entries} :
    s.components? document kind = some (id, m) ↔
      ∃ p mp, s.fieldMapping? document "components" = some (p, mp) ∧
        s.fieldMapping? p kind = some (id, m) := by
  unfold components?
  simp only [Option.bind_eq_bind, Option.bind_eq_some_iff, Prod.exists]

theorem mapping?_of_components? {document : NodeId} {kind : String} {m : Entries}
    (h : s.components? document kind = some (id, m)) : s.mapping? id = some m := by
  obtain ⟨p, mp, -, hid⟩ := components?_eq_some.mp h
  exact (fieldMapping?_eq_some.mp hid).2

theorem Reach.trans {a b d : NodeId} (h : Reach s a b) (h' : Reach s b d) : Reach s a d := by
  induction h' with
  | refl => exact h
  | step _ hc ih => exact .step ih hc

-- Nothing else can be reached from a container that holds nothing.
theorem Reach.eq_of_children {a b : NodeId} (h : Reach s a b) (ha : s.children a = []) : b = a := by
  induction h with
  | refl => rfl
  | step _ hc ih =>
      rw [ih, ha] at hc
      cases hc

theorem IsNew.mono {s'' : Store} (h : IsNew s s' v) (hle : s'.nodes.size ≤ s''.nodes.size) :
    IsNew s s'' v := fun j hj => ⟨(h j hj).1, Nat.lt_of_lt_of_le (h j hj).2 hle⟩

theorem wellFormed_iff :
    s.WellFormed ↔ ∀ id < s.nodes.size, ∀ v ∈ s.children id, ∀ j ∈ v.node?, j < s.nodes.size := by
  constructor
  · intro h id _ v hv j hj
    cases v with
    | node i =>
        obtain rfl : i = j := Option.some.inj hj
        exact h id i hv
    | scalar _ => cases hj
    | pair _ _ => cases hj
  · exact fun h id j hj => h id (lt_size_of_mem_children hj) _ hj j rfl

instance : Decidable s.WellFormed := decidable_of_iff _ wellFormed_iff.symm

theorem isNew_scalar (x : Scalar) : IsNew s s' (.scalar x) := by
  intro j hj
  cases hj

theorem isNew_pair (a b : Value) : IsNew s s' (.pair a b) := by
  intro j hj
  cases hj

theorem Extends.refl (s : Store) : Extends s s := by
  refine ⟨Nat.le_refl _, fun _ _ => rfl, fun id hid v hv => ?_⟩
  have := lt_size_of_mem_children hv
  omega

theorem children_alloc_of_ne (h : id ≠ s.nodes.size) :
    (s.alloc c).2.children id = s.children id := by
  unfold children
  rcases Nat.lt_or_gt_of_ne h with hlt | hgt
  · rw [get?_alloc_of_lt s c hlt]
  · rw [get?_eq_none (by simp [alloc]; omega), get?_eq_none (by omega)]

theorem children_alloc_self : (s.alloc c).2.children s.nodes.size = c.children := by
  have h := get?_alloc_self s c
  rw [alloc] at h ⊢
  exact children_of_get? h

theorem size_alloc : (s.alloc c).2.nodes.size = s.nodes.size + 1 := by simp [alloc]

-- A new container may name new containers only.
theorem Extends.alloc (h : Extends s₀ s) (hc : ∀ v ∈ c.children, IsNew s₀ s v) :
    Extends s₀ (s.alloc c).2 where
  size := by
    have := h.size
    rw [size_alloc]
    omega
  old id hid := by
    have := h.size
    rw [get?_alloc_of_lt s c (by omega)]
    exact h.old id hid
  new id hid v hv := by
    have hle : s.nodes.size ≤ (s.alloc c).2.nodes.size := by rw [size_alloc]; omega
    by_cases hi : id = s.nodes.size
    · subst hi
      rw [children_alloc_self] at hv
      exact (hc v hv).mono hle
    · rw [children_alloc_of_ne hi] at hv
      exact (h.new id hid v hv).mono hle

theorem isNew_alloc (h : Extends s₀ s) : IsNew s₀ (s.alloc c).2 (.node (s.alloc c).1) := by
  intro j hj
  cases hj
  have := h.size
  rw [size_alloc]
  exact ⟨this, Nat.lt_succ_self _⟩

-- Only new containers may change.
theorem Extends.set (h : Extends s₀ s) (hid : s₀.nodes.size ≤ id)
    (hc : ∀ v ∈ c.children, IsNew s₀ s v) : Extends s₀ (s.set id c) where
  size := by
    rw [size_set]
    exact h.size
  old id' hid' := by
    rw [get?_set_of_ne s c (by omega)]
    exact h.old id' hid'
  new id' hid' v hv := by
    have hle : s.nodes.size ≤ (s.set id c).nodes.size := Nat.le_of_eq (size_set s id c).symm
    by_cases hi : id = id'
    · subst hi
      have hlt := lt_size_of_mem_children hv
      rw [size_set] at hlt
      rw [children_of_get? (get?_set_self s c hlt)] at hv
      exact (hc v hv).mono hle
    · rw [children, get?_set_of_ne s c hi] at hv
      exact (h.new id' hid' v hv).mono hle

section Changes

-- A mapping stays a mapping; other containers stay as they are.
structure Grows (s s' : Store) : Prop where
  size : s.nodes.size ≤ s'.nodes.size
  mapping : ∀ id, (s.mapping? id).isSome → (s'.mapping? id).isSome
  other : ∀ id c, s.get? id = some c → s.mapping? id = none → s'.get? id = some c

theorem Grows.refl (s : Store) : Grows s s := ⟨Nat.le_refl _, fun _ => id, fun _ _ h _ => h⟩

theorem Grows.trans {s'' : Store} (h : Grows s s') (h' : Grows s' s'') : Grows s s'' where
  size := Nat.le_trans h.size h'.size
  mapping id hm := h'.mapping id (h.mapping id hm)
  other id c hc hm := by
    have hc' := h.other id c hc hm
    refine h'.other id c hc' ?_
    unfold mapping? at hm ⊢
    rw [hc] at hm
    rw [hc']
    exact hm

theorem Grows.exists_mapping? (h : Grows s s') {m : Entries} (hm : s.mapping? id = some m) :
    ∃ m', s'.mapping? id = some m' :=
  Option.isSome_iff_exists.mp (h.mapping id (Option.isSome_of_eq_some hm))

theorem Grows.isSome_mapping? (h : Grows s s') (hid : id < s.nodes.size)
    (hm : (s'.mapping? id).isSome) : (s.mapping? id).isSome := by
  cases hold : s.mapping? id with
  | some _ => rfl
  | none =>
      have hget : s.get? id = some s.nodes[id] := by rw [get?, Array.getElem?_eq_getElem hid]
      have hnew := h.other id _ hget hold
      have hnone : s'.mapping? id = none := by
        unfold mapping? at hold ⊢
        rwa [hnew, ← hget]
      rw [hnone] at hm
      cases hm

-- A container that is no mapping counts as much as before.
theorem Grows.isTruthy (h : Grows s s') (hm : s.mapping? id = none)
    (htruthy : s.isTruthy (.node id) = true) : s'.isTruthy (.node id) = true := by
  cases hget : s.get? id with
  | none => simp [Store.isTruthy, hget] at htruthy
  | some container =>
      simp only [Store.isTruthy, hget] at htruthy
      simpa only [Store.isTruthy, h.other id container hget hm] using htruthy

theorem Extends.grows (h : Extends s s') : Grows s s' where
  size := h.size
  mapping id hm := by
    obtain ⟨m, hm⟩ := Option.isSome_iff_exists.mp hm
    have hget := mapping?_eq_some.mp hm
    rw [← h.old id (lt_size_of_get? hget)] at hget
    rw [mapping?_eq_some.mpr hget]
    rfl
  other id c hc _ := (h.old id (lt_size_of_get? hc)).trans hc

theorem grows_alloc (s : Store) (c : Container) : Grows s (s.alloc c).2 where
  size := by
    rw [size_alloc]
    exact Nat.le_succ _
  mapping id hm := by
    obtain ⟨m, hm⟩ := Option.isSome_iff_exists.mp hm
    have hget := mapping?_eq_some.mp hm
    rw [← get?_alloc_of_lt s c (lt_size_of_get? hget)] at hget
    rw [mapping?_eq_some.mpr hget]
    rfl
  other id c' hc _ := by
    rw [get?_alloc_of_lt s c (lt_size_of_get? hc)]
    exact hc

theorem lt_size_of_mapping? {m : Entries} (h : s.mapping? id = some m) : id < s.nodes.size :=
  lt_size_of_get? (mapping?_eq_some.mp h)

theorem mapping?_alloc_of_lt (h : id < s.nodes.size) :
    (s.alloc c).2.mapping? id = s.mapping? id := by
  unfold mapping?
  rw [get?_alloc_of_lt s c h]

theorem mapping?_alloc_self {m : Entries} :
    (s.alloc (.mapping m)).2.mapping? s.nodes.size = some m :=
  mapping?_eq_some.mpr (get?_alloc_self s (.mapping m))

theorem mapping?_set_self {m m' : Entries} (h : s.mapping? id = some m) :
    (s.set id (.mapping m')).mapping? id = some m' :=
  mapping?_eq_some.mpr (get?_set_self s _ (lt_size_of_mapping? h))

theorem mapping?_set_of_ne {m' : Entries} {id' : Nat} (h : id ≠ id') :
    (s.set id (.mapping m')).mapping? id' = s.mapping? id' := by
  unfold mapping?
  rw [get?_set_of_ne s _ h]

theorem grows_set {m : Entries} (m' : Entries) (h : s.mapping? id = some m) :
    Grows s (s.set id (.mapping m')) where
  size := Nat.le_of_eq (size_set s id _).symm
  mapping id' hm := by
    by_cases hi : id = id'
    · subst hi
      simp [mapping?_set_self h]
    · rwa [mapping?_set_of_ne hi]
  other id' c hc hm := by
    have hi : id ≠ id' := by
      rintro rfl
      rw [h] at hm
      cases hm
    rw [get?_set_of_ne s _ hi]
    exact hc

theorem set_set {c' : Container} : (s.set id c).set id c' = s.set id c' := by
  simp [set]

theorem set_comm {c' : Container} {id' : Nat} (h : id ≠ id') :
    (s.set id c).set id' c' = (s.set id' c').set id c := by
  simp [set, Array.setIfInBounds_comm _ _ h]

theorem set_alloc_self {c' : Container} : (s.alloc c).2.set s.nodes.size c' = (s.alloc c').2 := by
  simp only [set, alloc, Store.mk.injEq]
  rw [Array.setIfInBounds_def, dif_pos (by simp), Array.set_push, dif_neg (Nat.lt_irrefl _)]

theorem put_of_mapping? {m : Entries} (h : s.mapping? id = some m) (k : Key) (v : Value) :
    s.put id k v = s.set id (.mapping (m.insert k v)) := by
  rw [put, entries_of_mapping? h]

-- A new mapping may get its entry before or after it is bound.
theorem put_put_alloc {m : Entries} (h : s.mapping? id = some m) (k k' : Key) (v v' : Value) :
    ((s.alloc (.mapping .empty)).2.put id k v).put s.nodes.size k' v' =
      (s.alloc (.mapping (OrderedMap.empty.insert k' v'))).2.put id k v := by
  have hlt := lt_size_of_mapping? h
  have hne : id ≠ s.nodes.size := Nat.ne_of_lt hlt
  have hm {e : Entries} : (s.alloc (.mapping e)).2.mapping? id = some m :=
    (mapping?_alloc_of_lt hlt).trans h
  rw [put_of_mapping? hm, put_of_mapping? hm,
    put_of_mapping? ((mapping?_set_of_ne hne).trans mapping?_alloc_self), set_comm hne,
    set_alloc_self]

theorem grows_put {k : Key} {v : Value} (h : (s.mapping? id).isSome) : Grows s (s.put id k v) := by
  obtain ⟨m, hm⟩ := Option.isSome_iff_exists.mp h
  rw [put_of_mapping? hm]
  exact grows_set _ hm

theorem children_of_mapping? {m : Entries} (h : s.mapping? id = some m) :
    s.children id = m.values :=
  children_of_get? (mapping?_eq_some.mp h)

theorem mem_children_iff {m : Entries} (h : s.mapping? id = some m) :
    v ∈ s.children id ↔ ∃ k, m.get? k = some v := by
  rw [children_of_mapping? h, OrderedMap.mem_values_iff]

theorem children_set_of_ne {id' : Nat} (h : id ≠ id') :
    (s.set id c).children id' = s.children id' := by
  unfold children
  rw [get?_set_of_ne s c h]

-- Nothing stands in what is neither a mapping nor a sequence.
def IsLeaf (s : Store) (id : NodeId) : Prop := s.mapping? id = none ∧ s.sequence? id = none

theorem IsLeaf.mono (h : s.IsLeaf id) (hid : id < s.nodes.size) (hg : s.Grows s') :
    s'.IsLeaf id := by
  obtain ⟨c, hc⟩ : ∃ c, s.get? id = some c := by
    refine ⟨s.nodes[id], ?_⟩
    rw [get?, Array.getElem?_eq_getElem hid]
  have hc' := hg.other id c hc h.1
  unfold IsLeaf mapping? sequence? at h ⊢
  rw [hc] at h
  rwa [hc']

theorem IsLeaf.children (h : s.IsLeaf id) : s.children id = [] := by
  obtain ⟨hmapping, hsequence⟩ := h
  unfold mapping? at hmapping
  unfold sequence? at hsequence
  unfold Store.children
  cases hc : s.get? id with
  | none => rfl
  | some c =>
      rw [hc] at hmapping hsequence
      cases c with
      | mapping m => cases hmapping
      | sequence l => cases hsequence
      | set l => rfl

theorem isLeaf_of_get?_eq_none (h : s.get? id = none) : s.IsLeaf id := by
  simp [IsLeaf, mapping?, sequence?, h]

end Changes

end Store

end ApiGraph
