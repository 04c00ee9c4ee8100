import ApiGraph.Proofs.Document.Reading
import ApiGraph.Resolver

namespace ApiGraph.Resolve

open Store Reference

def isExternalRef (m : Entries) : Bool := m.ref?.any isExternal

section Entries

variable {m : Entries} {k : Key} {j : NodeId}

theorem isExternalRef_iff : isExternalRef m ↔ ∃ ref, m.ref? = some ref ∧ isExternal ref = true := by
  unfold isExternalRef
  cases m.ref? <;> simp

theorem isExternalRef_congr {m' : Entries}
    (h : m'.get? (.str refKey) = m.get? (.str refKey)) : isExternalRef m' = isExternalRef m := by
  simp only [isExternalRef, Entries.ref?, Entries.text?, Entries.field?, h]

theorem ref?_eq_none (h : m.get? (.str refKey) = none) : m.ref? = none := by
  simp [Entries.ref?, Entries.text?, Entries.field?, h]

theorem isExternalRef_of_ref?_eq_none (h : m.ref? = none) : isExternalRef m = false := by
  simp [isExternalRef, h]

theorem not_isExternalRef (h : m.ref? = none) : ¬isExternalRef m :=
  Bool.eq_false_iff.mp (isExternalRef_of_ref?_eq_none h)

-- A reference is text, so no container stands in its place.
theorem get?_refKey_ne_node (h : isExternalRef m) : m.get? (.str refKey) ≠ some (.node j) := by
  intro hk
  simp [isExternalRef, Entries.ref?, Entries.text?, Entries.field?, hk, Value.string?] at h

theorem text?_insert_node {key : String} :
    Entries.text? (m.insert k (.node j)) key = if k == .str key then none else m.text? key := by
  simp only [Entries.text?, Entries.field?, OrderedMap.get?_insert]
  split
  · rfl
  · rfl

theorem ref?_insert_node :
    Entries.ref? (m.insert k (.node j)) = if k == .str refKey then none else m.ref? :=
  text?_insert_node

theorem isExternalRef_insert_node :
    isExternalRef (m.insert k (.node j)) = true ↔
      (k == .str refKey) = false ∧ isExternalRef m = true := by
  unfold isExternalRef
  rw [ref?_insert_node]
  cases k == .str refKey <;> simp

theorem node_of_get?_insert {k' : Key} {i : NodeId}
    (h : (m.insert k (.node j)).get? k' = some (.node i)) : i = j ∨ m.get? k' = some (.node i) := by
  rw [OrderedMap.get?_insert] at h
  split at h
  · exact .inl (Value.node.inj (Option.some.inj h)).symm
  · exact .inr h

end Entries

section Marked

variable {m : Entries} {name : Option String} {k : Key} {j : NodeId}

-- What is written for the component that an inlined schema is a copy of.
def copyNote (name : Option String) (k : Key) : Option Value :=
  (name.filter fun _ => .str resolvedRefKey == k).map fun n => .str (schemaPointer ++ n)

theorem copyNote_eq_none (hk : (k == .str resolvedRefKey) = false) : copyNote name k = none := by
  cases name with
  | none => rfl
  | some n => simp [copyNote, Option.filter, BEq.comm, hk]

theorem copyNote_some (n : String) (k : Key) :
    copyNote (some n) k = if .str resolvedRefKey == k then some (.str (schemaPointer ++ n)) else none := by
  cases hk : Key.str resolvedRefKey == k <;> simp [copyNote, Option.filter, hk]

theorem copyNote_resolvedRefKey (name : Option String) :
    copyNote name (.str resolvedRefKey) = name.map fun n => .str (schemaPointer ++ n) := by
  cases name with
  | none => rfl
  | some n => rw [copyNote_some, if_pos BEq.rfl, Option.map_some]

theorem copyNote_ne_node : copyNote name k ≠ some (.node j) := by
  intro h
  obtain ⟨n, -, hn⟩ := Option.map_eq_some_iff.mp h
  cases hn

theorem get?_markedContent_circularRefKey (name : Option String) :
    (markedContent m name).get? (.str circularRefKey) = some (.scalar (.bool true)) := by
  unfold markedContent
  cases name with
  | none => simp [OrderedMap.get?_insert]
  | some n => simp [OrderedMap.get?_insertNew, OrderedMap.get?_insert]

-- Every other key keeps its value, and the note stands where nothing stood.
theorem get?_markedContent (hk : (k == .str circularRefKey) = false) :
    (markedContent m name).get? k = (m.get? k).or (copyNote name k) := by
  have hfirst : (m.insert (.str circularRefKey) (.scalar (.bool true))).get? k = m.get? k := by
    rw [OrderedMap.get?_insert, BEq.comm, hk]
    rfl
  unfold markedContent
  cases name with
  | none =>
      rw [hfirst]
      exact Option.or_none.symm
  | some n =>
      dsimp only
      rw [OrderedMap.get?_insertNew, hfirst, copyNote_some]

-- Nodes stand where they stood, up to the mark.
theorem get?_markedContent_node :
    (markedContent m name).get? k = some (.node j) ↔
      m.get? k = some (.node j) ∧ (.str circularRefKey == k) = false := by
  cases hk : Key.str circularRefKey == k with
  | true =>
      rw [← OrderedMap.get?_congr hk, get?_markedContent_circularRefKey]
      simp
  | false =>
      rw [get?_markedContent (BEq.comm.trans hk), Option.or_eq_some_iff]
      simp [copyNote_ne_node]

theorem get?_markedContent_refKey (name : Option String) :
    (markedContent m name).get? (.str refKey) = m.get? (.str refKey) := by
  rw [get?_markedContent (by decide), copyNote_eq_none (by decide), Option.or_none]

theorem get?_markedContent_of_some {v : Value} (hk : (k == .str circularRefKey) = false)
    (h : m.get? k = some v) : (markedContent m name).get? k = some v := by
  rw [get?_markedContent hk, h, Option.some_or]

end Marked

section Inlined

variable {content m : Entries} {name : Option String} {k : Key}

theorem get?_erase_refKey_of_ne (hk : (k == .str refKey) = false) :
    (m.erase (.str refKey)).get? k = m.get? k := by
  rw [OrderedMap.get?_erase, if_neg]
  rw [BEq.comm, hk]
  simp

theorem get?_erase_refKey (hk : (k == .str refKey) = true) :
    (m.erase (.str refKey)).get? k = none := by
  rw [OrderedMap.get?_erase, if_pos]
  rw [BEq.comm, hk]

theorem get?_of_get?_erase_refKey {v : Value} (h : (m.erase (.str refKey)).get? k = some v) :
    m.get? k = some v := by
  cases hk : k == Key.str refKey with
  | true =>
      rw [get?_erase_refKey hk] at h
      cases h
  | false => rwa [get?_erase_refKey_of_ne hk] at h

-- A container in the mapping of a reference stands beside the reference.
theorem mem_own_of_get? (h : isExternalRef m) (hk : m.get? k = some (.node j)) :
    .node j ∈ (m.erase (.str refKey)).values := by
  refine OrderedMap.mem_values_iff.mpr ⟨k, ?_⟩
  rw [get?_erase_refKey_of_ne, hk]
  exact Bool.eq_false_iff.mpr fun hkey =>
    get?_refKey_ne_node h ((OrderedMap.get?_congr hkey).symm.trans hk)

-- What stands beside a reference stands in its mapping.
theorem mem_children_of_mem_own {s : Store} {id : NodeId} {v : Value} (hm : s.mapping? id = some m)
    (hv : v ∈ (m.erase (.str refKey)).values) : v ∈ s.children id := by
  obtain ⟨k, hk⟩ := OrderedMap.mem_values_iff.mp hv
  exact (mem_children_iff hm).mpr ⟨k, get?_of_get?_erase_refKey hk⟩

theorem get?_inlinedContent :
    (inlinedContent content (m.erase (.str refKey)) name).get? k =
      ((m.erase (.str refKey)).get? k).or
        ((copyNote name k).or ((content.erase (.str refKey)).get? k)) := by
  unfold inlinedContent
  dsimp only
  rw [OrderedMap.get?_insertAll]
  cases name with
  | none => rfl
  | some n =>
      dsimp only
      rw [OrderedMap.get?_insert, copyNote_some]
      split
      · rfl
      · rfl

theorem ref?_inlinedContent :
    Entries.ref? (inlinedContent content (m.erase (.str refKey)) name) = none := by
  refine ref?_eq_none ?_
  rw [get?_inlinedContent, get?_erase_refKey BEq.rfl, get?_erase_refKey BEq.rfl,
    copyNote_eq_none (by decide)]
  rfl

-- A node in the new content was in the mapping, or it is in the target.
theorem node_of_get?_inlinedContent {j : NodeId}
    (h : (inlinedContent content (m.erase (.str refKey)) name).get? k = some (.node j)) :
    (m.erase (.str refKey)).get? k = some (.node j) ∨ content.get? k = some (.node j) := by
  rw [get?_inlinedContent, Option.or_eq_some_iff, Option.or_eq_some_iff] at h
  rcases h with hown | ⟨-, hnote | ⟨-, htaken⟩⟩
  · exact .inl hown
  · exact absurd hnote copyNote_ne_node
  · exact .inr (get?_of_get?_erase_refKey htaken)

theorem get?_inlinedContent_of_some {v : Value} (hk : (k == .str refKey) = false)
    (h : m.get? k = some v) :
    (inlinedContent content (m.erase (.str refKey)) name).get? k = some v := by
  rw [get?_inlinedContent, get?_erase_refKey_of_ne hk, h]
  rfl

end Inlined

section Keeps

-- What becomes of a value under a key other than the reference's.
def Stays (s s' : Store) (k : Key) (v : Value) (v' : Option Value) : Prop :=
  v' = some v ∨ ((k == .str circularRefKey) = true ∧ v' = some (.scalar (.bool true))) ∨
    ∃ j : Nat, (s.nodes.size ≤ j ∧ j < s'.nodes.size) ∧ v' = some (.node j) ∧
      ((k == .str circularRefKey) = true ∨ s.asMapping? v = none)

-- The reference of a mapping is taken out of it or stays as it is. Other values stay, but for marks
-- and for sections that are made.
structure Keeps (s s' : Store) : Prop extends s.Grows s' where
  reference : ∀ id m m', s.mapping? id = some m → s'.mapping? id = some m' → isExternalRef m' →
    m'.get? (.str refKey) = m.get? (.str refKey)
  value : ∀ id m m' k v, s.mapping? id = some m → s'.mapping? id = some m' →
    (k == .str refKey) = false → m.get? k = some v → Stays s s' k v (m'.get? k)

variable {s s' s'' : Store} {id : NodeId} {m m' : Entries} {k : Key} {v : Value}

theorem Stays.mono {w : Option Value} (h : Stays s s' k v w) (hs : s'.nodes.size ≤ s''.nodes.size) :
    Stays s s'' k v w := by
  rcases h with h | h | ⟨j, hj, hw, hold⟩
  · exact .inl h
  · exact .inr (.inl h)
  · exact .inr (.inr ⟨j, ⟨hj.1, Nat.lt_of_lt_of_le hj.2 hs⟩, hw, hold⟩)

theorem asMapping?_of_grows (h : s.Grows s') (hv : s'.asMapping? v = none) :
    s.asMapping? v = none := by
  cases v with
  | node j =>
      cases hm : s.mapping? j with
      | none => simp [Store.asMapping?, hm]
      | some m =>
          have := h.mapping j (by simp [hm])
          simp only [Store.asMapping?, Option.map_eq_none_iff] at hv
          rw [hv] at this
          cases this
  | scalar _ => rfl
  | pair _ _ => rfl

theorem Keeps.refl (s : Store) : Keeps s s where
  toGrows := .refl s
  reference id m m' hm hm' _ := by
    obtain rfl : m = m' := Option.some.inj (hm.symm.trans hm')
    rfl
  value id m m' k v hm hm' _ hk := by
    obtain rfl : m = m' := Option.some.inj (hm.symm.trans hm')
    exact .inl hk

theorem Keeps.trans (h : Keeps s s') (h' : Keeps s' s'') : Keeps s s'' where
  toGrows := h.toGrows.trans h'.toGrows
  reference id m m'' hm hm'' hext := by
    obtain ⟨m', hm'⟩ := h.exists_mapping? hm
    have hsame := h'.reference id m' m'' hm' hm'' hext
    exact hsame.trans (h.reference id m m' hm hm' (isExternalRef_congr hsame ▸ hext))
  value id m m'' k v hm hm'' hk hv := by
    obtain ⟨m', hm'⟩ := h.exists_mapping? hm
    have hfirst := h.value id m m' k v hm hm' hk hv
    have hsecond {w : Value} (hw : m'.get? k = some w) := h'.value id m' m'' k w hm' hm'' hk hw
    have hsize := h.size
    have hsize' := h'.size
    rcases hfirst with hv' | ⟨hcirc, hv'⟩ | ⟨j, hj, hv', hold⟩
    · rcases hsecond hv' with hw | hw | ⟨i, hi, hw, hold⟩
      · exact .inl hw
      · exact .inr (.inl hw)
      · exact .inr (.inr ⟨i, ⟨Nat.le_trans hsize hi.1, hi.2⟩, hw,
          hold.imp_right (asMapping?_of_grows h.toGrows)⟩)
    · rcases hsecond hv' with hw | hw | ⟨i, hi, hw, -⟩
      · exact .inr (.inl ⟨hcirc, hw⟩)
      · exact .inr (.inl hw)
      · exact .inr (.inr ⟨i, ⟨Nat.le_trans hsize hi.1, hi.2⟩, hw, .inl hcirc⟩)
    · rcases hsecond hv' with hw | hw | ⟨i, hi, hw, -⟩
      · exact .inr (.inr ⟨j, ⟨hj.1, Nat.lt_of_lt_of_le hj.2 hsize'⟩, hw, hold⟩)
      · exact .inr (.inl hw)
      · exact .inr (.inr ⟨i, ⟨Nat.le_trans hsize hi.1, hi.2⟩, hw, hold⟩)

-- New content is put into a mapping, next to new containers.
theorem keeps_set (he : s.Extends s') (hm : s.mapping? id = some m)
    (href : isExternalRef m' → m'.get? (.str refKey) = m.get? (.str refKey))
    (hvalue : ∀ k v, (k == .str refKey) = false → m.get? k = some v →
      Stays s s' k v (m'.get? k)) :
    Keeps s (s'.set id (.mapping m')) := by
  have hold {id : Nat} (hid : id < s.nodes.size) : s'.mapping? id = s.mapping? id := by
    unfold mapping?
    rw [he.old id hid]
  have hid := lt_size_of_mapping? hm
  have hself : (s'.set id (.mapping m')).mapping? id = some m' :=
    mapping?_set_self ((hold hid).trans hm)
  have hother {i : NodeId} {n n' : Entries} (hi : id ≠ i) (hn : s.mapping? i = some n)
      (hn' : (s'.set id (.mapping m')).mapping? i = some n') : n = n' := by
    rw [mapping?_set_of_ne hi, hold (lt_size_of_mapping? hn), hn] at hn'
    exact Option.some.inj hn'
  constructor
  · exact he.grows.trans (grows_set m' ((hold hid).trans hm))
  · intro i n n' hn hn' hext
    by_cases hi : id = i
    · subst hi
      obtain rfl : m = n := Option.some.inj (hm.symm.trans hn)
      obtain rfl : m' = n' := Option.some.inj (hself.symm.trans hn')
      exact href hext
    · rw [hother hi hn hn']
  · intro i n n' k v hn hn' hk hv
    by_cases hi : id = i
    · subst hi
      obtain rfl : m = n := Option.some.inj (hm.symm.trans hn)
      obtain rfl : m' = n' := Option.some.inj (hself.symm.trans hn')
      exact (hvalue k v hk hv).mono (Nat.le_of_eq (size_set s' id _).symm)
    · rw [← hother hi hn hn']
      exact .inl hv

theorem keeps_of_extends (he : s.Extends s') : Keeps s s' := by
  have hold {i : NodeId} {n n' : Entries} (hn : s.mapping? i = some n)
      (hn' : s'.mapping? i = some n') : n = n' := by
    have hget := mapping?_eq_some.mp hn
    rw [← he.old i (lt_size_of_get? hget), mapping?_eq_some.mp hn'] at hget
    cases hget
    rfl
  refine ⟨he.grows, fun i n n' hn hn' _ => ?_, fun i n n' k v hn hn' _ hv => ?_⟩
  · rw [hold hn hn']
  · rw [← hold hn hn']
    exact .inl hv

-- A node is put under a key that is free, or is no mapping and makes room for a new one.
theorem keeps_put {j : Nat} (he : s.Extends s') (hm : s.mapping? id = some m)
    (hfree : ∀ v, m.get? k = some v →
      s.asMapping? v = none ∧ s.nodes.size ≤ j ∧ j < s'.nodes.size) :
    Keeps s (s'.put id k (.node j)) := by
  have hm' : s'.mapping? id = some m := by
    unfold mapping?
    rw [he.old id (lt_size_of_mapping? hm)]
    exact hm
  rw [put_of_mapping? hm']
  refine keeps_set he hm (fun hext => ?_) fun k' v _ hv => ?_
  · cases hk : k == .str refKey with
    | true => exact absurd hext (not_isExternalRef (ref?_insert_node.trans (if_pos hk)))
    | false => simp [OrderedMap.get?_insert, hk]
  · rw [OrderedMap.get?_insert]
    cases hk : k == k' with
    | true =>
        obtain ⟨hnone, hj⟩ := hfree v ((OrderedMap.get?_congr hk).trans hv)
        exact .inr (.inr ⟨j, hj, rfl, .inr hnone⟩)
    | false => exact .inl hv

theorem keeps_mark (hm : s.mapping? id = some m) (name : Option String) :
    Keeps s (s.set id (.mapping (markedContent m name))) := by
  refine keeps_set (.refl s) hm (fun _ => ?_) fun k v _ hv => ?_
  · exact get?_markedContent_refKey name
  · cases hk : k == .str circularRefKey with
    | true =>
        refine .inr (.inl ⟨hk, ?_⟩)
        rw [OrderedMap.get?_congr hk]
        exact get?_markedContent_circularRefKey name
    | false => exact .inl (get?_markedContent_of_some hk hv)

theorem keeps_inline (hm : s.mapping? id = some m) (content : Entries) (name : Option String) :
    Keeps s (s.set id (.mapping (inlinedContent content (m.erase (.str refKey)) name))) := by
  refine keeps_set (.refl s) hm (fun hext => ?_) fun k v hk hv => ?_
  · exact absurd hext (not_isExternalRef ref?_inlinedContent)
  · exact .inl (get?_inlinedContent_of_some hk hv)

end Keeps

end ApiGraph.Resolve
