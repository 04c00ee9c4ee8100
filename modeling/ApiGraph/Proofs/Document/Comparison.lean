import ApiGraph.Proofs.Document.Equality

namespace ApiGraph

namespace OrderedMap

variable {κ ν : Type} [BEq κ] [EquivBEq κ] {m m' : OrderedMap κ ν} {k : κ}

-- Distinct keys that are all found in another list are not more than there are in it.
theorem length_le_of_covered {l l' : List (κ × ν)} (hd : (l.map Prod.fst).Pairwise fun a b => (a == b) = false)
    (h : ∀ e ∈ l, ∃ e' ∈ l', (e'.1 == e.1) = true) : l.length ≤ l'.length := by
  induction l generalizing l' with
  | nil => exact Nat.zero_le _
  | cons e rest ih =>
      rw [List.map_cons, List.pairwise_cons] at hd
      have hrest : ∀ a ∈ rest, ∃ e' ∈ l'.filter fun x => !(x.1 == e.1), (e'.1 == a.1) = true := by
        intro a ha
        obtain ⟨e', he', hkey⟩ := h a (List.mem_cons_of_mem _ ha)
        refine ⟨e', List.mem_filter.mpr ⟨he', ?_⟩, hkey⟩
        rw [Bool.not_eq_true', Bool.eq_false_iff]
        intro hsame
        have hne := hd.1 a.1 (List.mem_map_of_mem ha)
        rw [BEq.trans (BEq.symm hsame) hkey] at hne
        cases hne
      obtain ⟨e', he', hkey⟩ := h e List.mem_cons_self
      have hlt : (l'.filter fun x => !(x.1 == e.1)).length < l'.length :=
        List.length_filter_lt_length_iff_exists.mpr ⟨e', he', by simp [hkey]⟩
      exact Nat.lt_of_le_of_lt (ih hd.2 hrest) hlt

-- As many keys, all of which are found, are all that there are.
theorem contains_of_size_eq (hsize : m.size = m'.size) (h : ∀ e ∈ m.entries, m'.contains e.1 = true)
    (hk : m'.contains k = true) : m.contains k = true := by
  by_contra hnot
  obtain ⟨e, he, hkey⟩ := List.any_eq_true.mp hk
  have hnone : ∀ a ∈ m.entries, (e.1 == a.1) = false := by
    intro a ha
    rw [Bool.eq_false_iff]
    exact fun hsame => hnot (List.any_eq_true.mpr ⟨a, ha, BEq.trans (BEq.symm hsame) hkey⟩)
  have hle : (e :: m.entries).length ≤ m'.entries.length := by
    refine length_le_of_covered ?_ fun a ha => ?_
    · rw [List.map_cons, List.pairwise_cons]
      refine ⟨fun b hb => ?_, m.distinct⟩
      obtain ⟨a, ha, rfl⟩ := List.mem_map.mp hb
      exact hnone a ha
    · rcases List.mem_cons.mp ha with rfl | ha
      · exact ⟨a, he, BEq.rfl⟩
      · exact List.any_eq_true.mp (h a ha)
  have hsize' : m.entries.length = m'.entries.length := hsize
  rw [List.length_cons] at hle
  omega

-- The same is found under every key if it is found for every entry and there are no more entries.
theorem rel_get?_iff {R : ν → ν → Prop} :
    (m.size = m'.size ∧ ∀ e ∈ m.entries, ∃ w, m'.get? e.1 = some w ∧ R e.2 w) ↔
      ∀ k, Option.Rel R (m.get? k) (m'.get? k) := by
  constructor
  · rintro ⟨hsize, h⟩ k
    cases hk : m.get? k with
    | some v =>
        obtain ⟨e, hfind, rfl⟩ := Option.map_eq_some_iff.mp hk
        have he := List.mem_of_find?_eq_some hfind
        have hkey : (e.1 == k) = true := List.find?_some (p := fun e : κ × ν => e.1 == k) hfind
        obtain ⟨w, hw, hR⟩ := h e he
        rw [get?_congr hkey] at hw
        rw [hw]
        exact .some hR
    | none =>
        cases hk' : m'.get? k with
        | none => exact .none
        | some w =>
            have hcontains : m.contains k = true := by
              refine contains_of_size_eq hsize (fun e he => ?_) (by rw [contains_eq_isSome_get?, hk']; rfl)
              obtain ⟨w, hw, -⟩ := h e he
              rw [contains_eq_isSome_get?, hw]
              rfl
            rw [contains_eq_isSome_get?, hk] at hcontains
            cases hcontains
  · intro h
    have hfind {m m' : OrderedMap κ ν} (h : ∀ k, (m.get? k).isSome = true → (m'.get? k).isSome = true) :
        m.size ≤ m'.size := by
      refine length_le_of_covered m.distinct fun e he => List.any_eq_true.mp ?_
      show m'.contains e.1 = true
      rw [contains_eq_isSome_get?]
      exact h e.1 (by rw [get?_of_mem he]; rfl)
    refine ⟨Nat.le_antisymm (hfind fun k hk => ?_) (hfind fun k hk => ?_), fun e he => ?_⟩
    · exact (Store.isSome_eq_of_rel (h k)).symm.trans hk
    · exact (Store.isSome_eq_of_rel (h k)).trans hk
    · have hrel := h e.1
      rw [get?_of_mem (show (e.1, e.2) ∈ m.entries from he)] at hrel
      generalize m'.get? e.1 = o at hrel ⊢
      cases hrel with
      | some hR => exact ⟨_, rfl, hR⟩

end OrderedMap

namespace Store

section Same

variable {s s' : Store} {i j : NodeId} {v w : Value} {m m' : Entries} {l l' : List Value}

-- One allowance is enough for finitely many comparisons.
theorem exists_allowance {l : List (Value × Option Value)} :
    (∀ e ∈ l, ∃ u, e.2 = some u ∧ s.Same e.1 u) ↔
      ∃ n, ∀ e ∈ l, ∃ u, e.2 = some u ∧ s.equal n e.1 u = .ok true := by
  constructor
  · intro h
    induction l with
    | nil => exact ⟨0, by simp⟩
    | cons e rest ih =>
        obtain ⟨n, hn⟩ := ih fun a ha => h a (List.mem_cons_of_mem _ ha)
        obtain ⟨u, hu, k, hk⟩ := h e List.mem_cons_self
        refine ⟨max n k, List.forall_mem_cons.mpr ⟨⟨u, hu, equal_mono hk (Nat.le_max_right n k)⟩, fun a ha => ?_⟩⟩
        obtain ⟨w, hw, hequal⟩ := hn a ha
        exact ⟨w, hw, equal_mono hequal (Nat.le_max_left n k)⟩
  · rintro ⟨n, h⟩ e he
    obtain ⟨u, hu, hequal⟩ := h e he
    exact ⟨u, hu, n, hequal⟩

theorem same_iff : s.Same v w ↔
    ∃ l, s.toCompare v w = some l ∧ ∀ e ∈ l, ∃ u, e.2 = some u ∧ s.Same e.1 u := by
  constructor
  · rintro ⟨n, h⟩
    cases n with
    | zero => cases h
    | succ n =>
        obtain ⟨l, hl, hall⟩ := equal_true_iff.mp h
        exact ⟨l, hl, exists_allowance.mpr ⟨n, hall⟩⟩
  · rintro ⟨l, hl, hall⟩
    obtain ⟨n, hn⟩ := exists_allowance.mp hall
    exact ⟨n + 1, equal_true_iff.mpr ⟨l, hl, hn⟩⟩

theorem rel_same_refl (s : Store) : ∀ o : Option Value, Option.Rel s.Same o o
  | none => .none
  | some v => .some (.refl s v)

theorem forall₂_same_refl (s : Store) (l : List Value) : List.Forall₂ s.Same l l :=
  List.forall₂_same.mpr fun v _ => .refl s v

-- The same is found in both mappings.
theorem same_mapping_iff (hm : s.mapping? i = some m) (hm' : s.mapping? j = some m') :
    s.Same (.node i) (.node j) ↔ ∀ k, Option.Rel s.Same (m.get? k) (m'.get? k) := by
  by_cases hij : i = j
  · subst hij
    obtain rfl := Option.some.inj (hm.symm.trans hm')
    exact iff_of_true (.refl s _) fun k => rel_same_refl s _
  rw [← OrderedMap.rel_get?_iff, same_iff, toCompare_node hij, mapping?_eq_some.mp hm,
    mapping?_eq_some.mp hm', counterparts]
  constructor
  · rintro ⟨l, hl, hall⟩
    obtain ⟨hsize, hl⟩ := Option.ite_none_left_eq_some.mp hl
    cases hl
    exact ⟨not_not.mp hsize, fun e he => hall _ (List.mem_map_of_mem he)⟩
  · rintro ⟨hsize, hall⟩
    exact ⟨_, if_neg (not_not.mpr hsize), List.forall_mem_map.mpr hall⟩

theorem same_sequence_iff (hl : s.sequence? i = some l) (hl' : s.sequence? j = some l') :
    s.Same (.node i) (.node j) ↔ List.Forall₂ s.Same l l' := by
  by_cases hij : i = j
  · subst hij
    obtain rfl := Option.some.inj (hl.symm.trans hl')
    exact iff_of_true (.refl s _) (forall₂_same_refl s l)
  rw [same_iff, toCompare_node hij, sequence?_eq_some.mp hl, sequence?_eq_some.mp hl', counterparts]
  constructor
  · rintro ⟨k, hk, hall⟩
    obtain ⟨hlength, hk⟩ := Option.ite_none_left_eq_some.mp hk
    cases hk
    refine List.forall₂_iff_zip.mpr ⟨not_not.mp hlength, fun hmem => ?_⟩
    obtain ⟨u, hu, hsame⟩ := hall _ (List.mem_map_of_mem hmem)
    cases hu
    exact hsame
  · intro h
    obtain ⟨hlength, hall⟩ := List.forall₂_iff_zip.mp h
    refine ⟨_, if_neg (not_not.mpr hlength), List.forall_mem_map.mpr fun e he => ⟨e.2, rfl, hall he⟩⟩

theorem same_congr (hs : s.Closed) (h : s.Retains s') (hv : v.within s.nodes.size = true)
    (hw : w.within s.nodes.size = true) : s'.Same v w ↔ s.Same v w :=
  exists_congr fun _ => by rw [equal_congr hs h hv hw]

end Same

end Store

end ApiGraph
