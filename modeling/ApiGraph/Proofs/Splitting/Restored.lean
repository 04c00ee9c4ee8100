import ApiGraph.Proofs.Splitting.Moving

namespace ApiGraph.Splitting

open Store Resolve Reference

section Note

variable {m m' : Entries} {n : String} {L : Value → Value → Prop}

theorem entries_withNote (h : m.has resolvedRefKey = false) :
    (withNote n m).entries = m.entries ++ [(.str resolvedRefKey, .str (schemaPointer ++ n))] := by
  rw [Entries.has, OrderedMap.contains_eq_isSome_get?, Option.isSome_eq_false_iff,
    Option.isNone_iff_eq_none] at h
  exact OrderedMap.entries_insert_of_get?_eq_none _ h

theorem keys_withNote (h : m.has resolvedRefKey = false) :
    (withNote n m).keys = m.keys ++ [.str resolvedRefKey] := by
  unfold OrderedMap.keys
  rw [entries_withNote h, List.map_append]
  rfl

theorem values_withNote (h : m.has resolvedRefKey = false) :
    (withNote n m).values = m.values ++ [.str (schemaPointer ++ n)] := by
  unfold OrderedMap.values
  rw [entries_withNote h, List.map_append]
  rfl

end Note

section Restored

variable {s : Store} {q : Request} {names : List String} {n : String} {id : NodeId} {r : Run}
  {p : Path} {v : Value}

-- A chosen schema stands at one place, three levels down.
theorem Splits.length_place (hs : Splits s q names) (hc : chosen? s q.document names id = some n)
    (hp : s.at? (.node q.document) p = some (.node id)) : p.length = 3 := by
  obtain ⟨i, j, k, hplace⟩ := exists_place (of_chosen? hc).2
  rw [hs.aliasFree p [i, j, k] id hp hplace]
  rfl

theorem Splits.unnoted (hs : Splits s q names) (hc : chosen? s q.document names id = some n) {m : Entries}
    (hm : s.mapping? id = some m) : m.has resolvedRefKey = false :=
  (hs.unmarked id m (reach_of_componentIn? (of_chosen? hc).2) hm).1

-- Every schema came back from its file.
structure Restored (s : Store) (q : Request) (names : List String) (r : Run) : Prop where
  laid : Laid s q names r
  returned : ∀ id n, chosen? s q.document names id = some n → Returned s q r.store r.loaded n id

theorem Restored.exists_content (hs : Splits s q names) (h : Restored s q names r)
    (hc : chosen? s q.document names id = some n) : ∃ key x m mx, Filed s q r.store r.loaded n key x ∧
      s.mapping? id = some m ∧ r.store.mapping? x = some mx ∧ Alike (SameContent s r.store) m mx ∧
      m.has resolvedRefKey = false ∧ r.store.mapping? id = some (withNote n mx) := by
  obtain ⟨key, x, hfiled, hid⟩ := h.returned id n hc
  obtain ⟨body, m, mx, hbody, -, hmx, hcontent⟩ := hfiled.exists_content hs (of_chosen? hc).1
  obtain rfl := Option.some.inj (hbody.component.symm.trans (of_chosen? hc).2)
  rw [entries_of_mapping? hmx] at hid
  exact ⟨key, x, m, mx, hfiled, hbody.mapping, hmx, hcontent.alike, hs.unnoted hc hbody.mapping, hid⟩

-- What stands at the place is the same container, the copy of one in a schema, or a scalar.
inductive Corresponds (s t : Store) (document : NodeId) : Value → Value → Prop
  | same {v : Value} {p : Path} (hp : s.at? (.node document) p = some v) : Corresponds s t document v v
  | inside {v v' : Value} {p : Path} (hp : s.at? (.node document) p = some v) (hlong : 3 < p.length)
      (hsame : SameContent s t v v') : Corresponds s t document v v'
  | scalar (x : Scalar) : Corresponds s t document (.scalar x) (.scalar x)

theorem at?_of_mem_parts {w : Value} (hp : s.at? v p = some w) {u : Value} (hu : u ∈ s.parts w) :
    ∃ i : Nat, s.at? v (p ++ [i]) = some u := by
  obtain ⟨i, hi, hget⟩ := List.getElem_of_mem hu
  refine ⟨i, ?_⟩
  rw [at?_concat, hp, Option.bind_some, List.getElem?_eq_getElem hi, hget]

theorem parts_congr {s t : Store} (h : ∀ i, v = .node i → t.get? i = s.get? i) : t.parts v = s.parts v := by
  cases v with
  | scalar x => rfl
  | pair a b => rfl
  | node i => simp only [parts, children, h i rfl]

-- A container that is not chosen is in the description with notes as it was.
theorem noted_of_free (hfree : ∀ i, v = .node i → chosen? s q.document names i = none) :
    (noted s q.document names).shape v = s.shape v ∧ (noted s q.document names).parts v = s.parts v :=
  ⟨shape_congr fun i hi => get?_withBodies_of_none (hfree i hi),
    parts_congr fun i hi => get?_withBodies_of_none (hfree i hi)⟩

-- The restored description says what the description with notes says.
theorem Restored.sameContent (hs : Splits s q names) (h : Restored s q names r) :
    SameContent (noted s q.document names) r.store (.node q.document) (.node q.document) := by
  refine sameContent_of_simulation (B := Corresponds s r.store q.document) (fun v v' hv => ?_)
    (.same (p := []) rfl)
  cases hv with
  | scalar x => exact ⟨rfl, .nil⟩
  | @inside v v' p hp hlong hsame =>
      have hfree : ∀ i, v = .node i → chosen? s q.document names i = none := by
        rintro i rfl
        cases hc : chosen? s q.document names i with
        | none => rfl
        | some n => exact absurd (hs.length_place hc hp) (Nat.ne_of_gt hlong)
      rw [(noted_of_free hfree).1, (noted_of_free hfree).2]
      refine ⟨hsame.shape, ?_⟩
      refine (forall₂_mem hsame.parts).imp fun w w' hww' => ?_
      obtain ⟨hw, hcontent⟩ := hww'
      obtain ⟨i, hi⟩ := at?_of_mem_parts hp hw
      exact .inside hi (by rw [List.length_append]; exact Nat.lt_add_right _ hlong) hcontent
  | @same v p hp =>
      have hchild {w : Value} (hw : w ∈ s.parts v) : Corresponds s r.store q.document w w := by
        obtain ⟨i, hi⟩ := at?_of_mem_parts hp hw
        exact .same hi
      rcases chosen?_cases (s := s) v with hfree | ⟨i, n, rfl, hc⟩
      · have hget (i : NodeId) (hi : v = .node i) : r.store.get? i = s.get? i := by
          subst hi
          exact h.laid.layout.preserved i (hs.closed i ⟨p, hp⟩) (hfree i rfl)
        rw [(noted_of_free hfree).1, (noted_of_free hfree).2, shape_congr hget, parts_congr hget]
        exact ⟨rfl, List.forall₂_same.mpr fun w => hchild⟩
      · obtain ⟨key, x, m, mx, -, hm, hmx, halike, hplain, hid⟩ := h.exists_content hs hc
        have hplain' : mx.has resolvedRefKey = false := by rw [← halike.has, hplain]
        have hnoted : (noted s q.document names).mapping? i = some (withNote n m) :=
          mapping?_withBodies hc hm
        simp only [shape, parts, mapping?_eq_some.mp hnoted, mapping?_eq_some.mp hid,
          children_of_mapping? hnoted, children_of_mapping? hid, keys_withNote hplain, keys_withNote hplain',
          values_withNote hplain, values_withNote hplain', halike.1, true_and]
        refine List.rel_append ((forall₂_mem halike.2).imp fun w w' hww' => ?_)
          (.cons (.scalar _) .nil)
        obtain ⟨hw, hcontent⟩ := hww'
        rw [← children_of_mapping? hm] at hw
        obtain ⟨k, hk⟩ := at?_of_mem_parts hp hw
        refine .inside hk ?_ hcontent
        rw [List.length_append, hs.length_place hc hp]
        exact Nat.lt_succ_self 3

-- What stands at a place stood there before, or it stands in a file, or it is a scalar.
inductive Origin (s : Store) (q : Request) (names : List String) (r : Run) (p : Path) (v : Value) : Prop
  | given (hp : s.at? (.node q.document) p = some v)
  | file {p₀ p₁ : Path} {body x : NodeId} {n key : String} (heq : p = p₀ ++ p₁)
      (hp₀ : s.at? (.node q.document) p₀ = some (.node body))
      (hc : chosen? s q.document names body = some n) (hfiled : Filed s q r.store r.loaded n key x)
      (hp₁ : r.store.at? (.node x) p₁ = some v) (hinside : p₁ ≠ [])
  | scalar (x : Scalar) (hv : v = .scalar x)

theorem Restored.origin (hs : Splits s q names) (h : Restored s q names r)
    (hp : r.store.at? (.node q.document) p = some v) : Origin s q names r p v := by
  induction p using List.reverseRecOn generalizing v with
  | nil => exact .given hp
  | append_singleton p i ih =>
      rw [at?_concat] at hp
      obtain ⟨w, hw, hi⟩ := Option.bind_eq_some_iff.mp hp
      cases ih hw with
      | scalar x hx =>
          subst hx
          cases hi
      | @file p₀ p₁ body x n key heq hp₀ hc hfiled hp₁ hinside =>
          have hlonger : p ++ [i] = p₀ ++ (p₁ ++ [i]) := by rw [heq, List.append_assoc]
          refine .file hlonger hp₀ hc hfiled ?_ (by simp)
          rw [at?_concat, hp₁]
          exact hi
      | given hp =>
          rcases chosen?_cases (s := s) w with hfree | ⟨j, n, rfl, hc⟩
          · have hget (i : NodeId) (hi : w = .node i) : r.store.get? i = s.get? i := by
              subst hi
              exact h.laid.layout.preserved i (hs.closed i ⟨p, hp⟩) (hfree i rfl)
            rw [parts_congr hget] at hi
            refine .given ?_
            rw [at?_concat, hp]
            exact hi
          · obtain ⟨key, x, m, mx, hfiled, hm, hmx, halike, hplain, hid⟩ := h.exists_content hs hc
            have hplain' : mx.has resolvedRefKey = false := by rw [← halike.has, hplain]
            simp only [parts, children_of_mapping? hid, values_withNote hplain'] at hi
            rcases Nat.lt_or_ge i mx.values.length with hlt | hge
            · rw [List.getElem?_append_left hlt] at hi
              have hone : p ++ [i] = p ++ [i] := rfl
              refine .file hone hp hc hfiled ?_ (by simp)
              rw [at?_cons, parts, children_of_mapping? hmx, hi]
              rfl
            · rw [List.getElem?_append_right hge] at hi
              have hin := List.mem_of_getElem? hi
              exact .scalar _ (List.mem_singleton.mp hin)

-- No container stands in two places.
theorem Restored.aliasFree (hs : Splits s q names) (h : Restored s q names r) :
    r.store.AliasFree q.document := by
  -- What is in a file is not in the description.
  have apart {p : Path} {y x : NodeId} {n key : String} {p₁ : Path}
      (hp : s.at? (.node q.document) p = some (.node y)) (hn : n ∈ names)
      (hfiled : Filed s q r.store r.loaded n key x) (hy : r.store.at? (.node x) p₁ = some (.node y)) :
      False :=
    absurd (hs.closed y ⟨p, hp⟩) (Nat.not_lt.mpr (hfiled.range hs hn ⟨p₁, hy⟩).1)
  intro p p' y hp hp'
  cases h.origin hs hp with
  | scalar _ hx => cases hx
  | given hgiven =>
      cases h.origin hs hp' with
      | scalar _ hx => cases hx
      | given hgiven' => exact hs.aliasFree p p' y hgiven hgiven'
      | file _ _ hc hfiled hy => exact (apart hgiven (of_chosen? hc).1 hfiled hy).elim
  | @file p₀ p₁ body x n key heq hp₀ hc hfiled hy =>
      have hn := (of_chosen? hc).1
      cases h.origin hs hp' with
      | scalar _ hx => cases hx
      | given hgiven' => exact (apart hgiven' hn hfiled hy).elim
      | @file p₀' p₁' body' x' n' key' heq' hp₀' hc' hfiled' hy' =>
          have hn' := (of_chosen? hc').1
          obtain rfl := h.laid.layout.apart key key' x x' y hfiled.found hfiled'.found (hfiled.ne_document hs hn)
            (hfiled'.ne_document hs hn') ⟨p₁, hy⟩ ⟨p₁', hy'⟩
          obtain rfl := Option.some.inj (hfiled.found.symm.trans hfiled'.found)
          obtain rfl := fileKey?_inj (hs.words n hn) (hs.words n' hn') hfiled.keyed hfiled'.keyed
          obtain rfl := Option.some.inj ((of_chosen? hc).2.symm.trans (of_chosen? hc').2)
          obtain rfl := hs.aliasFree p₀ p₀' body hp₀ hp₀'
          obtain rfl := (hfiled.copy body (of_chosen? hc).2).aliasFree p₁ p₁' y hy hy'
          rw [heq, heq']

end Restored

end ApiGraph.Splitting
