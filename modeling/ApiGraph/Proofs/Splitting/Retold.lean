import ApiGraph.Proofs.Splitting.Restored
import ApiGraph.Proofs.Splitting.Retelling

namespace ApiGraph.Splitting

open Store Resolve Reference

-- The values stand at the same place below the sections, and they are no schema that was moved.
inductive Inner (s t : Store) (document : NodeId) (names : List String) : Value → Value → Prop
  | place {v v' : Value} {p : Path} (hp : s.at? (.node document) p = some v)
      (hp' : t.at? (.node document) p = some v') (hlong : 3 ≤ p.length)
      (hfree : ∀ i, v = .node i → chosen? s document names i = none) : Inner s t document names v v'
  | scalar (x : Scalar) : Inner s t document names (.scalar x) (.scalar x)

-- The schema was moved, and it came back into its container.
def Moved (s : Store) (document : NodeId) (names : List String) (name : String) (i j : NodeId) : Prop :=
  i = j ∧ chosen? s document names i = some name

section Places

variable {s : Store} {q : Request} {names : List String} {n : String} {id : NodeId} {r : Run}
  {p : Path} {v v' : Value}

theorem at?_noted (hs : Splits s q names) (hp : s.at? (.node q.document) p = some v) :
    (noted s q.document names).at? (.node q.document) p = some v := by
  induction p using List.reverseRecOn generalizing v with
  | nil => exact hp
  | append_singleton p i ih =>
      rw [at?_concat] at hp ⊢
      obtain ⟨w, hw, hi⟩ := Option.bind_eq_some_iff.mp hp
      rw [ih hw, Option.bind_some]
      rcases chosen?_cases (s := s) w with hfree | ⟨j, n, rfl, hc⟩
      · rw [(noted_of_free hfree).2]
        exact hi
      · obtain ⟨m, hbody⟩ := hs.isBody hc
        have hnoted : (noted s q.document names).mapping? j = some (withNote n m) :=
          mapping?_withBodies hc hbody.mapping
        rw [parts, children_of_mapping? hbody.mapping] at hi
        rw [parts, children_of_mapping? hnoted, values_withNote (hs.unnoted hc hbody.mapping)]
        rw [List.getElem?_append_left (List.getElem?_eq_some_iff.mp hi).1]
        exact hi

-- Down to the components nothing changes.
theorem Laid.at?_of_short (hs : Splits s q names) (h : Laid s q names r) (hshort : p.length ≤ 3) :
    r.store.at? (.node q.document) p = s.at? (.node q.document) p := by
  refine at?_congr fun p' id hpre hne hp' => h.layout.preserved id (hs.closed id ⟨p', hp'⟩) ?_
  refine hs.chosen?_of_short hp' ?_
  have hlt : p'.length < p.length :=
    Nat.lt_of_le_of_ne hpre.length_le fun heq => hne (hpre.eq_of_length heq)
  exact Nat.le_of_lt_succ (Nat.lt_of_lt_of_le hlt hshort)

theorem Restored.sameContent_at (hs : Splits s q names) (h : Restored s q names r)
    (hp : s.at? (.node q.document) p = some v) (hp' : r.store.at? (.node q.document) p = some v') :
    SameContent (noted s q.document names) r.store v v' := by
  funext rest
  have hcontent := congrFun (h.sameContent hs) (p ++ rest)
  rwa [contentAt_append_of_at? (at?_noted hs hp), contentAt_append_of_at? hp'] at hcontent

-- The parts of a value below the sections are at the same places.
theorem inner_part (hs : Splits s q names) (hp : s.at? (.node q.document) p = some v)
    (hp' : r.store.at? (.node q.document) p = some v') (hlong : 3 ≤ p.length) {i : Nat} {w w' : Value}
    (hw : (s.parts v)[i]? = some w) (hw' : (r.store.parts v')[i]? = some w') :
    Inner s r.store q.document names w w' := by
  have hat : s.at? (.node q.document) (p ++ [i]) = some w := by
    rw [at?_concat, hp]
    exact hw
  have hlength : 3 < (p ++ [i]).length := by
    rw [List.length_append]
    exact Nat.lt_succ_of_le hlong
  refine .place hat (by rw [at?_concat, hp']; exact hw') (Nat.le_of_lt hlength) ?_
  rintro j rfl
  cases hc : chosen? s q.document names j with
  | none => rfl
  | some n => exact absurd (hs.length_place hc hat) (Nat.ne_of_gt hlength)

theorem Restored.mirrors (hs : Splits s q names) (h : Restored s q names r) :
    Mirrors s r.store (Inner s r.store q.document names) := by
  intro v v' hv
  cases hv with
  | scalar x => exact .scalar x
  | place hp hp' hlong hfree =>
      have hsame := h.sameContent_at hs hp hp'
      obtain ⟨hshape, hparts⟩ : (noted s q.document names).shape v = s.shape v ∧
          (noted s q.document names).parts v = s.parts v := noted_of_free hfree
      refine matches_of_shape (hshape.symm.trans hsame.shape) ?_
      refine forall₂_of_getElem? ?_ fun i w w' hw hw' => inner_part hs hp hp' hlong hw hw'
      rw [← hparts]
      exact hsame.parts.length_eq

theorem Restored.noted (hs : Splits s q names) (h : Restored s q names r) (hnonempty : "" ∉ names)
    {name : String} {i j : NodeId} (hij : Moved s q.document names name i j) :
    Noted s r.store (Inner s r.store q.document names) name i j := by
  obtain ⟨rfl, hc⟩ := hij
  obtain ⟨hn, hcomponent⟩ := of_chosen? hc
  obtain ⟨key, x, m, mx, -, hm, hmx, halike, hplain, hid⟩ := h.exists_content hs hc
  obtain ⟨m', hbody⟩ := hs.isBody hc
  obtain rfl := Option.some.inj (hm.symm.trans hbody.mapping)
  obtain ⟨a, b, c, hp⟩ := exists_place hcomponent
  have hp' : r.store.at? (.node q.document) [a, b, c] = some (.node i) := by
    rw [h.laid.at?_of_short (p := [a, b, c]) hs (Nat.le_refl 3), hp]
  refine .intro hm hid ⟨halike.1, ?_⟩ hplain hbody.unreferring
    (schemaName?_of_isWord (hs.words name hn) fun heq => hnonempty (heq ▸ hn))
  refine forall₂_of_getElem? halike.2.length_eq fun k w w' hw hw' => inner_part (i := k) hs hp hp' (Nat.le_refl 3) ?_ ?_
  · rw [parts, children_of_mapping? hm]
    exact hw
  · rw [parts, children_of_mapping? hid, values_withNote (by rw [← halike.has]; exact hplain)]
    rw [List.getElem?_append_left (List.getElem?_eq_some_iff.mp hw').1]
    exact hw'

-- What corresponds stands at the same place.
theorem exists_place_of_counterparts (hs : Splits s q names) (h : Restored s q names r) {i j : NodeId}
    (hij : Counterparts (Inner s r.store q.document names) (Moved s q.document names) i j) :
    ∃ p, s.at? (.node q.document) p = some (.node i) ∧ r.store.at? (.node q.document) p = some (.node j) := by
  rcases hij with hinner | ⟨name, rfl, hc⟩
  · cases hinner with
    | place hp hp' => exact ⟨_, hp, hp'⟩
  · obtain ⟨a, b, c, hp⟩ := exists_place (of_chosen? hc).2
    exact ⟨_, hp, by rw [h.laid.at?_of_short (p := [a, b, c]) hs (Nat.le_refl 3), hp]⟩

theorem Restored.apart (hs : Splits s q names) (h : Restored s q names r) :
    Apart (Inner s r.store q.document names) (Moved s q.document names) := by
  intro i j i' j' hij hij'
  obtain ⟨p, hp, hpt⟩ := exists_place_of_counterparts hs h hij
  obtain ⟨p', hp', hpt'⟩ := exists_place_of_counterparts hs h hij'
  constructor
  · rintro rfl
    obtain rfl := hs.aliasFree p p' i hp hp'
    exact Value.node.inj (Option.some.inj (hpt.symm.trans hpt'))
  · rintro rfl
    obtain rfl := h.aliasFree hs p p' j hpt hpt'
    exact Value.node.inj (Option.some.inj (hp.symm.trans hp'))

end Places

section Sections

variable {s : Store} {q : Request} {names : List String} {n : String} {r : Run} {i j x : NodeId}
  {m : Entries} {e : Key × Value} {p : Path}

-- A schema that was moved is a component of the description, under its name alone.
theorem Splits.place_of_chosen (hs : Splits s q names) (hc : chosen? s q.document names x = some n)
    (hp : s.at? (.node q.document) p = some (.node x)) :
    ∃ a b c pn mp sq mq, p = [a, b, c] ∧ s.fieldMapping? q.document "components" = some (pn, mp) ∧
      s.fieldMapping? pn "schemas" = some (sq, mq) ∧ s.at? (.node q.document) [a] = some (.node pn) ∧
      s.at? (.node q.document) [a, b] = some (.node sq) ∧ mq.get? (.str n) = some (.node x) := by
  obtain ⟨pn, mp, sq, mq, mi, hpn, hsq, hx⟩ := componentIn?_eq_some_iff.mp (of_chosen? hc).2
  obtain ⟨a, ha⟩ := exists_part_of_fieldMapping? hpn
  obtain ⟨b, hb⟩ := exists_part_of_fieldMapping? hsq
  obtain ⟨c, hc'⟩ := exists_part_of_fieldMapping? hx
  have hfirst : s.at? (.node q.document) [a] = some (.node pn) := by
    rw [at?_cons, ha, Option.bind_some, at?_nil]
  have hsecond : s.at? (.node q.document) [a, b] = some (.node sq) := by
    rw [at?_cons, ha, Option.bind_some, at?_cons, hb, Option.bind_some, at?_nil]
  have hthird : s.at? (.node q.document) [a, b, c] = some (.node x) := by
    rw [at?_cons, ha, Option.bind_some, at?_cons, hb, Option.bind_some, at?_cons, hc', Option.bind_some, at?_nil]
  have hin := (fieldMapping?_eq_some.mp hx).1
  rw [entries_of_mapping? (fieldMapping?_eq_some.mp hsq).2] at hin
  exact ⟨a, b, c, pn, mp, sq, mq, hs.aliasFree p _ x hp hthird, hpn, hsq, hfirst, hsecond, hin⟩

-- The document and its sections are read as before.
theorem Laid.asMapping?_of_short (hs : Splits s q names) (h : Laid s q names r) {v : Value}
    (hp : s.at? (.node q.document) p = some v) (hshort : p.length ≤ 2) :
    r.store.asMapping? v = s.asMapping? v := by
  cases v with
  | scalar _ => rfl
  | pair _ _ => rfl
  | node i =>
      have hget := h.layout.preserved i (hs.closed i ⟨p, hp⟩) (hs.chosen?_of_short hp hshort)
      simp only [Store.asMapping?, mapping?_congr hget]

theorem exists_place_of_field {d : NodeId} {v : Value} {k : Key} (hp : s.at? (.node d) p = some (.node i))
    (hm : s.mapping? i = some m) (hv : m.get? k = some v) : ∃ a : Nat, s.at? (.node d) (p ++ [a]) = some v := by
  obtain ⟨e, he, -, rfl⟩ := exists_entry_of_get? hv
  obtain ⟨a, ha⟩ := List.getElem?_of_mem he
  exact ⟨a, at?_entry hp hm ha⟩

theorem Laid.fieldMapping?_of_short (hs : Splits s q names) (h : Laid s q names r)
    (hp : s.at? (.node q.document) p = some (.node i)) (hshort : p.length ≤ 1) (key : String) :
    r.store.fieldMapping? i key = s.fieldMapping? i key := by
  have hget := h.layout.preserved i (hs.closed i ⟨p, hp⟩)
    (hs.chosen?_of_short hp (Nat.le_succ_of_le hshort))
  unfold Store.fieldMapping? Store.field?
  rw [entries_congr hget]
  refine Option.bind_congr fun v hv => ?_
  cases hm : s.mapping? i with
  | none =>
      rw [Store.entries, hm] at hv
      cases hv
  | some m =>
      rw [entries_of_mapping? hm] at hv
      obtain ⟨a, ha⟩ := exists_place_of_field hp hm hv
      refine h.asMapping?_of_short hs ha ?_
      rw [List.length_append]
      exact Nat.succ_le_succ hshort

theorem exists_place_of_fieldMapping? {d : NodeId} {key : String}
    (hp : s.at? (.node d) p = some (.node i)) (hx : s.fieldMapping? i key = some (x, m)) :
    ∃ a : Nat, s.at? (.node d) (p ++ [a]) = some (.node x) := by
  obtain ⟨mi, hm, hk⟩ := mapping?_of_fieldMapping? hx
  exact exists_place_of_field hp hm hk

theorem Laid.components? (hs : Splits s q names) (h : Laid s q names r) (kind : String) :
    r.store.components? q.document kind = s.components? q.document kind := by
  unfold Store.components?
  rw [h.fieldMapping?_of_short (p := []) hs rfl (Nat.zero_le 1)]
  refine Option.bind_congr fun e he => ?_
  obtain ⟨pn, mp⟩ := e
  obtain ⟨a, ha⟩ := exists_place_of_fieldMapping? (p := []) (d := q.document) rfl he
  exact h.fieldMapping?_of_short hs ha (Nat.le_refl 1) kind

-- What a section holds stands at the same place, three levels down.
theorem Restored.inner_of_free (hs : Splits s q names) (h : Restored s q names r) {v : Value}
    {a b c : Nat} (hp : s.at? (.node q.document) [a, b, c] = some v)
    (hfree : ∀ x, v = .node x → chosen? s q.document names x = none) :
    Inner s r.store q.document names v v :=
  .place hp (by rw [h.laid.at?_of_short (p := [a, b, c]) hs (Nat.le_refl 3), hp]) (Nat.le_refl 3) hfree

theorem exists_section_of_components? {kind : String} {sq : NodeId}
    (hsection : s.components? q.document kind = some (sq, m)) :
    ∃ a b pn mp, s.fieldMapping? q.document "components" = some (pn, mp) ∧
      s.fieldMapping? pn kind = some (sq, m) ∧ s.at? (.node q.document) [a] = some (.node pn) ∧
      s.at? (.node q.document) [a, b] = some (.node sq) := by
  obtain ⟨pn, mp, hpn, hsq⟩ := Store.components?_eq_some.mp hsection
  obtain ⟨a, ha⟩ := exists_place_of_fieldMapping? (p := []) (d := q.document) rfl hpn
  obtain ⟨b, hb⟩ := exists_place_of_fieldMapping? ha hsq
  exact ⟨a, b, pn, mp, hpn, hsq, ha, hb⟩

theorem Restored.registry (hs : Splits s q names) (h : Restored s q names r) :
    Option.Rel (fun e e' => List.Forall₂ (ComponentsAlike (Inner s r.store q.document names)
      (Moved s q.document names)) e.2.entries e'.2.entries) (s.registry? q.document)
      (r.store.registry? q.document) := by
  unfold Store.registry?
  rw [h.laid.components? hs]
  cases hsection : s.components? q.document "schemas" with
  | none => exact .none
  | some section_ =>
      obtain ⟨sq, mq⟩ := section_
      obtain ⟨a, b, pn, mp, hpn, hsq, -, hb⟩ := exists_section_of_components? hsection
      have hmq := (fieldMapping?_eq_some.mp hsq).2
      refine .some (List.forall₂_same.mpr fun e he => ⟨rfl, ?_⟩)
      obtain ⟨c, hc⟩ := List.getElem?_of_mem he
      have hplace := at?_entry hb hmq hc
      rcases chosen?_cases (s := s) e.2 with hfree | ⟨x, n, hx, hchosen⟩
      · exact .inl (h.inner_of_free hs hplace hfree)
      · rw [hx] at hplace
        obtain ⟨a', b', c', pn', mp', sq', mq', -, hpn', hsq', -, -, hn⟩ := hs.place_of_chosen hchosen hplace
        obtain ⟨rfl, rfl⟩ := Prod.mk.inj (Option.some.inj (hpn.symm.trans hpn'))
        obtain ⟨rfl, rfl⟩ := Prod.mk.inj (Option.some.inj (hsq.symm.trans hsq'))
        obtain ⟨e', he', hkey, hx'⟩ := exists_entry_of_get? hn
        obtain rfl := hs.aliasFree.entry_eq hb hmq he he' hx hx'
        have hname : .str n = e.1 := Key.str_beq_iff.mp (BEq.symm hkey)
        exact .inr ⟨n, x, x, Prod.ext hname.symm hx, hx, rfl, hchosen⟩

theorem Restored.responses (hs : Splits s q names) (h : Restored s q names r) :
    Option.Rel (fun e e' => Alike (Inner s r.store q.document names) e.2 e'.2)
      (s.components? q.document "responses") (r.store.components? q.document "responses") := by
  rw [h.laid.components? hs]
  cases hsection : s.components? q.document "responses" with
  | none => exact .none
  | some section_ =>
      obtain ⟨sq, mq⟩ := section_
      obtain ⟨a, b, pn, mp, hpn, hsq, ha, hb⟩ := exists_section_of_components? hsection
      have hmq := (fieldMapping?_eq_some.mp hsq).2
      refine .some ⟨rfl, List.forall₂_same.mpr fun v hv => ?_⟩
      obtain ⟨e, he, rfl⟩ := List.mem_map.mp hv
      obtain ⟨c, hc⟩ := List.getElem?_of_mem he
      have hplace := at?_entry hb hmq hc
      refine h.inner_of_free hs hplace fun x hx => ?_
      cases hchosen : chosen? s q.document names x with
      | none => rfl
      | some n =>
          -- A moved schema is in another section.
          rw [hx] at hplace
          obtain ⟨a', b', c', pn', mp', sq', mq', heq, hpn', hsq', -, hb', -⟩ :=
            hs.place_of_chosen hchosen hplace
          obtain ⟨rfl, rfl⟩ := Prod.mk.inj (Option.some.inj (hpn.symm.trans hpn'))
          obtain ⟨rfl, rfl, -⟩ : a = a' ∧ b = b' ∧ c = c' := by simpa using heq
          obtain rfl := Value.node.inj (Option.some.inj (hb.symm.trans hb'))
          obtain ⟨mi, hm, hresponses⟩ := mapping?_of_fieldMapping? hsq
          obtain ⟨mi', hm', hschemas⟩ := mapping?_of_fieldMapping? hsq'
          obtain rfl := Option.some.inj (hm.symm.trans hm')
          exact absurd rfl (hs.aliasFree.ne_of_get? ha hm hresponses hschemas (by decide))

-- The paths are not among the components.
theorem Restored.inner_of_path (hs : Splits s q names) (h : Restored s q names r) {v : Value} {a b c : Nat}
    (hx : s.fieldMapping? q.document "paths" = some (x, m)) (ha : s.at? (.node q.document) [a] = some (.node x))
    (hp : s.at? (.node q.document) [a, b, c] = some v) : Inner s r.store q.document names v v := by
  refine h.inner_of_free hs hp fun y hy => ?_
  cases hchosen : chosen? s q.document names y with
  | none => rfl
  | some n =>
      rw [hy] at hp
      obtain ⟨a', b', c', pn', mp', sq', mq', heq, hpn', -, ha', -⟩ := hs.place_of_chosen hchosen hp
      obtain ⟨rfl, -⟩ : a = a' ∧ b = b' ∧ c = c' := by simpa using heq
      obtain rfl := Value.node.inj (Option.some.inj (ha.symm.trans ha'))
      obtain ⟨md, hmd, hpaths⟩ := mapping?_of_fieldMapping? hx
      obtain ⟨md', hmd', hcomponents⟩ := mapping?_of_fieldMapping? hpn'
      obtain rfl := Option.some.inj (hmd.symm.trans hmd')
      exact absurd rfl (hs.aliasFree.ne_of_get? (p := []) rfl hmd hpaths hcomponents (by decide))

theorem Restored.operations (hs : Splits s q names) (h : Restored s q names r) :
    List.Forall₂ (OperationsAlike (Inner s r.store q.document names)) (s.operations q.document)
      (r.store.operations q.document) := by
  unfold Store.operations
  rw [h.laid.fieldMapping?_of_short (p := []) hs rfl (Nat.zero_le 1)]
  cases hpaths : s.fieldMapping? q.document "paths" with
  | none => exact .nil
  | some paths =>
      obtain ⟨x, mx⟩ := paths
      obtain ⟨a, ha⟩ := exists_place_of_fieldMapping? (p := []) (d := q.document) rfl hpaths
      have hmx := (fieldMapping?_eq_some.mp hpaths).2
      have hall : List.Forall₂ (fun e e' => e = e' ∧ e ∈ mx.entries) mx.entries mx.entries :=
        List.forall₂_same.mpr fun e he => ⟨rfl, he⟩
      refine forall₂_flatMap hall fun e e' he => ?_
      obtain ⟨rfl, hin⟩ := he
      obtain ⟨path, item⟩ := e
      obtain ⟨b, hb⟩ := List.getElem?_of_mem hin
      have hitem := at?_entry ha hmx hb
      dsimp only
      rw [h.laid.asMapping?_of_short hs hitem (Nat.le_refl 2)]
      cases hm : s.asMapping? item with
      | none => exact .nil
      | some fields =>
          obtain ⟨y, my⟩ := fields
          obtain ⟨rfl, hmy⟩ := asMapping?_eq_some.mp hm
          -- Each method of the path is read at the same place.
          have hmethods : List.Forall₂ (fun k k' : Method => k = k') Method.all Method.all :=
            List.forall₂_same.mpr fun _ _ => rfl
          refine forall₂_filterMap hmethods fun k k' hk => ?_
          subst hk
          cases hv : my.field? k.key with
          | none => exact .none
          | some v =>
              obtain ⟨c, hc⟩ := exists_place_of_field hitem hmy hv
              simp only [Option.bind_eq_bind, Option.bind_some]
              refine rel_bind ((h.mirrors hs).asMapping? (h.inner_of_path hs hpaths ha hc)) fun o o' ho => ?_
              exact .some ⟨rfl, rfl, ho.2⟩

theorem Restored.retells (hs : Splits s q names) (h : Restored s q names r) (hnonempty : "" ∉ names) :
    Retells s r.store q.document (Inner s r.store q.document names) (Moved s q.document names) where
  mirrors := h.mirrors hs
  scalar := .scalar
  noted := h.noted hs hnonempty
  component hb := (of_chosen? hb.2).2
  apart := h.apart hs
  registry := h.registry hs
  responses := h.responses hs
  operations := h.operations hs

end Sections

end ApiGraph.Splitting
