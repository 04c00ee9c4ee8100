import ApiGraph.Proofs.Resolve.Inlining
import ApiGraph.Proofs.Resolve.Sections

namespace ApiGraph.Resolve

open Store

-- What the name is bound to in the document's components of the kind.
def binding? (s : Store) (document : NodeId) (kind name : String) : Option Value :=
  (s.components? document kind).bind fun e => e.2.field? name

-- The components of the document are their own section of the kind.
def IsOwnSection (s : Store) (document : NodeId) (kind : String) : Prop :=
  ∃ p m m', s.fieldMapping? document "components" = some (p, m) ∧
    s.fieldMapping? p kind = some (p, m')

section Values

variable {s s' : Store} {id document : NodeId} {kind name key : String} {v : Value}

theorem binding?_eq_some_iff : binding? s document kind name = some v ↔
    ∃ q mq, s.components? document kind = some (q, mq) ∧ mq.get? (.str name) = some v := by
  unfold binding?
  rw [Option.bind_eq_some_iff, Prod.exists]
  rfl

theorem isBound_eq_isSome_binding? (c : Context) (s : Store) (kind name : String) :
    isBound c s kind name = (binding? s c.document kind name).isSome := by
  unfold isBound binding?
  cases s.components? c.document kind with
  | none => rfl
  | some e => exact OrderedMap.contains_eq_isSome_get? e.2 _

-- A value gives way to a new section at most, and only if it is no mapping.
theorem get?_ensureField_of_some (hid : (s.mapping? id).isSome) (key : String) {i : NodeId}
    (hv : (s.entries i).get? (.str name) = some v) :
    ((s.ensureField id key).2.entries i).get? (.str name) = some v ∨
      i = id ∧ name = key ∧ s.asMapping? v = none ∧
        ∃ m, (s.ensureField id key).2.fieldMapping? id key = some (s.nodes.size, m) := by
  have hmade := fieldMapping?_ensureField hid key
  cases hf : s.fieldMapping? id key with
  | some e =>
      rw [ensureField_of_fieldMapping? hf]
      exact .inl hv
  | none =>
      rw [ensureField_of_eq_none hf] at hmade ⊢
      obtain ⟨m, hm⟩ := Option.isSome_iff_exists.mp hid
      have hm' : (s.alloc (.mapping .empty)).2.mapping? id = some m :=
        (mapping?_alloc_of_lt (lt_size_of_mapping? hm)).trans hm
      dsimp only at hmade ⊢
      rw [put_of_mapping? hm'] at hmade ⊢
      by_cases hi : id = i
      · subst hi
        rw [entries_of_mapping? hm] at hv
        rw [entries_set_self hm', OrderedMap.get?_insert]
        by_cases hname : name = key
        · refine .inr ⟨rfl, hname, ?_, hmade⟩
          rw [hname, ← entries_of_mapping? hm] at hv
          exact asMapping?_of_fieldMapping?_eq_none hf hv
        · rw [if_neg (by simp [str_beq_eq_false (Ne.symm hname)])]
          exact .inl hv
      · rw [entries_set_of_ne hi]
        cases hi' : s.mapping? i with
        | none =>
            rw [entries_eq_empty hi'] at hv
            cases hv
        | some n =>
            rw [entries_of_mapping? ((mapping?_alloc_of_lt (lt_size_of_mapping? hi')).trans hi')]
            rw [entries_of_mapping? hi'] at hv
            exact .inl hv

-- The value gives way to the components or to one of their sections, which is made in its place.
structure GivesWay (s s' : Store) (document id : NodeId) (name : String) (v : Value) : Prop where
  old : s.asMapping? v = none
  place : id = document ∧ name = "components" ∨
    ∃ m, s.fieldMapping? document "components" = some (id, m)
  made : ∃ j m, s.nodes.size ≤ j ∧ s'.fieldMapping? id name = some (j, m)

theorem get?_ensureComponents_of_some (hdoc : (s.mapping? document).isSome) (kind : String)
    (hv : (s.entries id).get? (.str name) = some v) :
    ((s.ensureComponents document kind).2.entries id).get? (.str name) = some v ∨
      GivesWay s (s.ensureComponents document kind).2 document id name v := by
  obtain ⟨hkeeps, hplace⟩ := keeps_ensureField hdoc "components"
  rcases get?_ensureField_of_some hdoc "components" hv with hfirst | ⟨rfl, rfl, hnone, m, hmade⟩
  swap
  · obtain ⟨m', hm'⟩ :=
      (keeps_ensureField hplace kind).1.fieldMapping? (by decide) (by decide) hmade
    exact .inr ⟨hnone, .inl ⟨rfl, rfl⟩, _, m', Nat.le_refl _, hm'⟩
  rcases get?_ensureField_of_some hplace kind hfirst with hsecond | ⟨rfl, rfl, hnone, m, hmade⟩
  · exact .inl hsecond
  refine .inr ⟨asMapping?_of_grows hkeeps.toGrows hnone, .inr ?_, _, m, hkeeps.size, hmade⟩
  rcases ensureField_cases hdoc "components" with ⟨child, m, hf, heq⟩ | ⟨hnew, -⟩
  · rw [heq]
    exact ⟨m, hf⟩
  · -- Nothing stands in the components before they are made.
    rw [hnew, entries_eq_empty (by unfold mapping?; rw [get?_eq_none (Nat.le_refl _)])] at hv
    cases hv

theorem keeps_bound_place (hdoc : (s.mapping? document).isSome) (kind other : String) (target : NodeId) :
    Keeps (s.ensureComponents document kind).2 (bound s document kind other target) := by
  obtain ⟨m, hm⟩ := Option.isSome_iff_exists.mp (keeps_ensureComponents hdoc kind).2
  unfold bound
  dsimp only
  split
  · exact .refl _
  · next hfree =>
    refine keeps_put (.refl _) hm fun v hv => ?_
    rw [entries_of_mapping? hm, Entries.has, OrderedMap.contains_eq_isSome_get?, hv] at hfree
    exact absurd rfl hfree

-- Once the section is there, only a free name is bound.
theorem get?_bound_of_place {target : NodeId} {other : String} (hdoc : (s.mapping? document).isSome)
    (hv : ((s.ensureComponents document kind).2.entries id).get? (.str name) = some v) :
    ((bound s document kind other target).entries id).get? (.str name) = some v := by
  obtain ⟨m, hm⟩ := Option.isSome_iff_exists.mp (keeps_ensureComponents hdoc kind).2
  unfold bound
  dsimp only
  split
  · exact hv
  · next hfree =>
    rw [put_of_mapping? hm]
    by_cases hid : (s.ensureComponents document kind).1 = id
    · rw [hid] at hm hfree ⊢
      rw [entries_set_self hm, OrderedMap.get?_insert, ← entries_of_mapping? hm, hv, if_neg]
      intro hkey
      rw [Entries.has, OrderedMap.contains_eq_isSome_get?, OrderedMap.get?_congr hkey, hv] at hfree
      exact hfree rfl
    · rw [entries_set_of_ne hid]
      exact hv

theorem get?_bound_of_some {target : NodeId} {other : String} (hdoc : (s.mapping? document).isSome)
    (hv : (s.entries id).get? (.str name) = some v) :
    ((bound s document kind other target).entries id).get? (.str name) = some v ∨
      GivesWay s (bound s document kind other target) document id name v := by
  refine (get?_ensureComponents_of_some hdoc kind hv).imp (get?_bound_of_place hdoc) fun hgives => ?_
  obtain ⟨j, m, hj, hmade⟩ := hgives.made
  obtain ⟨hk, hm⟩ := fieldMapping?_eq_some.mp hmade
  obtain ⟨m', hm'⟩ := (keeps_bound_place hdoc kind other target).exists_mapping? hm
  exact ⟨hgives.old, hgives.place, j, m', hj,
    fieldMapping?_eq_some.mpr ⟨get?_bound_of_place hdoc hk, hm'⟩⟩

end Values

section Deeds

variable {c : Context} {s : Store} {files : List (String × NodeId)} {h e : History} {d : Deed}
  {id : NodeId} {kind name : String} {v : Value}

theorem Legit.get?_of_some (hd : Legit c s files h d) (hroot : ((after c s h).mapping? c.document).isSome)
    (hname : IsFixed name) (hv : ((after c s h).entries id).get? (.str name) = some v) :
    ((d.apply c.document (after c s h)).entries id).get? (.str name) = some v ∨
      GivesWay (after c s h) (d.apply c.document (after c s h)) c.document id name v := by
  have hb := hd.becomes id
  generalize (d.apply c.document (after c s h)).entries id = new at hb ⊢
  cases hb with
  | same _ => exact .inl hv
  | prepared => exact get?_ensureComponents_of_some hroot "schemas" hv
  | bound kind other target => exact get?_bound_of_some hroot hv
  | read hnew => exact absurd (lt_size_of_get?_entries hv) (Nat.not_lt_of_le hnew)
  | marked ref note _ => exact .inl (get?_markedContent_of_some (str_beq_eq_false hname.2) hv)
  | inlined target ref note _ =>
      exact .inl (get?_inlinedContent_of_some (str_beq_eq_false hname.1) hv)

theorem Keeps.binding? {t t' : Store} {document j : NodeId} {m : Entries} (h : Keeps t t')
    (hkind : IsFixed kind) (hname : IsFixed name) (hm : t.mapping? j = some m)
    (hv : binding? t document kind name = some (.node j)) :
    binding? t' document kind name = some (.node j) := by
  obtain ⟨q, mq, hsection, hj⟩ := binding?_eq_some_iff.mp hv
  obtain ⟨mq', hsection'⟩ := h.components? hkind hsection
  rw [← entries_of_mapping? (mapping?_of_components? hsection)] at hj
  obtain ⟨m', hj'⟩ := h.fieldMapping? hname.1 hname.2 (fieldMapping?_eq_some.mpr ⟨hj, hm⟩)
  refine binding?_eq_some_iff.mpr ⟨q, mq', hsection', ?_⟩
  rw [← entries_of_mapping? (mapping?_of_components? hsection')]
  exact (fieldMapping?_eq_some.mp hj').1

-- The components are one whole with the section, in which the name is now bound to a section made since.
structure IsSuperseded (s t : Store) (document : NodeId) (kind name : String) (v : Value) : Prop where
  own : IsOwnSection s document kind
  old : s.asMapping? v = none
  made : ∃ j m, s.nodes.size ≤ j ∧ t.components? document name = some (j, m) ∧
    binding? t document kind name = some (.node j)

theorem IsSuperseded.keeps {t t' : Store} {document : NodeId}
    (h : IsSuperseded s t document kind name v) (hkeeps : Keeps t t') (hkind : IsFixed kind)
    (hname : IsFixed name) : IsSuperseded s t' document kind name v where
  own := h.own
  old := h.old
  made := by
    obtain ⟨j, m, hj, hsection, hbound⟩ := h.made
    obtain ⟨m', hsection'⟩ := hkeeps.components? hname hsection
    exact ⟨j, m', hj, hsection',
      hkeeps.binding? hkind hname (mapping?_of_components? hsection) hbound⟩

-- Only what is a mapping already stands where the components are looked for, so that nothing but a value
-- in a section that is all the components gives way.
theorem Legit.binding_stays (hd : Legit c s files h d) (hroot : ((after c s h).mapping? c.document).isSome)
    (hkind : IsFixed kind) (hname : IsFixed name)
    (hv : binding? (after c s h) c.document kind name = some v) :
    binding? (d.apply c.document (after c s h)) c.document kind name = some v ∨
      IsSuperseded (after c s h) (d.apply c.document (after c s h)) c.document kind name v := by
  obtain ⟨q, mq, hsection, hin⟩ := binding?_eq_some_iff.mp hv
  have hkeeps := hd.keeps hroot
  obtain ⟨mq', hsection'⟩ := hkeeps.components? hkind hsection
  have hmq' := mapping?_of_components? hsection'
  rw [← entries_of_mapping? (mapping?_of_components? hsection)] at hin
  rcases hd.get?_of_some hroot hname hin with hsame | ⟨hnone, hplace, j, m, hj, hmade⟩
  · rw [entries_of_mapping? hmq'] at hsame
    exact .inl (binding?_eq_some_iff.mpr ⟨q, mq', hsection', hsame⟩)
  · obtain ⟨p, mp, hp, hq⟩ := components?_eq_some.mp hsection
    obtain ⟨mp', hp'⟩ := hkeeps.fieldMapping? (by decide) (by decide) hp
    rcases hplace with ⟨rfl, rfl⟩ | ⟨n, hn⟩
    · obtain ⟨hcomponents, hmp⟩ := fieldMapping?_eq_some.mp hp
      obtain rfl := Option.some.inj (hcomponents.symm.trans hin)
      simp [asMapping?, hmp] at hnone
    · obtain rfl : p = q := congrArg Prod.fst (Option.some.inj (hp.symm.trans hn))
      have hnow := (fieldMapping?_eq_some.mp hmade).1
      rw [entries_of_mapping? hmq'] at hnow
      exact .inr ⟨⟨p, mp, mq, hp, hq⟩, hnone, j, m, hj, components?_eq_some.mpr ⟨p, mp', hp', hmade⟩,
        binding?_eq_some_iff.mpr ⟨p, mq', hsection', hnow⟩⟩

-- What is superseded later was there before, with the components as they were.
theorem IsSuperseded.since {t t' : Store} {document : NodeId}
    (h : IsSuperseded t t' document kind name v) (hkeeps : Keeps s t) (hkind : IsFixed kind)
    (hv : binding? s document kind name = some v) : IsSuperseded s t' document kind name v where
  own := by
    obtain ⟨q, mq, hsection, -⟩ := binding?_eq_some_iff.mp hv
    obtain ⟨p, mp, hp, hq⟩ := components?_eq_some.mp hsection
    obtain ⟨mp', hp'⟩ := hkeeps.fieldMapping? (by decide) (by decide) hp
    obtain ⟨mq', hq'⟩ := hkeeps.fieldMapping? hkind.1 hkind.2 hq
    obtain ⟨p', m, m', hown, hown'⟩ := h.own
    obtain rfl : p = p' := congrArg Prod.fst (Option.some.inj (hp'.symm.trans hown))
    obtain rfl : q = p := congrArg Prod.fst (Option.some.inj (hq'.symm.trans hown'))
    exact ⟨q, mp, mq, hp, hq⟩
  old := asMapping?_of_grows hkeeps.toGrows h.old
  made := by
    obtain ⟨j, m, hj, hmade⟩ := h.made
    exact ⟨j, m, Nat.le_trans hkeeps.size hj, hmade⟩

theorem Lawful.binding_stays (hl : Lawful c s files h) (hdoc : (s.mapping? c.document).isSome)
    (hkind : IsFixed kind) (hname : IsFixed name) (he : e <+: h)
    (hv : binding? (after c s e) c.document kind name = some v) :
    binding? (after c s h) c.document kind name = some v ∨
      IsSuperseded (after c s e) (after c s h) c.document kind name v := by
  obtain ⟨k, rfl⟩ := he
  refine hl.preserved (P := fun t => binding? t c.document kind name = some v ∨
    IsSuperseded (after c s e) t c.document kind name v) hdoc (.inl hv) ?_
  intro e' d he' hed _ hd hroot hp
  rcases hp with hsame | hsuperseded
  · have hkeeps := (hl.of_prefix ((List.prefix_append e' [d]).trans hed)).keeps hdoc he'
    exact (hd.binding_stays hroot hkind hname hsame).imp_right fun hnow => hnow.since hkeeps hkind hv
  · exact .inr (hsuperseded.keeps (hd.keeps hroot) hkind hname)

-- A mapping gives way to nothing.
theorem Lawful.binds (hl : Lawful c s files h) (hdoc : (s.mapping? c.document).isSome)
    (hkind : IsFixed kind) (hname : IsFixed name) (he : e <+: h)
    (hv : binding? (after c s e) c.document kind name = some v)
    (hlasting : IsOwnSection (after c s e) c.document kind → ((after c s e).asMapping? v).isSome) :
    binding? (after c s h) c.document kind name = some v := by
  refine (hl.binding_stays hdoc hkind hname he hv).resolve_right fun hsuperseded => ?_
  have hsome := hlasting hsuperseded.own
  rw [hsuperseded.old] at hsome
  cases hsome

end Deeds

section Once

variable {c : Context} {s : Store} {files : List (String × NodeId)} {h e k : History} {b d : Deed}
  {id target : NodeId} {kind name key : String}

theorem bound_of_isBound_eq_false (hroot : (s.mapping? c.document).isSome)
    (hfree : isBound c s kind name = false) (target : NodeId) :
    bound s c.document kind name target = (s.ensureComponents c.document kind).2.put
      (s.ensureComponents c.document kind).1 (.str name) (.node target) := by
  unfold bound
  dsimp only
  rw [if_neg]
  rw [has_ensureComponents hroot kind name, hfree]
  exact Bool.false_ne_true

-- What is bound under a free name is found there.
theorem get?_place_bound (hroot : (s.mapping? c.document).isSome)
    (hfree : isBound c s kind name = false) (target : NodeId) :
    ((bound s c.document kind name target).entries (s.ensureComponents c.document kind).1).get?
      (.str name) = some (.node target) := by
  obtain ⟨m, hm⟩ := Option.isSome_iff_exists.mp (keeps_ensureComponents hroot kind).2
  rw [bound_of_isBound_eq_false hroot hfree, put_of_mapping? hm, entries_set_self hm,
    OrderedMap.get?_insert]
  simp

theorem binding?_bound (hroot : (s.mapping? c.document).isSome) (hkind : IsFixed kind)
    (hfree : isBound c s kind name = false) (target : NodeId) :
    binding? (bound s c.document kind name target) c.document kind name = some (.node target) := by
  obtain ⟨mq, hsection⟩ := components?_ensureComponents hroot kind
  obtain ⟨mq', hsection'⟩ := (keeps_bound_place hroot kind name target).components? hkind hsection
  refine binding?_eq_some_iff.mpr ⟨_, mq', hsection', ?_⟩
  rw [← entries_of_mapping? (mapping?_of_components? hsection')]
  exact get?_place_bound hroot hfree target

theorem isSome_get?_refKey_of_ref? {m : Entries} {ref : String} (href : m.ref? = some ref) :
    (m.get? (.str refKey)).isSome := by
  cases hget : m.get? (.str refKey) with
  | some v => rfl
  | none =>
      rw [ref?_eq_none hget] at href
      cases href

-- A key is taken away by nothing but the copy of a target.
theorem isSome_get?_ensureField (hid : (s.mapping? id).isSome) (key : String) {i : NodeId}
    (h : ((s.entries i).get? (.str name)).isSome) :
    (((s.ensureField id key).2.entries i).get? (.str name)).isSome := by
  obtain ⟨v, hv⟩ := Option.isSome_iff_exists.mp h
  rcases get?_ensureField_of_some hid key hv with hsame | ⟨rfl, rfl, -, m, hm⟩
  · exact Option.isSome_of_eq_some hsame
  · exact Option.isSome_of_eq_some (fieldMapping?_eq_some.mp hm).1

theorem isSome_get?_ensureComponents {document : NodeId} (hdoc : (s.mapping? document).isSome)
    (kind : String)
    (h : ((s.entries id).get? (.str name)).isSome) :
    (((s.ensureComponents document kind).2.entries id).get? (.str name)).isSome :=
  isSome_get?_ensureField (keeps_ensureField hdoc "components").2 kind
    (isSome_get?_ensureField hdoc "components" h)

theorem isSome_get?_bound {document : NodeId} {other : String} (hdoc : (s.mapping? document).isSome)
    (h : ((s.entries id).get? (.str name)).isSome) :
    (((bound s document kind other target).entries id).get? (.str name)).isSome := by
  obtain ⟨m, hm⟩ := Option.isSome_iff_exists.mp (keeps_ensureComponents hdoc kind).2
  have hmade := isSome_get?_ensureComponents hdoc kind h
  unfold bound
  dsimp only
  split
  · exact hmade
  · rw [put_of_mapping? hm]
    by_cases hid : (s.ensureComponents document kind).1 = id
    · rw [hid] at hm ⊢
      rw [entries_of_mapping? hm] at hmade
      rw [entries_set_self hm, OrderedMap.get?_insert]
      split
      · rfl
      · exact hmade
    · rwa [entries_set_of_ne hid]

theorem Legit.isSome_get?_refKey (hd : Legit c s files h d)
    (hroot : ((after c s h).mapping? c.document).isSome) (hinlines : d.inlines? ≠ some id)
    (hsome : (((after c s h).entries id).get? (.str refKey)).isSome) :
    (((d.apply c.document (after c s h)).entries id).get? (.str refKey)).isSome := by
  obtain ⟨v, hv⟩ := Option.isSome_iff_exists.mp hsome
  have hb := hd.becomes id
  generalize (d.apply c.document (after c s h)).entries id = new at hb ⊢
  cases hb with
  | same _ => exact hsome
  | prepared => exact isSome_get?_ensureComponents hroot "schemas" hsome
  | bound kind other target => exact isSome_get?_bound hroot hsome
  | read hnew => exact absurd (lt_size_of_get?_entries hv) (Nat.not_lt_of_le hnew)
  | marked ref note _ => exact get?_markedContent_refKey (m := (after c s h).entries id) note ▸ hsome
  | inlined target ref note _ => exact absurd rfl hinlines

theorem Lawful.isSome_get?_refKey (hl : Lawful c s files (e ++ k)) (hdoc : (s.mapping? c.document).isSome)
    (hinlines : ∀ d ∈ k, d.inlines? ≠ some id)
    (hsome : (((after c s e).entries id).get? (.str refKey)).isSome) :
    (((after c s (e ++ k)).entries id).get? (.str refKey)).isSome :=
  hl.preserved (P := fun t => ((t.entries id).get? (.str refKey)).isSome) hdoc hsome
    fun _ d _ _ hin hd hroot => hd.isSome_get?_refKey hroot (hinlines d hin)

-- Where the key of the reference is free, and no reference takes it, no target is copied any more.
theorem Lawful.inlines?_ne (hl : Lawful c s files (e ++ [b] ++ k)) (hdoc : (s.mapping? c.document).isSome)
    (hfree : ((after c s e).entries id).get? (.str refKey) = none)
    (hid : id < (after c s (e ++ [b])).nodes.size)
    (hnone : ((after c s (e ++ [b])).entries id).ref? = none) : ∀ d ∈ k, d.inlines? ≠ some id := by
  rintro d hd hinlines
  obtain ⟨target, ref, note, rfl⟩ := Deed.inlines?_eq_some hinlines
  obtain ⟨pre, post, rfl⟩ := List.append_of_mem hd
  have hpre : e ++ [b] ++ pre ++ [.inline id target ref note] <+:
      e ++ [b] ++ (pre ++ .inline id target ref note :: post) := ⟨post, by simp⟩
  have hlegit := (hl.of_prefix hpre).last
  have hlawful := hl.of_prefix ((List.prefix_append _ _).trans hpre)
  cases hlegit with
  | inline _ hresolves =>
      obtain ⟨e₀, k₀, heq, hpending, -, -, hk₀⟩ := hresolves.pending
      obtain ⟨href, -⟩ := pendingRef?_eq_some hpending
      have he₀ : e₀ <+: e ++ [b] ++ pre := heq ▸ List.prefix_append e₀ k₀
      by_cases hlate : e ++ [b] <+: e₀
      · rw [(hlawful.of_prefix he₀).ref? hdoc hlate hid href] at hnone
        cases hnone
      · have hearly : e₀ <+: e ++ [b] :=
          (List.prefix_or_prefix_of_prefix he₀ (List.prefix_append _ _)).resolve_right hlate
        obtain ⟨m, rfl⟩ : e₀ <+: e :=
          (List.prefix_concat_iff.mp hearly).resolve_left fun hsame => hlate (hsame ▸ List.prefix_rfl)
        have hin : m ⊆ k₀ := by
          rw [List.append_assoc, List.append_assoc, List.append_cancel_left_eq] at heq
          exact heq ▸ List.subset_append_left m _
        have hearlier := hlawful.of_prefix ((List.prefix_append _ _).trans (List.prefix_append _ _))
        have hnever : ∀ d ∈ m, d.inlines? ≠ some id := fun d hd hinl => hk₀ d (hin hd) (by
          obtain ⟨_, _, _, rfl⟩ := Deed.inlines?_eq_some hinl
          rfl)
        have hkept := hearlier.isSome_get?_refKey hdoc hnever (isSome_get?_refKey_of_ref? href)
        rw [hfree] at hkept
        cases hkept

-- Once a component is bound, its name is taken for good.
theorem Lawful.isBound_of_new (hl : Lawful c s files h) (hdoc : (s.mapping? c.document).isSome)
    (hkind : IsFixed kind) (he : e ++ [.bind kind name target] <+: h)
    (hfree : isBound c (after c s e) kind name = false) :
    isBound c (after c s h) kind name = true := by
  have hstart := hl.of_prefix ((List.prefix_append e _).trans he)
  have hroot := hstart.root hdoc
  have hafter : after c s (e ++ [.bind kind name target]) =
      bound (after c s e) c.document kind name target := after_concat e _
  have hbound : isBound c (after c s (e ++ [.bind kind name target])) kind name = true := by
    rw [hafter]
    exact isBound_bound hroot hkind name target
  by_cases hname : name = refKey
  swap
  · exact (hl.keeps hdoc he).isBound hkind hname hbound
  subst hname
  obtain ⟨k, rfl⟩ := he
  obtain ⟨m, hm⟩ := Option.isSome_iff_exists.mp (keeps_ensureComponents hroot kind).2
  obtain ⟨mq, hsection⟩ := components?_ensureComponents hroot kind
  generalize hplace : ((after c s e).ensureComponents c.document kind).1 = place at hsection hm
  -- Nothing stood under the key before, and no text does now.
  have hbefore : ((after c s e).entries place).get? (.str refKey) = none := by
    cases hget : ((after c s e).entries place).get? (.str refKey) with
    | none => rfl
    | some v =>
        have hmade := isSome_get?_ensureComponents hroot kind (Option.isSome_of_eq_some hget)
        rw [← OrderedMap.contains_eq_isSome_get?, ← hplace] at hmade
        rw [← has_ensureComponents hroot kind refKey, Entries.has, hmade] at hfree
        cases hfree
  have hnow : ((after c s (e ++ [.bind kind refKey target])).entries place).get? (.str refKey) =
      some (.node target) := by
    rw [hafter, ← hplace]
    exact get?_place_bound hroot hfree target
  have hsince : Keeps ((after c s e).ensureComponents c.document kind).2
      (after c s (e ++ [.bind kind refKey target] ++ k)) :=
    (hafter ▸ keeps_bound_place hroot kind refKey target).trans (hl.keeps hdoc (List.prefix_append _ _))
  have hlt : place < (after c s (e ++ [.bind kind refKey target])).nodes.size := by
    rw [hafter]
    exact Nat.lt_of_lt_of_le (lt_size_of_mapping? hm) (keeps_bound_place hroot kind refKey target).size
  have hinlines := hl.inlines?_ne hdoc hbefore hlt
    (by simp [Entries.ref?, Entries.text?, Entries.field?, hnow, Value.string?])
  have hkept := hl.isSome_get?_refKey hdoc hinlines (Option.isSome_of_eq_some hnow)
  obtain ⟨mq', hsection'⟩ := hsince.components? hkind hsection
  rw [entries_of_mapping? (mapping?_of_components? hsection')] at hkept
  exact isBound_iff.mpr ⟨place, mq', hsection', hkept⟩

theorem newBinding?_eq_some (hnew : newBinding? c s d = some (kind, name)) :
    isBound c s kind name = false ∧ ∃ target, d = .bind kind name target := by
  cases d with
  | bind kind' name' target =>
      simp only [newBinding?] at hnew
      split at hnew
      · cases hnew
      · next hfree =>
        cases hnew
        exact ⟨by simpa using hfree, target, rfl⟩
  | _ => cases hnew

theorem exists_bind_of_mem_bindings (hin : (kind, name) ∈ bindings c s h) :
    ∃ e target, e ++ [.bind kind name target] <+: h ∧ isBound c (after c s e) kind name = false := by
  induction h using List.reverseRecOn with
  | nil => cases hin
  | append_singleton h d ih =>
      rw [bindings_concat, List.mem_append, Option.mem_toList] at hin
      rcases hin with hold | hnew
      · obtain ⟨e, target, he, hfree⟩ := ih hold
        exact ⟨e, target, he.trans (List.prefix_append h [d]), hfree⟩
      · obtain ⟨hfree, target, rfl⟩ := newBinding?_eq_some hnew
        exact ⟨h, target, List.prefix_rfl, hfree⟩

theorem Lawful.nodup_bindings (hl : Lawful c s files h) (hdoc : (s.mapping? c.document).isSome) :
    ((bindings c s h).filter fun b => IsFixed b.1).Nodup := by
  induction h using List.reverseRecOn with
  | nil => exact List.nodup_nil
  | append_singleton h d ih =>
      have hbefore := hl.of_prefix (List.prefix_append h [d])
      rw [bindings_concat, List.filter_append]
      refine List.nodup_append.mpr ⟨ih hbefore, ?_, fun b hold b' hnew heq => ?_⟩
      · cases newBinding? c (after c s h) d with
        | none => exact List.nodup_nil
        | some b => exact (List.pairwise_singleton _ b).filter _
      · subst heq
        obtain ⟨hin, hfixed⟩ := List.mem_filter.mp hold
        rw [List.mem_filter, Option.mem_toList] at hnew
        obtain ⟨hfree, -⟩ := newBinding?_eq_some hnew.1
        obtain ⟨e, target, he, hbound⟩ := exists_bind_of_mem_bindings hin
        rw [hbefore.isBound_of_new hdoc (by simpa using hfixed) he hbound] at hfree
        cases hfree

end Once

section Call

variable {s : Store} {q : Request}

-- However a call ends, what is bound in a section stays bound to the same value from then on. The sections
-- under the keys of a reference and of its mark do not count, and where the components are the section
-- itself a value that is no mapping may give way to a section made under its name, which is bound then. No
-- two components are brought in under one name.
theorem bindings_stay (hdoc : (s.mapping? q.document).isSome) :
    ∃ h, q.HasAccount s h ∧
      (∀ e e' kind name v, e <+: e' → e' <+: h → IsFixed kind → IsFixed name →
        binding? (after q.context s e) q.document kind name = some v →
        binding? (after q.context s e') q.document kind name = some v ∨
          IsSuperseded (after q.context s e) (after q.context s e') q.document kind name v) ∧
      (((references s q).events.filterMap announced?).filter fun b => IsFixed b.1).Nodup := by
  obtain ⟨h, hh⟩ := exists_account hdoc
  refine ⟨h, hh, fun e e' kind name v he he' hkind hname hv => ?_, ?_⟩
  · exact (hh.lawful.of_prefix he').binding_stays hdoc hkind hname he hv
  · rw [hh.announced]
    exact hh.lawful.nodup_bindings hdoc

-- A reference to a schema whose name is taken in the root document.
def takenName : Store :=
  ⟨#[
    .ofFields [("components", .node 1), ("a", .node 3), ("defs", .node 5)],
    .ofFields [("schemas", .node 2)],
    .ofFields [("Pet", .node 4)],
    .ofFields [("$ref", .str "r.json#/defs/Pet")],
    .ofFields [("type", .str "string")],
    .ofFields [("Pet", .node 6)],
    .ofFields [("type", .str "object")]]⟩

-- The component of that name is the same at any moment.
theorem takenName_stays : ∃ h, ownFileCall.HasAccount takenName h ∧ ∀ e, e <+: h →
    binding? (after ownFileCall.context takenName e) 0 "schemas" "Pet" = some (.node 4) := by
  obtain ⟨h, hh, hstay, -⟩ := @bindings_stay takenName ownFileCall (by decide)
  refine ⟨h, hh, fun e he => ?_⟩
  have hstart : binding? takenName 0 "schemas" "Pet" = some (.node 4) := by decide
  refine (hstay [] e "schemas" "Pet" (.node 4) List.nil_prefix he (by decide) (by decide)
    hstart).resolve_right fun hsuperseded => ?_
  -- What has the name is a mapping.
  cases hsuperseded.old

-- A call for a document beside the given files.
def filesCall (files : List (String × String)) : Request :=
  ⟨0, some (.text "r.json"), {}, [], [], none,
    ⟨.mk (files.map fun f => (f.1, .bytes f.2.toUTF8)) .nil, ⟨1, []⟩⟩⟩

-- Components that are a reference.
def referredComponents : Store :=
  ⟨#[.ofFields [("components", .node 1)], .ofFields [("$ref", .str "b.json")]]⟩

-- Components that are a reference to components that refer back to them.
def circularComponents : Store :=
  ⟨#[
    .ofFields [("components", .node 1)],
    .ofFields [("$ref", .str "b.json#/components"), ("x-circular-ref", .node 2)],
    .ofFields []]⟩

-- Components that are their own schemas.
def ownSchemas : Store :=
  ⟨#[
    .ofFields [("components", .node 1), ("z", .node 2)],
    .ofFields [("schemas", .node 1), ("foo", .scalar (.int 5))],
    .ofFields [("$ref", .str "b.json")]]⟩

-- The log says that the component was bound, and in the end it is not.
def Loses (s : Store) (q : Request) (kind name : String) : Prop :=
  (kind, name) ∈ (references s q).events.filterMap announced? ∧
    binding? (references s q).store q.document kind name = none

instance (s : Store) (q : Request) (kind name : String) : Decidable (Loses s q kind name) :=
  inferInstanceAs (Decidable (_ ∧ _))

-- A component is adopted into a section that takes the place of a reference, into one that a mark takes
-- the place of, and into one that takes the place of a number.
theorem bindings_lost :
    Loses referredComponents (filesCall [("b.json",
      "\x7b\"x\":\x7b\"$ref\":\"#/components/$ref/X\"\x7d," ++
        "\"components\":\x7b\"$ref\":\x7b\"X\":\x7b\x7d\x7d\x7d\x7d")]) "$ref" "X" ∧
    Loses circularComponents (filesCall [("r.json", ""), ("b.json",
      "\x7b\"x\":\x7b\"$ref\":\"#/components/x-circular-ref/X\"\x7d,\"components\":\x7b" ++
        "\"$ref\":\"r.json#/components\",\"x-circular-ref\":\x7b\"X\":\x7b\x7d\x7d\x7d\x7d")])
      "x-circular-ref" "X" ∧
    binding? ownSchemas 0 "schemas" "foo" = some (.scalar (.int 5)) ∧
    binding? (references ownSchemas (filesCall [("b.json",
      "\x7b\"x\":\x7b\"$ref\":\"#/components/foo/X\"\x7d," ++
        "\"components\":\x7b\"foo\":\x7b\"X\":\x7b\x7d\x7d\x7d\x7d")])).store 0 "schemas" "foo" ≠
      some (.scalar (.int 5)) := by
  decide +kernel

end Call

end ApiGraph.Resolve
