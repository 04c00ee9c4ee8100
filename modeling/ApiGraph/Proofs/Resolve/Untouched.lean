import ApiGraph.Proofs.Resolve.Adoption
import ApiGraph.Proofs.Resolve.Bindings

namespace ApiGraph.Resolve

open Store Reference

section InlinedToNothing

variable {c : Context} {s : Store} {files : List (String × NodeId)} {h e k : History} {j : NodeId}

-- The mapping was a reference, and it is empty once it is inlined.
def InlinedToNothing (c : Context) (s : Store) (h : History) (j : NodeId) : Prop :=
  ∃ pre target ref name, pre ++ [.inline j target ref name] <+: h ∧
    ((after c s (pre ++ [.inline j target ref name])).entries j).isEmpty = true

theorem InlinedToNothing.mono {h' : History} (hj : InlinedToNothing c s h j) (hpre : h <+: h') :
    InlinedToNothing c s h' j := by
  obtain ⟨pre, target, ref, name, hin, hempty⟩ := hj
  exact ⟨pre, target, ref, name, hin.trans hpre, hempty⟩

theorem exists_get?_of_isEmpty_eq_false {m : Entries} (h : m.isEmpty = false) :
    ∃ k, (m.get? k).isSome := by
  cases hl : m.entries with
  | nil => simp [OrderedMap.isEmpty, hl] at h
  | cons entry rest => exact ⟨entry.1, by simp [OrderedMap.get?, hl]⟩

theorem get?_eq_none_of_isEmpty {m : Entries} (h : m.isEmpty = true) (k : Key) : m.get? k = none := by
  refine Option.eq_none_iff_forall_ne_some.mpr fun v hv => ?_
  rw [OrderedMap.isEmpty_eq_false_of_get? hv] at h
  cases h

-- A mapping that is emptied has nothing left to lose but its reference.
theorem isSome_get?_refKey_of_emptied {s s' : Store} (hkeeps : Keeps s s')
    (hfull : (s.entries j).isEmpty = false) (hempty : (s'.entries j).isEmpty = true) :
    ((s.entries j).get? (.str refKey)).isSome := by
  obtain ⟨key, hkey⟩ := exists_get?_of_isEmpty_eq_false hfull
  cases hk : key == Key.str refKey with
  | true => rwa [OrderedMap.get?_congr hk] at hkey
  | false =>
      have hkept := isSome_get?_of_keeps hkeeps hk hkey
      rw [get?_eq_none_of_isEmpty hempty] at hkept
      cases hkept

-- A container that counts and then does not was a reference that is inlined to nothing.
theorem Lawful.inlinedToNothing (hl : Lawful c s files (e ++ k)) (hdoc : (s.mapping? c.document).isSome)
    (hbefore : (after c s e).isTruthy (.node j) = true)
    (hafter : (after c s (e ++ k)).isTruthy (.node j) = false) : InlinedToNothing c s (e ++ k) j := by
  have hkeeps := hl.keeps hdoc (List.prefix_append e k)
  cases hm : (after c s e).mapping? j with
  | none =>
      rw [hkeeps.toGrows.isTruthy hm hbefore] at hafter
      cases hafter
  | some m =>
      obtain ⟨m', hm'⟩ := hkeeps.exists_mapping? hm
      have hfull : ((after c s e).entries j).isEmpty = false := by
        simpa [isTruthy_of_mapping? hm, entries_of_mapping? hm] using hbefore
      have hempty : ((after c s (e ++ k)).entries j).isEmpty = true := by
        simpa [isTruthy_of_mapping? hm', entries_of_mapping? hm'] using hafter
      have href := isSome_get?_refKey_of_emptied hkeeps hfull hempty
      obtain ⟨d, hd, hinlines⟩ : ∃ d ∈ k, d.inlines? = some j := by
        by_contra hnever
        have hkept := hl.isSome_get?_refKey hdoc (fun d hd hin => hnever ⟨d, hd, hin⟩) href
        rw [get?_eq_none_of_isEmpty hempty] at hkept
        cases hkept
      obtain ⟨target, ref, name, rfl⟩ := Deed.inlines?_eq_some hinlines
      obtain ⟨mid, post, rfl⟩ := List.append_of_mem hd
      have hpre : e ++ mid ++ [.inline j target ref name] <+:
          e ++ (mid ++ .inline j target ref name :: post) := ⟨post, by simp⟩
      refine ⟨e ++ mid, target, ref, name, hpre, ?_⟩
      -- The reference is gone, so whatever else is left would be there at the end.
      obtain ⟨n, hn⟩ := Option.isSome_iff_exists.mp ((hl.of_prefix hpre).last.of_inlines? rfl).1
      have hgone : ((after c s (e ++ mid ++ [.inline j target ref name])).entries j).get?
          (.str refKey) = none := by
        rw [after_concat]
        exact get?_replaced_refKey hn BEq.rfl
      by_contra hleft
      have hsome := isSome_get?_refKey_of_emptied (hl.keeps hdoc hpre) (Bool.eq_false_iff.mpr hleft)
        hempty
      rw [hgone] at hsome
      cases hsome

end InlinedToNothing

section Untouched

variable {c : Context} {s : Store} {files : List (String × NodeId)} {h e pre : History}
  {id : NodeId} {ref : String} {x : Container} {m : Entries}

-- The mapping was parsed with an external reference and no mark that counted, or the mark is a reference
-- itself and became nothing.
def Resolvable (c : Context) (s : Store) (h e : History) (m : Entries) : Prop :=
  ∃ ref, m.ref? = some ref ∧ isExternal ref = true ∧
    (pendingRef? (after c s e) m = some ref ∨
      ∃ j, m.get? (.str circularRefKey) = some (.node j) ∧ InlinedToNothing c s h j)

theorem Resolvable.mono {h' : History} (hm : Resolvable c s h e m) (hpre : h <+: h') :
    Resolvable c s h' e m := by
  obtain ⟨ref, href, hext, hmark⟩ := hm
  refine ⟨ref, href, hext, hmark.imp_right fun hemptied => ?_⟩
  obtain ⟨j, hj, hempty⟩ := hemptied
  exact ⟨j, hj, hempty.mono hpre⟩

theorem Birth.prefix_of_lt (hl : Lawful c s files h) (hdoc : (s.mapping? c.document).isSome)
    (hbirth : Birth c s e id) (he : e <+: h) (hpre : pre <+: h)
    (hid : id < (after c s pre).nodes.size) : e <+: pre := by
  rcases hbirth with rfl | ⟨e', key, d, read, rfl, hnew⟩
  · exact List.nil_prefix
  · exact hl.load_prefix hdoc he hpre hnew hid

-- A mark that does not count when the reference is resolved did not count when it was parsed, or it is
-- emptied in between.
theorem resolvable_of_pendingRef? (hl : Lawful c s files (e ++ pre))
    (hdoc : (s.mapping? c.document).isSome) (hext : isExternal ref = true)
    (hpending : pendingRef? (after c s (e ++ pre)) m = some ref) :
    Resolvable c s (e ++ pre) e m := by
  obtain ⟨href, hmark⟩ := pendingRef?_eq_some hpending
  refine ⟨ref, href, hext, ?_⟩
  by_cases hnow : pendingRef? (after c s e) m = some ref
  · exact .inl hnow
  obtain ⟨v, hv, htruthy⟩ := truthy_of_pendingRef?_ne href hnow
  have hfalsy := hmark v hv
  cases v with
  | scalar a => exact absurd (htruthy.symm.trans hfalsy) (by decide)
  | pair a b => exact absurd (htruthy.symm.trans hfalsy) (by decide)
  | node j => exact .inr ⟨j, hv, hl.inlinedToNothing hdoc htruthy hfalsy⟩

-- Where no component is brought in, a reference that is being resolved was parsed with its mapping.
theorem Pending.resolvable (hp : Pending c s pre id ref) (hl : Lawful c s files h)
    (hdoc : (s.mapping? c.document).isSome) (hpre : pre <+: h)
    (hplace : ∀ e, e <+: h → ¬IsPlace (after c s e) c.document id) (he : e <+: h)
    (hbirth : Birth c s e id) (hx : (after c s e).get? id = some x) :
    ∃ m, x = .mapping m ∧ Resolvable c s pre e m := by
  have hbefore := hl.of_prefix hpre
  have hsettles := hp.unsettled hbefore hdoc fun e' he' => hplace e' (he'.trans hpre)
  obtain ⟨e₀, k, rfl, hpending, hext, -⟩ := hp
  have he₀ : e₀ <+: h := (List.prefix_append e₀ k).trans hpre
  obtain ⟨m, hm⟩ := Option.isSome_iff_exists.mp (mapping?_of_ref? (pendingRef?_eq_some hpending).1)
  have hborn : e <+: e₀ := hbirth.prefix_of_lt hl hdoc he he₀ (lt_size_of_mapping? hm)
  have hsame := (hl.of_prefix he₀).get? hdoc hborn (lt_size_of_get? hx)
    (fun e' he' => hplace e' (he'.trans he₀)) fun d hd => hsettles d (List.mem_append_left k hd)
  rw [mapping?_eq_some.mp hm, hx] at hsame
  obtain rfl := Option.some.inj hsame
  rw [entries_of_mapping? hm] at hpending
  obtain ⟨mid, rfl⟩ := hborn
  exact ⟨m, rfl, (resolvable_of_pendingRef? (hl.of_prefix he₀) hdoc hext hpending).mono
    (List.prefix_append _ k)⟩

end Untouched

section Call

variable {s : Store} {q : Request}

-- At any moment of a call, however it ends: sequences are as they were, and any other container that was
-- parsed is, too, unless it is a mapping that was the document, its components or one of their sections,
-- or a mapping whose external reference was to be resolved.
theorem untouched_or_resolvable (hdoc : (s.mapping? q.document).isSome) :
    ∃ h, q.HasHistory s h ∧
      (∀ e e' id items, e <+: e' → e' <+: h →
        (after q.context s e).get? id = some (.sequence items) →
        (after q.context s e').get? id = some (.sequence items)) ∧
      ∀ e e' id x, e <+: e' → e' <+: h → Birth q.context s e id →
        (after q.context s e).get? id = some x →
        (after q.context s e').get? id = some x ∨
          ∃ m, x = .mapping m ∧ ((∃ e'', e'' <+: e' ∧ IsPlace (after q.context s e'') q.document id) ∨
            Resolvable q.context s e' e m) := by
  obtain ⟨h, hh⟩ := exists_account hdoc
  refine ⟨h, hh.toHasHistory, fun e e' id items he he' hx => ?_, fun e e' id x he he' hbirth hx => ?_⟩
  · exact ((hh.lawful.of_prefix he').keeps hdoc he).other id _ hx (by simp [mapping?, hx])
  have hl := hh.lawful.of_prefix he'
  cases hm : (after q.context s e).mapping? id with
  | none => exact .inl ((hl.keeps hdoc he).other id x hx hm)
  | some m =>
      by_cases hplace : ∃ e'', e'' <+: e' ∧ IsPlace (after q.context s e'') q.document id
      · refine .inr ⟨m, ?_, .inl hplace⟩
        rw [mapping?_eq_some.mp hm] at hx
        exact (Option.some.inj hx).symm
      have hnever : ∀ e'', e'' <+: e' → ¬IsPlace (after q.context s e'') q.document id :=
        fun e'' hpre hin => hplace ⟨e'', hpre, hin⟩
      by_cases hsettles : ∃ d ∈ e', d.settles? = some id
      · obtain ⟨d, hd, hsettles⟩ := hsettles
        obtain ⟨pre, post, rfl⟩ := List.append_of_mem hd
        have hpre : pre ++ [d] <+: pre ++ d :: post := ⟨post, by simp⟩
        obtain ⟨ref, hp⟩ := hh.pending (hpre.trans he') hsettles
        obtain ⟨m, rfl, hresolvable⟩ :=
          hp.resolvable hl hdoc (List.prefix_append _ _) hnever he hbirth hx
        exact .inr ⟨m, rfl, .inr (hresolvable.mono (List.prefix_append _ _))⟩
      · refine .inl ((hl.get? hdoc he (lt_size_of_get? hx) hnever fun d hd hs => ?_).trans hx)
        exact hsettles ⟨d, hd, hs⟩

theorem Request.HasHistory.inlines?_ne {h : History} {p : NodeId} (hh : q.HasHistory s h)
    (hnone : p ∉ ((references s q).events.filterMap inlining?).map Prod.fst) :
    ∀ d ∈ h, d.inlines? ≠ some p := by
  rintro d hd hinlines
  obtain ⟨target, ref, name, rfl⟩ := Deed.inlines?_eq_some hinlines
  obtain ⟨pre, post, rfl⟩ := List.append_of_mem hd
  have hpre : pre ++ [.inline p target ref name] <+: pre ++ .inline p target ref name :: post :=
    ⟨post, by simp⟩
  exact hnone (List.mem_map.mpr ⟨_, hh.mem_inlinings hpre, rfl⟩)

-- In the end the components are this mapping, which was never a reference or marked as one, and the
-- other mapping is none of their sections.
def EndsAside (s : Store) (q : Request) (components id : NodeId) : Prop :=
  let s' := (references s q).store
  let m := s'.entries components
  (s'.entries q.document).get? (.str "components") = some (.node components) ∧
    (s'.mapping? components).isSome ∧ id ≠ q.document ∧ id ≠ components ∧ .node id ∉ m.values ∧
    m.has refKey = false ∧ m.has circularRefKey = false ∧
    components ∉ ((references s q).events.filterMap inlining?).map Prod.fst

instance (s : Store) (q : Request) (components id : NodeId) : Decidable (EndsAside s q components id) :=
  inferInstanceAs (Decidable (_ ∧ _))

theorem Request.HasHistory.not_isPlace {h : History} {id p : NodeId} (hh : q.HasHistory s h)
    (hdoc : (s.mapping? q.document).isSome) (hend : EndsAside s q p id) :
    ∀ e, e <+: h → ¬IsPlace (after q.context s e) q.document id := by
  obtain ⟨hcomponents, hmapping, hroot, hp, hsections, href, hmark, hinlined⟩ := hend
  rw [hh.store] at hcomponents hmapping hsections href hmark
  obtain ⟨mp, hmp⟩ := Option.isSome_iff_exists.mp hmapping
  have hfound := fieldMapping?_eq_some.mpr ⟨hcomponents, hmp⟩
  rw [entries_of_mapping? hmp] at hsections href hmark
  rintro e he (rfl | ⟨p', m', hp', hplace⟩)
  · exact hroot rfl
  have hkeeps := hh.lawful.keeps hdoc he
  obtain ⟨m'', hm''⟩ := hkeeps.fieldMapping? (by decide) (by decide) hp'
  rw [hfound] at hm''
  cases hm''
  rcases hplace with rfl | ⟨kind, n, hn⟩
  · exact hp rfl
  have hm := (fieldMapping?_eq_some.mp hp').2
  obtain ⟨hin, hid⟩ := fieldMapping?_eq_some.mp hn
  have absent {key : String} (hhas : mp.has key = false) {v : Value}
      (hv : mp.get? (.str key) = some v) : False := by
    rw [Entries.has, OrderedMap.contains_eq_isSome_get?, hv] at hhas
    cases hhas
  by_cases hkind : kind = refKey
  · -- A reference would still stand there.
    subst hkind
    obtain ⟨k, rfl⟩ := he
    have hkept := hh.lawful.isSome_get?_refKey hdoc
      (fun d hd => hh.inlines?_ne hinlined d (List.mem_append_right e hd))
      (Option.isSome_of_eq_some hin)
    obtain ⟨v, hv⟩ := Option.isSome_iff_exists.mp hkept
    rw [entries_of_mapping? hmp] at hv
    exact absent href hv
  · rw [entries_of_mapping? hm] at hin
    have marked {v : Value} (hk : (Key.str kind == .str circularRefKey) = true)
        (hv : mp.get? (.str kind) = some v) : False := by
      rw [OrderedMap.get?_congr hk] at hv
      exact absent hmark hv
    rcases hkeeps.value p m' mp _ _ hm hmp (str_beq_eq_false hkind) hin with
      hsame | ⟨hk, hv⟩ | ⟨j, -, hv, hk | hnone⟩
    · exact hsections (OrderedMap.mem_values_iff.mpr ⟨_, hsame⟩)
    · exact marked hk hv
    · exact marked hk hv
    · simp [asMapping?, hid] at hnone

-- The internal reference of the alias is as it was, at any moment.
theorem aliased_untouched : ∃ h, ownFileCall.HasHistory aliased h ∧ ∀ e, e <+: h →
    (after ownFileCall.context aliased e).get? 2 = some (.ofFields [("$ref", .str "#/u")]) := by
  have hdoc : (aliased.mapping? ownFileCall.document).isSome := by decide
  obtain ⟨h, hh, -, hall⟩ := @untouched_or_resolvable aliased ownFileCall hdoc
  have hend : EndsAside aliased ownFileCall 4 2 := by decide +kernel
  refine ⟨h, hh, fun e he => ?_⟩
  rcases hall [] e 2 _ List.nil_prefix he (.inl rfl) rfl with hsame | ⟨m, hm, ⟨e', he', hplace⟩ | hext⟩
  · exact hsame
  · exact absurd hplace (hh.not_isPlace hdoc hend e' (he'.trans he))
  · obtain ⟨ref, href, hexternal, -⟩ := hext
    cases hm
    cases href
    exact absurd hexternal (by decide)

-- The mark of an external reference is a reference to an empty mapping.
def vanishingMark : Store :=
  ⟨#[
    .ofFields [("first", .node 1), ("m", .node 2), ("e", .node 4), ("t", .node 5)],
    .ofFields [("$ref", .str "r.json#/m/x-circular-ref")],
    .ofFields [("$ref", .str "r.json#/t"), ("x-circular-ref", .node 3)],
    .ofFields [("$ref", .str "r.json#/e")],
    .ofFields [],
    .ofFields [("type", .str "string")]]⟩

-- The mark counts when it is parsed, and the reference is resolved nevertheless.
theorem vanishingMark_resolved :
    (vanishingMark.entries 2).get? (.str circularRefKey) = some (.node 3) ∧
      vanishingMark.isTruthy (.node 3) = true ∧
      ∃ h, ownFileCall.HasHistory vanishingMark h ∧
        (∀ e, e <+: h → ¬IsPlace (after ownFileCall.context vanishingMark e) 0 2) ∧
        (vanishingMark.entries 2).ref? = some "r.json#/t" ∧
        ((references vanishingMark ownFileCall).store.entries 2).ref? = none := by
  have hdoc : (vanishingMark.mapping? ownFileCall.document).isSome := by decide
  obtain ⟨h, hh⟩ := @exists_account vanishingMark ownFileCall hdoc
  have hend : EndsAside vanishingMark ownFileCall 6 2 := by decide +kernel
  exact ⟨by decide, by decide, h, hh.toHasHistory, hh.not_isPlace hdoc hend, by decide,
    by decide +kernel⟩

end Call

end ApiGraph.Resolve
