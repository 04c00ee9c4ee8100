import ApiGraph.Proofs.Resolve.Bindings
import ApiGraph.Proofs.Resolve.Notes

namespace ApiGraph.Resolve

open Store Reference

section Marked

variable {s : Store} {q : Request}

-- The schema itself, or a mapping that the run makes a copy of it.
def IsVersion (h : History) (target : NodeId) (v : Value) : Prop :=
  v = .node target ∨ ∃ pre node ref name, pre ++ [.inline node target ref name] <+: h ∧ v = .node node

-- A schema that is registered under a free name is the component from then on.
theorem Request.HasAccount.binding?_of_free {h pre : History} {node target : NodeId} {ref n : String}
    (hh : q.HasAccount s h) (hdoc : (s.mapping? q.document).isSome)
    (hpre : pre ++ [.inline node target ref (some n)] <+: h) (hn : IsFixed n)
    (hfree : binding? (after q.context s (pre ++ [.inline node target ref (some n)])) q.document
      "schemas" n = none) :
    binding? (references s q).store q.document "schemas" n = some (.node target) := by
  have hbind : pre ++ [.inline node target ref (some n)] ++ [.bind "schemas" n target] <+: h := by
    rw [List.append_assoc]
    exact hh.registered pre node target ref n hpre
  have hroot := (hh.lawful.of_prefix hpre).root hdoc
  have htarget : ((after q.context s pre).mapping? target).isSome := by
    cases (hh.lawful.of_prefix hpre).last with
    | inline _ hresolves => exact hresolves.toMapping
  have hkept : Keeps (after q.context s pre) (after q.context s
      (pre ++ [.inline node target ref (some n)] ++ [.bind "schemas" n target])) :=
    (hh.lawful.of_prefix hbind).keeps hdoc ((List.prefix_append pre _).trans (List.prefix_append _ _))
  have hbound : binding? (after q.context s
      (pre ++ [.inline node target ref (some n)] ++ [.bind "schemas" n target])) q.document
      "schemas" n = some (.node target) := by
    rw [after_concat]
    refine binding?_bound (c := q.context) hroot (by decide) ?_ target
    rw [isBound_eq_isSome_binding?]
    exact congrArg Option.isSome hfree
  rw [hh.store]
  refine hh.lawful.binds hdoc (by decide) hn hbind hbound fun _ => ?_
  obtain ⟨m, hm⟩ := Option.isSome_iff_exists.mp (hkept.mapping target htarget)
  exact Option.isSome_of_eq_some (asMapping?_eq_some.mpr ⟨rfl, hm⟩)

-- The component whose name is noted on a copy is a version of the schema at the end exactly if nothing
-- but a version of it had the name when it was registered. The keys of a reference and of its mark do
-- not count as names here, nor does a value that is no mapping where the components are their own
-- schemas.
theorem noted_component_isVersion_iff (hdoc : (s.mapping? q.document).isSome) :
    ∃ h, q.HasAccount s h ∧ ∀ pre node target ref n,
      pre ++ [.inline node target ref (some n)] <+: h → IsFixed n →
      let now := after q.context s (pre ++ [.inline node target ref (some n)])
      (IsOwnSection now q.document "schemas" →
        ∀ v, binding? now q.document "schemas" n = some v → (now.asMapping? v).isSome) →
      ((∃ v, binding? (references s q).store q.document "schemas" n = some v ∧ IsVersion h target v) ↔
        ∀ v, binding? now q.document "schemas" n = some v → IsVersion h target v) := by
  obtain ⟨h, hh⟩ := exists_account hdoc
  refine ⟨h, hh, ?_⟩
  intro pre node target ref n hpre hn now hlasting
  cases hnow : binding? now q.document "schemas" n with
  | none =>
      have hend := hh.binding?_of_free hdoc hpre hn hnow
      exact iff_of_true ⟨_, hend, .inl rfl⟩ fun v hv => nomatch hv
  | some v =>
      have hend : binding? (references s q).store q.document "schemas" n = some v := by
        rw [hh.store]
        exact hh.lawful.binds hdoc (by decide) hn hpre hnow fun hown => hlasting hown v hnow
      constructor
      · rintro ⟨w, hw, hversion⟩ w' hw'
        cases hw'
        cases hend.symm.trans hw
        exact hversion
      · exact fun hall => ⟨v, hend, hall v rfl⟩

-- A note that the run made on a copy, as seen at the end: none was parsed, and no target has one.
theorem Request.HasHistory.exists_copy {h : History} {node : NodeId} {n : String}
    (hh : q.HasHistory s h) (hdoc : (s.mapping? q.document).isSome) (hnode : node < s.nodes.size)
    (hparsed : (s.entries node).text? resolvedRefKey = none)
    (hnote : ((references s q).store.entries node).text? resolvedRefKey = some (schemaPointer ++ n))
    (hmark : ((references s q).store.entries node).has circularRefKey = false)
    (htargets : ∀ e ∈ (references s q).events.filterMap inlining?,
      ((references s q).store.entries e.2).has resolvedRefKey = false) :
    ∃ pre target ref, pre ++ [.inline node target ref (some n)] <+: h := by
  rw [hh.store] at hnote hmark
  have lacks {pre : History} {id : NodeId} {key : String} (hpre : pre <+: h) (hkey : key ≠ refKey)
      (hhas : ((after q.context s h).entries id).has key = false) :
      ((after q.context s pre).entries id).get? (.str key) = none := by
    cases hget : ((after q.context s pre).entries id).get? (.str key) with
    | none => rfl
    | some v =>
        have hkept := isSome_get?_of_keeps (hh.lawful.keeps hdoc hpre) (str_beq_eq_false hkey)
          (Option.isSome_of_eq_some hget)
        rw [Entries.has, OrderedMap.contains_eq_isSome_get?, hkept] at hhas
        cases hhas
  cases hh.lawful.noteOrigin hdoc hnote with
  | parsed he hbirth ht =>
      rcases hbirth with rfl | ⟨e', key, d, read, rfl, hnew⟩
      · cases hparsed.symm.trans ht
      · have hstart := (hh.lawful.of_prefix ((List.prefix_append _ _).trans he)).keeps hdoc
          List.nil_prefix
        exact absurd hnew (Nat.not_le.mpr (Nat.lt_of_lt_of_le hnode hstart.size))
  | noted ht hn =>
      rw [String.append_right_inj] at ht
      subst ht
      cases hn with
      | copy he _ => exact ⟨_, _, _, he⟩
      | @mark e ref he hfree =>
          have hmarked := lacks he (by decide) hmark
          rw [(hh.lawful.of_prefix he).last.entries_marked, get?_markedContent_circularRefKey]
            at hmarked
          cases hmarked
  | @copied e target ref he ht =>
      have hnone := lacks ((List.prefix_append e _).trans he) (by decide)
        (hh.store ▸ htargets _ (hh.mem_inlinings he))
      simp [Entries.text?, Entries.field?, hnone] at ht

theorem IsOwnSection.mono {s' : Store} {document : NodeId} {kind : String}
    (hown : IsOwnSection s document kind) (hkeeps : Keeps s s') (hkind : IsFixed kind) :
    IsOwnSection s' document kind := by
  obtain ⟨p, m, m', hp, hq⟩ := hown
  obtain ⟨n, hn⟩ := hkeeps.fieldMapping? (by decide) (by decide) hp
  obtain ⟨n', hn'⟩ := hkeeps.fieldMapping? hkind.1 hkind.2 hq
  exact ⟨p, n, n', hn, hn'⟩

-- References to two schemas of one name, in their own document.
def sameName : Store :=
  ⟨#[
    .ofFields [("a", .node 1), ("b", .node 2), ("x", .node 3), ("y", .node 4)],
    .ofFields [("$ref", .str "r.json#/x/User")],
    .ofFields [("$ref", .str "r.json#/y/User")],
    .ofFields [("User", .node 5)],
    .ofFields [("User", .node 6)],
    .ofFields [("type", .str "string")],
    .ofFields [("type", .str "integer")]]⟩

-- Both copies have the same note, and the name was taken when the second schema was registered.
theorem sameName_confused : ∃ h, ownFileCall.HasAccount sameName h ∧
    ((references sameName ownFileCall).store.entries 1).text? resolvedRefKey =
      some "#/components/schemas/User" ∧
    ∃ pre ref, pre ++ [.inline 2 6 ref (some "User")] <+: h ∧
      (∃ v, binding? (after ownFileCall.context sameName (pre ++ [.inline 2 6 ref (some "User")])) 0
        "schemas" "User" = some v ∧ ¬IsVersion h 6 v) ∧
      ¬∃ v, binding? (references sameName ownFileCall).store 0 "schemas" "User" = some v ∧
        IsVersion h 6 v := by
  have hdoc : (sameName.mapping? ownFileCall.document).isSome := by decide
  obtain ⟨h, hh, hiff⟩ := @noted_component_isVersion_iff sameName ownFileCall hdoc
  have hcopies : (references sameName ownFileCall).events.filterMap inlining? = [(1, 5), (2, 6)] := by
    decide +kernel
  obtain ⟨pre, target, ref, hpre⟩ := @Request.HasHistory.exists_copy sameName ownFileCall h 2 "User"
    hh.toHasHistory hdoc (by decide) (by decide) (by decide +kernel) (by decide +kernel) (by
      rw [hcopies]
      decide +kernel)
  obtain rfl : target = 6 := by
    have hin := hh.mem_inlinings hpre
    rw [hcopies] at hin
    simpa using hin
  have hend : binding? (references sameName ownFileCall).store 0 "schemas" "User" =
      some (.node 5) := by decide +kernel
  have hother : ¬IsVersion h 6 (.node 5) := by
    rintro (hsame | ⟨e, node, ref', name, he, hnode⟩)
    · cases hsame
    · cases hnode
      have hin := hh.mem_inlinings he
      rw [hcopies] at hin
      simp at hin
  have hlost : ¬∃ v, binding? (references sameName ownFileCall).store 0 "schemas" "User" = some v ∧
      IsVersion h 6 v := by
    rintro ⟨v, hv, hversion⟩
    cases hend.symm.trans hv
    exact hother hversion
  have happart : ¬IsOwnSection (references sameName ownFileCall).store 0 "schemas" := by
    rintro ⟨p, m, m', hp, hq⟩
    have hsections : ((references sameName ownFileCall).store.entries 0).get? (.str "components") =
        some (.node 7) ∧
        ((references sameName ownFileCall).store.entries 7).get? (.str "schemas") = some (.node 8) := by
      decide +kernel
    cases hsections.1.symm.trans (fieldMapping?_eq_some.mp hp).1
    cases hsections.2.symm.trans (fieldMapping?_eq_some.mp hq).1
  obtain ⟨v, hv⟩ := Classical.not_forall.mp <|
    (hiff pre 2 6 ref "User" hpre (by decide) fun hown => by
      rw [hh.store] at happart
      exact absurd (hown.mono (hh.lawful.keeps hdoc hpre) (by decide)) happart).not.mp hlost
  exact ⟨h, hh, by decide +kernel, pre, ref, hpre, ⟨v, Classical.not_imp.mp hv⟩, hlost⟩

end Marked

section Kept

variable {c : Context} {s : Store} {files : List (String × NodeId)} {h k pre : History}
  {id node target : NodeId} {key : Key} {name : String} {v : Value}

-- What may give way is a value in a place.
theorem GivesWay.isPlace {s' : Store} {document : NodeId} (hg : GivesWay s s' document id name v) :
    IsPlace s document id := by
  rcases hg.place with ⟨rfl, -⟩ | ⟨m, hm⟩
  · exact .inl rfl
  · exact .inr ⟨id, m, hm, .inl rfl⟩

-- Elsewhere the values stay.
theorem Lawful.field_stays (hl : Lawful c s files (h ++ k)) (hdoc : (s.mapping? c.document).isSome)
    (hplace : ∀ e, e <+: h ++ k → ¬IsPlace (after c s e) c.document id) (hname : IsFixed name)
    (hv : ((after c s h).entries id).get? (.str name) = some v) :
    ((after c s (h ++ k)).entries id).get? (.str name) = some v := by
  refine hl.preserved (P := fun t => (t.entries id).get? (.str name) = some v) hdoc hv ?_
  intro e d _ hed _ hd hroot hold
  refine (hd.get?_of_some hroot hname hold).resolve_right fun hg => ?_
  exact hplace e ((List.prefix_append e [d]).trans hed) hg.isPlace

-- A mapping that has no external reference any more is not resolved again.
theorem Pending.isExternalRef {ref : String} (hp : Pending c s (h ++ k) id ref)
    (hl : Lawful c s files (h ++ k)) (hdoc : (s.mapping? c.document).isSome)
    (hplace : ∀ e, e <+: h ++ k → ¬IsPlace (after c s e) c.document id)
    (hid : id < (after c s h).nodes.size) : isExternalRef ((after c s h).entries id) = true := by
  obtain ⟨e, k', hek, hpending, hext, -, hk'⟩ := hp
  have href := (pendingRef?_eq_some hpending).1
  have he : e <+: h ++ k := hek ▸ List.prefix_append e k'
  refine isExternalRef_iff.mpr ⟨ref, ?_, hext⟩
  rcases List.prefix_or_prefix_of_prefix he (List.prefix_append h k) with ⟨mid, rfl⟩ | hlate
  · have hsettles : ∀ d ∈ mid, d.settles? ≠ some id := by
      rw [List.append_assoc, List.append_cancel_left_eq] at hek
      exact fun d hd => hk' d (hek ▸ List.mem_append_left k hd)
    have hpre : e ++ mid <+: e ++ mid ++ k := List.prefix_append _ _
    have hsame := (hl.of_prefix hpre).get?_since hdoc
      (lt_size_of_mapping? (Option.some_get (mapping?_of_ref? href)).symm)
      (fun e' he' => hplace e' (he'.trans hpre)) hsettles
    unfold entries mapping? at href ⊢
    rwa [hsame]
  · exact (hl.of_prefix he).ref? hdoc hlate hid href

section Call

variable {q : Request} {ref : String} {note : Option String}

-- What stood beside the reference, then the note, then what the target had: this is still so at the end.
theorem Request.HasAccount.get?_copy (hh : q.HasAccount s h) (hdoc : (s.mapping? q.document).isSome)
    (hpre : pre ++ [.inline node target ref note] <+: h)
    (hplace : ∀ e, e <+: h → ¬IsPlace (after q.context s e) q.document node)
    (hkey : (key == .str refKey) = false) :
    ((after q.context s h).entries node).get? key = (((after q.context s pre).entries node).get? key).or
      ((copyNote note key).or (((after q.context s pre).entries target).get? key)) := by
  obtain ⟨k, rfl⟩ := hpre
  have hdone := hh.lawful.of_prefix (List.prefix_append _ k)
  have hlegit := hdone.last
  cases hlegit with
  | inline _ hresolves =>
      obtain ⟨m, hm⟩ := Option.isSome_iff_exists.mp hresolves.isMapping
      have hlt := (hdone.keeps hdoc (List.prefix_append pre _)).size
      have hsame := hh.lawful.get?_since hdoc (Nat.lt_of_lt_of_le (lt_size_of_mapping? hm) hlt) hplace
        (hh.settles?_ne rfl rfl)
      rw [entries_of_mapping? hm, ← get?_replaced hm hkey]
      unfold entries mapping?
      rw [hsame, after_concat]
      rfl

-- So a value of a copy stood beside the reference, or the target has it at the end, too.
theorem Request.HasAccount.field_copy (hh : q.HasAccount s h) (hdoc : (s.mapping? q.document).isSome)
    (hpre : pre ++ [.inline node target ref note] <+: h)
    (hplace : ∀ e, e <+: h → ¬IsPlace (after q.context s e) q.document node)
    (htarget : ∀ e, e <+: h → ¬IsPlace (after q.context s e) q.document target)
    (hname : IsFixed name) (hother : name ≠ resolvedRefKey)
    (hv : ((after q.context s h).entries node).get? (.str name) = some v) :
    ((after q.context s pre).entries node).get? (.str name) = some v ∨
      ((after q.context s h).entries target).get? (.str name) = some v := by
  rw [hh.get?_copy hdoc hpre hplace (str_beq_eq_false hname.1),
    copyNote_eq_none (str_beq_eq_false hother), Option.none_or, Option.or_eq_some_iff] at hv
  refine hv.imp_right fun hcontent => ?_
  obtain ⟨k, rfl⟩ := (List.prefix_append pre _).trans hpre
  exact hh.lawful.field_stays hdoc htarget hname hcontent.2

-- What stands for a copy of a schema in later passes, where no note stood beside the reference.
theorem Request.HasAccount.referenceName?_copy {n : String} (hh : q.HasAccount s h)
    (hdoc : (s.mapping? q.document).isSome)
    (hpre : pre ++ [.inline node target ref (some n)] <+: h)
    (hplace : ∀ e, e <+: h → ¬IsPlace (after q.context s e) q.document node)
    (hfree : ((after q.context s pre).entries node).get? (.str resolvedRefKey) = none) :
    Reachability.referenceName? ((after q.context s h).entries node) = readBack? n := by
  have hdiffers : (Key.str resolvedRefKey == .str refKey) = false := by decide
  have hnote := hh.get?_copy hdoc hpre hplace hdiffers
  rw [hfree, Option.none_or] at hnote
  have hgone := hh.lawful.ref?_of_inlines? hdoc hpre rfl
  have htext : ((after q.context s h).entries node).text? resolvedRefKey =
      some (schemaPointer ++ n) := by
    simp [Entries.text?, Entries.field?, hnote, copyNote, Option.filter, Value.str, Value.string?]
  unfold Reachability.referenceName?
  rw [htext, hgone, Option.bind_some, schemaName?_schemaPointer]
  cases readBack? n with
  | none => rfl
  | some n' => rfl

end Call

end Kept

end ApiGraph.Resolve
