import ApiGraph.Proofs.Reference.SchemaName
import ApiGraph.Proofs.Resolve.Inlining
import ApiGraph.Proofs.Resolve.Sections
import ApiGraph.Reachability.Name

namespace ApiGraph.Resolve

open Store Reference

section Noted

variable (c : Context) (s : Store) (h : History)

-- A schema is copied, and registered under the name.
def Copied (n : String) : Prop :=
  ∃ e node target ref, e ++ [.inline node target ref (some n)] <+: h

-- The run notes the name in the mapping, which has no note yet.
inductive Noted (node : NodeId) (n : String) : Prop
  | copy {e : History} {target : NodeId} {ref : String}
      (he : e ++ [.inline node target ref (some n)] <+: h)
      (hfree : ((after c s e).entries node).get? (.str resolvedRefKey) = none) : Noted node n
  | mark {e : History} {ref : String} (he : e ++ [.mark node ref (some n)] <+: h)
      (hfree : ((after c s e).entries node).get? (.str resolvedRefKey) = none) : Noted node n

-- Where a note comes from: it was parsed, or the run made it, or it was copied along with a target.
inductive NoteOrigin (node : NodeId) (t : String) : Prop
  | parsed {e : History} (he : e <+: h) (hbirth : Birth c s e node)
      (ht : ((after c s e).entries node).text? resolvedRefKey = some t) : NoteOrigin node t
  | noted {n : String} (ht : t = schemaPointer ++ n) (hn : Noted c s h node n) : NoteOrigin node t
  | copied {e : History} {target : NodeId} {ref : String}
      (he : e ++ [.inline node target ref none] <+: h)
      (ht : ((after c s e).entries target).text? resolvedRefKey = some t) : NoteOrigin node t

end Noted

section Note

variable {c : Context} {s s' : Store} {files : List (String × NodeId)} {h : History}
  {node : NodeId} {n : String} {m : Entries}

-- A note is what stood there, or the name where nothing stood, or the note that is taken along.
theorem note_cases {name : Option String} {t : String} {taken : Option Value}
    (ht : ((m.get? (.str resolvedRefKey)).or ((copyNote name (.str resolvedRefKey)).or taken)).bind
      Value.string? = some t) :
    m.text? resolvedRefKey = some t ∨ m.get? (.str resolvedRefKey) = none ∧
      ((∃ n, name = some n ∧ t = schemaPointer ++ n) ∨
        name = none ∧ taken.bind Value.string? = some t) := by
  unfold Entries.text? Entries.field?
  cases hown : m.get? (.str resolvedRefKey) with
  | some v =>
      rw [hown, Option.some_or] at ht
      exact .inl ht
  | none =>
      rw [hown, Option.none_or, copyNote_resolvedRefKey] at ht
      refine .inr ⟨rfl, ?_⟩
      cases name with
      | none => exact .inr ⟨rfl, ht⟩
      | some n => exact .inl ⟨n, rfl, (Option.some.inj ht).symm⟩

theorem text?_markedContent_cases {name : Option String} {t : String}
    (ht : (markedContent m name).text? resolvedRefKey = some t) :
    m.text? resolvedRefKey = some t ∨ m.get? (.str resolvedRefKey) = none ∧
      ∃ n, name = some n ∧ t = schemaPointer ++ n := by
  unfold Entries.text? Entries.field? at ht
  rw [get?_markedContent (by decide), ← Option.or_none (o := copyNote _ _)] at ht
  refine (note_cases ht).imp_right fun ⟨hfree, hnew⟩ => ⟨hfree, hnew.resolve_right fun hnone => ?_⟩
  cases hnone.2

theorem text?_replaced_cases {target : NodeId} {name : Option String} {t : String}
    (hm : s.mapping? node = some m)
    (ht : ((replaced s node target name).entries node).text? resolvedRefKey = some t) :
    m.text? resolvedRefKey = some t ∨ m.get? (.str resolvedRefKey) = none ∧
      ((∃ n, name = some n ∧ t = schemaPointer ++ n) ∨
        name = none ∧ (s.entries target).text? resolvedRefKey = some t) := by
  unfold Entries.text? Entries.field? at ht
  rw [get?_replaced hm (by decide)] at ht
  exact note_cases ht

-- A note stays, up to a section that is made under its key.
theorem note_of_keeps (hkeeps : Keeps s s') (hm : s.mapping? node = some m)
    (hnote : m.get? (.str resolvedRefKey) = some (.str n)) :
    (s'.entries node).get? (.str resolvedRefKey) = some (.str n) ∨
      ∃ j, (s'.entries node).get? (.str resolvedRefKey) = some (.node j) := by
  obtain ⟨m', hm'⟩ := hkeeps.exists_mapping? hm
  rw [entries_of_mapping? hm']
  rcases hkeeps.value node m m' _ _ hm hm' (by decide) hnote with hsame | ⟨hwrong, -⟩ | ⟨j, -, hmade, -⟩
  · exact .inl hsame
  · cases hwrong
  · exact .inr ⟨j, hmade⟩

theorem Lawful.note (hl : Lawful c s files h) (hdoc : (s.mapping? c.document).isSome)
    (hn : Noted c s h node n) :
    ((after c s h).entries node).get? (.str resolvedRefKey) = some (.str (schemaPointer ++ n)) ∨
      ∃ j, ((after c s h).entries node).get? (.str resolvedRefKey) = some (.node j) := by
  -- The note stands there right behind the deed.
  obtain ⟨e, d, he, hnote⟩ : ∃ e d, e ++ [d] <+: h ∧
      ((after c s (e ++ [d])).entries node).get? (.str resolvedRefKey) =
        some (.str (schemaPointer ++ n)) := by
    cases hn with
    | @copy e target ref he hfree =>
        refine ⟨e, _, he, ?_⟩
        cases (hl.of_prefix he).last with
        | inline _ hresolves =>
            obtain ⟨m, hm⟩ := Option.isSome_iff_exists.mp hresolves.isMapping
            rw [entries_of_mapping? hm] at hfree
            rw [after_concat]
            show ((replaced (after c s e) node target (some n)).entries node).get? _ = _
            rw [get?_replaced hm (by decide), hfree, copyNote_resolvedRefKey]
            rfl
    | @mark e ref he hfree =>
        refine ⟨e, _, he, ?_⟩
        rw [(hl.of_prefix he).last.entries_marked, get?_markedContent (by decide), hfree,
          copyNote_resolvedRefKey]
        rfl
  obtain ⟨m, hm, hnote⟩ := exists_mapping?_of_get? hnote
  exact note_of_keeps (hl.keeps hdoc he) hm hnote

-- No other step makes a note.
theorem Lawful.noteOrigin (hl : Lawful c s files h) (hdoc : (s.mapping? c.document).isSome) {t : String}
    (ht : ((after c s h).entries node).text? resolvedRefKey = some t) : NoteOrigin c s h node t := by
  rcases came_of_after (P := fun r => (r.entries node).text? resolvedRefKey = some t) ht with
    hstart | ⟨e, d, he, hold, hin⟩
  · exact .parsed List.nil_prefix (.inl rfl) hstart
  have hbefore := hl.of_prefix ((List.prefix_append e [d]).trans he)
  have hb := (hl.of_prefix he).last.becomes node
  rw [← after_concat] at hb
  generalize hnew : (after c s (e ++ [d])).entries node = new at hb hin
  cases hb with
  | same _ => exact absurd hin hold
  | prepared => exact absurd (text?_of_ensureComponents (hbefore.root hdoc) hin) hold
  | bound kind name target => exact absurd (text?_of_bound (hbefore.root hdoc) hin) hold
  | read hsize => exact .parsed he (.inr ⟨e, _, _, _, rfl, hsize⟩) (hnew ▸ hin)
  | marked ref name _ =>
      obtain ⟨hfree, n, rfl, rfl⟩ := (text?_markedContent_cases hin).resolve_left hold
      exact .noted rfl (.mark he hfree)
  | inlined target ref name hid =>
      obtain ⟨m, hm⟩ := Option.isSome_iff_exists.mp hid
      rw [entries_of_mapping? hm] at hin hold
      rw [← entries_replaced hm] at hin
      obtain ⟨hfree, ⟨n, rfl, rfl⟩ | ⟨rfl, htaken⟩⟩ :=
        (text?_replaced_cases hm hin).resolve_left hold
      · exact .noted rfl (.copy he (entries_of_mapping? hm ▸ hfree))
      · exact .copied he htaken

-- What reachability and naming read where the note is.
theorem referenceName?_of_note {m : Entries}
    (hnote : m.get? (.str resolvedRefKey) = some (.str (schemaPointer ++ n))) (hplain : IsPlain n)
    (hne : n ≠ "") : Reachability.referenceName? m = some n := by
  unfold Reachability.referenceName?
  have htext : m.text? resolvedRefKey = some (schemaPointer ++ n) := by
    simp [Entries.text?, Entries.field?, hnote, Value.str, Value.string?]
  rw [htext, Option.bind_some, schemaName?_schemaPointer, readBack?_eq_self_iff.mpr ⟨hplain, hne⟩]
  rfl

end Note

section Call

variable {s : Store} {q : Request}

theorem Request.HasAccount.isBound {h : History} {n : String} (hh : q.HasAccount s h)
    (hdoc : (s.mapping? q.document).isSome) (hn : Copied h n) (hname : n ≠ refKey) :
    isBound q.context (references s q).store "schemas" n = true := by
  obtain ⟨e, node, target, ref, he⟩ := hn
  have hbind := hh.registered e node target ref n he
  rw [hh.store]
  refine Keeps.isBound (hh.lawful.keeps hdoc hbind) (by decide) hname ?_
  have hsplit : e ++ [.inline node target ref (some n), .bind "schemas" n target] =
      (e ++ [.inline node target ref (some n)]) ++ [.bind "schemas" n target] := by simp
  rw [hsplit, after_concat]
  exact isBound_bound ((hh.lawful.of_prefix he).root hdoc) (by decide) n target

-- All notes were parsed or made by the run or copied with a target. A name that the run noted is read
-- back and is a component, unless it is not read back as it is, or it is the key of references, or a
-- section took the place of the note, or it was noted on a mark alone.
theorem noted_name_bound_or (hdoc : (s.mapping? q.document).isSome) :
    ∃ h, q.HasHistory s h ∧
      (∀ node t, ((references s q).store.entries node).text? resolvedRefKey = some t →
        NoteOrigin q.context s h node t) ∧
      ∀ node n, Noted q.context s h node n →
        (Reachability.referenceName? ((references s q).store.entries node) = some n ∧
          isBound q.context (references s q).store "schemas" n = true) ∨
        readBack? n ≠ some n ∨ n = refKey ∨
        (∃ j, ((references s q).store.entries node).get? (.str resolvedRefKey) = some (.node j)) ∨
        (∃ e ref, e ++ [.mark node ref (some n)] <+: h) ∧ ¬Copied h n := by
  obtain ⟨h, hh⟩ := exists_account hdoc
  refine ⟨h, hh.toHasHistory, fun node t ht => ?_, fun node n hn => ?_⟩
  · rw [hh.store] at ht
    exact hh.lawful.noteOrigin hdoc ht
  by_cases hplain : readBack? n = some n
  swap
  · exact .inr (.inl hplain)
  by_cases hname : n = refKey
  · exact .inr (.inr (.inl hname))
  rcases hh.lawful.note hdoc hn with hnote | hmade
  swap
  · exact .inr (.inr (.inr (.inl (by rw [hh.store]; exact hmade))))
  by_cases hcopied : Copied h n
  · obtain ⟨hread, hne⟩ := readBack?_eq_self_iff.mp hplain
    rw [← hh.store] at hnote
    exact .inl ⟨referenceName?_of_note hnote hread hne, hh.isBound hdoc hcopied hname⟩
  · cases hn with
    | copy he _ => exact absurd ⟨_, _, _, _, he⟩ hcopied
    | mark he _ => exact .inr (.inr (.inr (.inr ⟨⟨_, _, he⟩, hcopied⟩)))

-- What the log says was copied.
def inlinedTarget? : Event → Option NodeId
  | .inlined _ target _ => some target
  | _ => none

-- A reference with an escaped slash in its pointer, in its own document.
def escapedName : Store :=
  ⟨#[
    .ofFields [("a", .node 1), ("t", .node 2)],
    .ofFields [("$ref", .str "r.json#/t~1u")],
    .ofFields [("u", .node 3)],
    .ofFields [("type", .str "string")]]⟩

-- The copy is noted under the name, and what is read back is no component.
theorem escapedName_lost : ∃ h, ownFileCall.HasHistory escapedName h ∧
    Noted ownFileCall.context escapedName h 1 "t/u" ∧
    readBack? "t/u" ≠ some "t/u" ∧
    Reachability.referenceName? ((references escapedName ownFileCall).store.entries 1) =
      some "u" ∧
    isBound ownFileCall.context (references escapedName ownFileCall).store "schemas" "u" =
      false := by
  have hdoc : (escapedName.mapping? ownFileCall.document).isSome := by decide
  obtain ⟨h, hh, horigin, hbound⟩ := @noted_name_bound_or escapedName ownFileCall hdoc
  have hnote : ((references escapedName ownFileCall).store.entries 1).text? resolvedRefKey =
      some "#/components/schemas/t/u" := by decide +kernel
  have hn : Noted ownFileCall.context escapedName h 1 "t/u" := by
    cases horigin 1 _ hnote with
    | parsed he hbirth ht =>
        rcases hbirth with rfl | ⟨e', key, d, read, rfl, hnew⟩
        · exact absurd ht (by decide)
        · have hstart := (hh.lawful.of_prefix ((List.prefix_append _ _).trans he)).keeps hdoc
            List.nil_prefix
          exact absurd hnew (Nat.not_le.mpr (Nat.lt_of_lt_of_le (by decide) hstart.size))
    | noted ht hn =>
        have hname := (String.append_right_inj schemaPointer).mp
          (ht.symm.trans (show _ = schemaPointer ++ "t/u" by decide))
        exact hname ▸ hn
    | @copied e target ref he ht =>
        -- The target is the schema, and it has no note at the end.
        have htargets : (references escapedName ownFileCall).events.filterMap inlinedTarget? = [3] := by
          decide +kernel
        have hevent : .inlined 1 target ref ∈ (references escapedName ownFileCall).events :=
          hh.mem_events he rfl
        have hin : target ∈
            (references escapedName ownFileCall).events.filterMap inlinedTarget? :=
          List.mem_filterMap.mpr ⟨_, hevent, rfl⟩
        rw [htargets, List.mem_singleton] at hin
        subst hin
        have hsome : (((after ownFileCall.context escapedName e).entries 3).get?
            (.str resolvedRefKey)).isSome := by
          cases hget : ((after ownFileCall.context escapedName e).entries 3).get?
              (.str resolvedRefKey) with
          | some v => rfl
          | none => simp [Entries.text?, Entries.field?, hget] at ht
        have hkept := isSome_get?_of_keeps (k := .str resolvedRefKey)
          (hh.lawful.keeps hdoc ((List.prefix_append e _).trans he)) (by decide) hsome
        rw [← hh.store] at hkept
        exact absurd hkept (by decide +kernel)
  have hread : readBack? "t/u" ≠ some "t/u" := by decide
  have hname : Reachability.referenceName?
      ((references escapedName ownFileCall).store.entries 1) = some "u" := by decide +kernel
  refine ⟨h, hh, hn, hread, hname, ?_⟩
  decide +kernel

end Call

end ApiGraph.Resolve
