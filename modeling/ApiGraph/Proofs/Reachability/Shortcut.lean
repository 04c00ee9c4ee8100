import ApiGraph.Proofs.Reachability.Closure
import ApiGraph.Proofs.Resolve.Copies

namespace ApiGraph.Reachability

open Store Resolve Reference

section Parts

variable {s : Store} {m m' : Entries} {w : Value}

def partKeys : List String := compositionKeys ++ ["items", "properties"]

-- The parts that the value under a key holds.
def partsUnder (s : Store) (key : String) (v : Value) : List Value :=
  if key = "items" then [v]
  else if key = "properties" then ((s.asMapping? v).map fun e => e.2.values).getD []
  else (s.asSequence? v).getD []

theorem mem_parts_iff : w ∈ parts s m ↔
    ∃ key ∈ partKeys, ∃ v, m.field? key = some v ∧ w ∈ partsUnder s key v := by
  have hproperties : w ∈ (properties s m).values ↔
      ∃ v, m.field? "properties" = some v ∧ w ∈ partsUnder s "properties" v := by
    unfold properties partsUnder
    cases m.field? "properties" with
    | none => simp [OrderedMap.values]
    | some v => cases hv : s.asMapping? v <;> simp [hv, OrderedMap.values]
  have hitems : w ∈ (m.field? "items").toList ↔
      ∃ v, m.field? "items" = some v ∧ w ∈ partsUnder s "items" v := by
    unfold partsUnder
    cases m.field? "items" with
    | none => simp
    | some v => simp
  have hbranches {key : String} (hkey : key ∈ compositionKeys) : w ∈ branches s m key ↔
      ∃ v, m.field? key = some v ∧ w ∈ partsUnder s key v := by
    have hne : key ≠ "items" ∧ key ≠ "properties" := by
      constructor <;> rintro rfl <;> revert hkey <;> decide
    unfold branches partsUnder
    simp only [if_neg hne.1, if_neg hne.2]
    cases m.field? key with
    | none => simp
    | some v => simp
  simp only [parts, partKeys, List.mem_append, List.mem_flatMap, hproperties, hitems, List.mem_cons,
    List.not_mem_nil, or_false]
  constructor
  · rintro ((⟨key, hkey, hw⟩ | hw) | hw)
    · exact ⟨key, .inl hkey, (hbranches hkey).mp hw⟩
    · exact ⟨_, .inr (.inl rfl), hw⟩
    · exact ⟨_, .inr (.inr rfl), hw⟩
  · rintro ⟨key, hkey | rfl | rfl, hw⟩
    · exact .inl (.inl ⟨key, hkey, (hbranches hkey).mpr hw⟩)
    · exact .inl (.inr hw)
    · exact .inr hw

-- The value is a part, to any nesting.
inductive Down (s : Store) (u : Value) : Value → Prop
  | refl : Down s u u
  | part {v w : Value} {id : NodeId} {m : Entries} (h : Down s u v)
      (hv : s.asMapping? v = some (id, m)) (hw : w ∈ parts s m) : Down s u w

theorem Through.down {u v : Value} (h : Through s u v) : Down s u v := by
  induction h with
  | refl => exact .refl
  | part _ hv _ hw ih => exact .part ih hv hw

-- The component's name stands in the note of the mapping or in its reference.
def Mentions (m : Entries) (name : String) : Prop :=
  (m.text? resolvedRefKey).bind schemaName? = some name ∨ m.ref?.bind schemaName? = some name

-- The note comes first.
theorem Mentions.referenceName? {name : String} (h : Mentions m name) :
    referenceName? m = some name ∨ ∃ other, other ≠ name ∧ referenceName? m = some other := by
  unfold Reachability.referenceName?
  rcases h with hnote | href
  · exact .inl (by rw [hnote]; rfl)
  · cases hnote : (m.text? resolvedRefKey).bind schemaName? with
    | none => exact .inl (by rw [href]; rfl)
    | some other =>
        by_cases hsame : other = name
        · exact .inl (by rw [hsame]; rfl)
        · exact .inr ⟨other, hsame, rfl⟩

end Parts

section Astray

variable (s : Store) (q : Request) (h : History)

-- The run copied the schema to the mapping and noted the name there, as no note stood there yet.
structure Notes (pre : History) (id target : NodeId) (n : String) : Prop where
  copy : ∃ ref, pre ++ [.inline id target ref (some n)] <+: h
  free : ((after q.context s pre).entries id).get? (.str resolvedRefKey) = none

-- Why a part of a mapping that names a component is not walked with that component.
inductive Astray (w : Value) : NodeId → Prop
  -- The name was not noted by the run, and it is not the mapping's own.
  | written {id : NodeId} {m : Entries} (hm : (references s q).store.mapping? id = some m)
      (hbody : isOwnBody (registryOf (references s q).store q.document) id m = false)
      (hnever : ∀ pre target n, ¬Notes s q h pre id target n) : Astray w id
  -- The part stood beside the reference.
  | beside {id target : NodeId} {pre : History} {n key : String} {v : Value}
      (hnotes : Notes s q h pre id target n) (hkey : key ∈ partKeys)
      (hv : ((after q.context s pre).entries id).get? (.str key) = some v)
      (hw : w ∈ partsUnder (references s q).store key v) : Astray w id
  -- Later passes read another name, or none.
  | misread {id target : NodeId} {pre : History} {n : String} (hnotes : Notes s q h pre id target n)
      (hread : readBack? n ≠ some n) : Astray w id
  -- The component is not the schema that was copied.
  | taken {id target : NodeId} {pre : History} {n : String} (hnotes : Notes s q h pre id target n)
      (hbinding : binding? (references s q).store q.document "schemas" n ≠ some (.node target)) :
      Astray w id
  -- The component is an array, and the part is not its items.
  | side {id target : NodeId} {n : String} {m content : Entries}
      (hm : (references s q).store.mapping? id = some m) (hn : referenceName? m = some n)
      (hbinding : binding? (references s q).store q.document "schemas" n = some (.node target))
      (hcontent : (references s q).store.mapping? target = some content)
      (harray : isArray (references s q).store content = true)
      (hw : w ∈ sideParts (references s q).store content) : Astray w id
  -- The schema that was copied names a component itself, and the part is not walked with that one.
  | through {id target : NodeId} {pre : History} {n : String} (hnotes : Notes s q h pre id target n)
      (hastray : Astray w target) : Astray w id
  -- Components were brought into the copy or into the schema.
  | place {id target : NodeId} {pre e : History} {n : String} (hnotes : Notes s q h pre id target n)
      (he : e <+: h) (hplace : IsPlace (after q.context s e) q.document id ∨
        IsPlace (after q.context s e) q.document target) : Astray w id

end Astray

section Walked

variable {s : Store} {q : Request} {h : History} {settings : ReachabilitySettings}

theorem field?_registryOf (s : Store) (document : NodeId) (name : String) :
    (registryOf s document).field? name = binding? s document "schemas" name := by
  unfold registryOf binding? Store.registry?
  cases s.components? document "schemas" with
  | none => rfl
  | some e => rfl

-- A value above was left aside without a limit.
def IsLeft (s : Store) (p : Progress) (w : Value) : Prop := ∃ u ∈ p.passedOver, Down s u w

theorem IsLeft.part {p : Progress} {v w : Value} {id : NodeId} {m : Entries} (hl : IsLeft s p v)
    (hv : s.asMapping? v = some (id, m)) (hw : w ∈ parts s m) : IsLeft s p w := by
  obtain ⟨u, hu, hdown⟩ := hl
  exact ⟨u, hu, .part hdown hv hw⟩

-- The names of demanded values are collected.
theorem mem_names_or_isLeft {document id : NodeId} {m : Entries} {v : Value} {n : String}
    (hlimits : (collect s settings document).limits = [])
    (hv : Demanded s document (collect s settings document).names v)
    (hm : s.asMapping? v = some (id, m)) (hn : referenceName? m = some n) :
    .str n ∈ (collect s settings document).names ∨ IsLeft s (collect s settings document) v := by
  refine (mem_or_passedOver (agenda_collect hlimits) rfl
    (fun seed hs => List.mem_map_of_mem hs) hv hm hn).imp_right fun hpassed => ?_
  obtain ⟨u, hu, -, hthrough⟩ := hpassed
  exact ⟨u, hu, hthrough.down⟩

-- The body of a component, as far as it is walked, or else what it names itself.
theorem demanded_of_component {document target : NodeId} {names : List Key} {n : String}
    {content : Entries} {w : Value} (hn : .str n ∈ names)
    (hbinding : binding? s document "schemas" n = some (.node target))
    (hcontent : s.mapping? target = some content) (hw : w ∈ parts s content) :
    Demanded s document names w ∨ isArray s content = true ∧ w ∈ sideParts s content ∨
      ∃ n', referenceName? content = some n' ∧
        isOwnBody (registryOf s document) target content = false ∧
        isArray s content = false ∧ Demanded s document names (.node target) := by
  have hnode : s.asMapping? (.node target) = some (target, content) :=
    asMapping?_eq_some.mpr ⟨rfl, hcontent⟩
  have hbody : bodyOf s (registryOf s document) (.str n) =
      if isArray s content then (content.field? "items").toList
      else if isOwnBody (registryOf s document) target content then parts s content
      else [.node target] := by
    have hfield : (registryOf s document).get? (.str n) = some (.node target) :=
      (field?_registryOf s document n).trans hbinding
    unfold bodyOf
    rw [hfield, Option.bind_some, hnode]
  cases harray : isArray s content with
  | true =>
      rw [if_pos harray] at hbody
      rcases mem_parts.mp hw with hitems | hside
      · exact .inl (.component hn (hbody ▸ hitems))
      · exact .inr (.inl ⟨rfl, hside⟩)
  | false =>
      rw [if_neg (by simp [harray])] at hbody
      cases hown : isOwnBody (registryOf s document) target content with
      | true =>
          rw [if_pos hown] at hbody
          exact .inl (.component hn (hbody ▸ hw))
      | false =>
          rw [if_neg (by simp [hown])] at hbody
          have htarget : Demanded s document names (.node target) :=
            .component hn (hbody ▸ List.mem_singleton_self _)
          cases hn' : referenceName? content with
          | none => exact .inl (.part htarget hnode hn' hw)
          | some n' => exact .inr (.inr ⟨n', rfl, rfl, rfl, htarget⟩)

-- A schema is a copy before it is copied itself.
theorem Notes.length_lt {pre pre' : History} {id target target' : NodeId} {n n' : String}
    (hnotes : Notes s q h pre id target n) (hnotes' : Notes s q h pre' target target' n')
    (hh : q.HasAccount s h) (hdoc : (s.mapping? q.document).isSome)
    (hplace : ∀ e, e <+: h → ¬IsPlace (after q.context s e) q.document target) :
    pre'.length < pre.length := by
  obtain ⟨ref, hpre⟩ := hnotes.copy
  obtain ⟨ref', hpre'⟩ := hnotes'.copy
  have hbefore' : pre' <+: h := (List.prefix_append pre' _).trans hpre'
  have hearly : ¬pre <+: pre' := by
    rintro ⟨k, rfl⟩
    have hlegit := (hh.lawful.of_prefix hpre).last
    cases hlegit with
    | inline _ hresolves =>
        obtain ⟨m, hm⟩ := Option.isSome_iff_exists.mp hresolves.toMapping
        obtain ⟨r, hpending⟩ := hh.pending hpre' rfl
        have hext := hpending.isExternalRef (hh.lawful.of_prefix hbefore') hdoc
          (fun e he => hplace e (he.trans hbefore')) (lt_size_of_mapping? hm)
        rw [hresolves.plain] at hext
        cases hext
  rcases List.prefix_or_prefix_of_prefix hbefore' ((List.prefix_append pre _).trans hpre) with
    hle | hge
  · exact Nat.lt_of_le_of_ne hle.length_le fun hlength =>
      hearly (List.IsPrefix.eq_of_length hle hlength ▸ List.prefix_rfl)
  · exact absurd hge hearly

-- The parts of a copy stood beside the reference, or they are those of the schema.
theorem Notes.beside_or_part {pre : History} {id target : NodeId} {n : String} {m content : Entries}
    {w : Value} (hnotes : Notes s q h pre id target n) (hh : q.HasAccount s h)
    (hdoc : (s.mapping? q.document).isSome)
    (hid : ∀ e, e <+: h → ¬IsPlace (after q.context s e) q.document id)
    (htarget : ∀ e, e <+: h → ¬IsPlace (after q.context s e) q.document target)
    (hm : (references s q).store.mapping? id = some m)
    (hcontent : (references s q).store.mapping? target = some content)
    (hw : w ∈ parts (references s q).store m) :
    Astray s q h w id ∨ w ∈ parts (references s q).store content := by
  obtain ⟨ref, hpre⟩ := hnotes.copy
  obtain ⟨key, hkey, v, hv, hwv⟩ := mem_parts_iff.mp hw
  have hfixed : ∀ key ∈ partKeys, IsFixed key ∧ key ≠ resolvedRefKey := by decide
  have hvalue := hh.field_copy hdoc hpre hid htarget (hfixed key hkey).1 (hfixed key hkey).2 (v := v)
  rw [← hh.store, entries_of_mapping? hm, entries_of_mapping? hcontent] at hvalue
  rcases hvalue hv with hbeside | htaken
  · exact .inl (.beside hnotes hkey hbeside hwv)
  · exact .inr (mem_parts_iff.mpr ⟨key, hkey, v, htaken, hwv⟩)

-- A part of a copy is walked with the component of its name, or astray, or a part of the schema, which
-- names a component itself.
theorem Notes.demanded_or_astray {pre : History} {id target : NodeId} {n n' : String} {m : Entries}
    {names : List Key} {w : Value} (hnotes : Notes s q h pre id target n') (hh : q.HasAccount s h)
    (hdoc : (s.mapping? q.document).isSome) (hin : .str n ∈ names)
    (hm : (references s q).store.mapping? id = some m) (hn : referenceName? m = some n)
    (hw : w ∈ parts (references s q).store m) :
    Demanded (references s q).store q.document names w ∨ Astray s q h w id ∨
      ∃ content, (references s q).store.mapping? target = some content ∧
        w ∈ parts (references s q).store content ∧
        Demanded (references s q).store q.document names (.node target) ∧
        ∀ e, e <+: h → ¬IsPlace (after q.context s e) q.document target := by
  by_cases hread : readBack? n' = some n'
  swap
  · exact .inr (.inl (.misread hnotes hread))
  by_cases hplace : ∃ e, e <+: h ∧ (IsPlace (after q.context s e) q.document id ∨
      IsPlace (after q.context s e) q.document target)
  · obtain ⟨e, he, hplace⟩ := hplace
    exact .inr (.inl (.place hnotes he hplace))
  by_cases hbinding : binding? (references s q).store q.document "schemas" n' = some (.node target)
  swap
  · exact .inr (.inl (.taken hnotes hbinding))
  have hid : ∀ e, e <+: h → ¬IsPlace (after q.context s e) q.document id :=
    fun e he hin => hplace ⟨e, he, .inl hin⟩
  have htarget : ∀ e, e <+: h → ¬IsPlace (after q.context s e) q.document target :=
    fun e he hin => hplace ⟨e, he, .inr hin⟩
  obtain ⟨ref, hpre⟩ := hnotes.copy
  have hname := hh.referenceName?_copy hdoc hpre hid hnotes.free
  rw [← hh.store, entries_of_mapping? hm, hn, hread] at hname
  cases hname
  have hmapping : ((references s q).store.mapping? target).isSome := by
    rw [hh.store]
    have hlegit := (hh.lawful.of_prefix hpre).last
    cases hlegit with
    | inline _ hresolves =>
        exact (hh.lawful.keeps hdoc ((List.prefix_append pre _).trans hpre)).mapping target
          hresolves.toMapping
  obtain ⟨content, hcontent⟩ := Option.isSome_iff_exists.mp hmapping
  rcases hnotes.beside_or_part hh hdoc hid htarget hm hcontent hw with hastray | hpart
  · exact .inr (.inl hastray)
  rcases demanded_of_component hin hbinding hcontent hpart with
    hdemanded | ⟨harray, hside⟩ | ⟨-, -, -, -, hdemanded⟩
  · exact .inl hdemanded
  · exact .inr (.inl (.side hm hn hbinding hcontent harray hside))
  · exact .inr (.inr ⟨content, hcontent, hpart, hdemanded, htarget⟩)

-- A part of a demanded mapping is demanded, or left aside, or the mapping names a component and the part
-- is not walked with that. The induction is on when the mapping became a copy: the schema that it is a
-- copy of may be one itself.
theorem demanded_or_astray (hh : q.HasAccount s h) (hdoc : (s.mapping? q.document).isSome)
    (hlimits : (collect (references s q).store settings q.document).limits = []) (bound : Nat) :
    ∀ id m w, (∀ pre target n, Notes s q h pre id target n → pre.length < bound) →
      Demanded (references s q).store q.document
        (collect (references s q).store settings q.document).names (.node id) →
      (references s q).store.mapping? id = some m → w ∈ parts (references s q).store m →
      Demanded (references s q).store q.document
          (collect (references s q).store settings q.document).names w ∨
        IsLeft (references s q).store (collect (references s q).store settings q.document) w ∨
        Astray s q h w id := by
  induction bound using Nat.strongRecOn with
  | ind bound ih =>
      intro id m w hbound hv hm hw
      have hnode : (references s q).store.asMapping? (.node id) = some (id, m) :=
        asMapping?_eq_some.mpr ⟨rfl, hm⟩
      cases hn : referenceName? m with
      | none => exact .inl (.part hv hnode hn hw)
      | some n =>
          rcases mem_names_or_isLeft hlimits hv hnode hn with hin | hleft
          swap
          · exact .inr (.inl (hleft.part hnode hw))
          by_cases hown : isOwnBody (registryOf (references s q).store q.document) id m = true
          · have hbinding : binding? (references s q).store q.document "schemas" n =
                some (.node id) := by
              rw [← field?_registryOf]
              simpa [isOwnBody, hn] using hown
            rcases demanded_of_component hin hbinding hm hw with
              hpart | ⟨harray, hside⟩ | ⟨-, -, hother, -⟩
            · exact .inl hpart
            · exact .inr (.inr (.side hm hn hbinding hm harray hside))
            · rw [hown] at hother
              cases hother
          by_cases hnotes : ∃ pre target n', Notes s q h pre id target n'
          · obtain ⟨pre, target, n', hnotes⟩ := hnotes
            rcases hnotes.demanded_or_astray hh hdoc hin hm hn hw with
              hpart | hastray | ⟨content, hcontent, hpart, htarget, hplace⟩
            · exact .inl hpart
            · exact .inr (.inr hastray)
            · have hearlier := ih pre.length (hbound pre target n' hnotes) target content w
                (fun _ _ _ hnotes' => hnotes.length_lt hnotes' hh hdoc hplace) htarget hcontent hpart
              exact hearlier.imp_right fun hrest => hrest.imp_right fun hastray =>
                .through hnotes hastray
          · refine .inr (.inr (.written hm (by simpa using hown) fun pre target n' hn' => ?_))
            exact hnotes ⟨pre, target, n', hn'⟩

-- Somewhere on the way down is a part that is not walked with the component of the mapping around it.
def IsAstray (s : Store) (q : Request) (h : History) (u v : Value) : Prop :=
  ∃ x content w, Down (references s q).store u (.node x) ∧
    (references s q).store.mapping? x = some content ∧ w ∈ parts (references s q).store content ∧
    Astray s q h w x ∧ Down (references s q).store w v

theorem IsAstray.part {u v w : Value} {id : NodeId} {m : Entries} (ha : IsAstray s q h u v)
    (hv : (references s q).store.asMapping? v = some (id, m))
    (hw : w ∈ parts (references s q).store m) : IsAstray s q h u w := by
  obtain ⟨x, content, y, hx, hcontent, hy, hastray, hyv⟩ := ha
  exact ⟨x, content, y, hx, hcontent, hy, hastray, .part hyv hv hw⟩

-- What stands below a response body is demanded, or left aside, or astray.
theorem demanded_or_isAstray {seed : Seed} {v : Value} (hh : q.HasAccount s h)
    (hdoc : (s.mapping? q.document).isSome)
    (hlimits : (collect (references s q).store settings q.document).limits = [])
    (hseed : seed ∈ seeds (references s q).store q.document)
    (hv : Down (references s q).store seed.schema v) :
    Demanded (references s q).store q.document
        (collect (references s q).store settings q.document).names v ∨
      IsLeft (references s q).store (collect (references s q).store settings q.document) v ∨
      IsAstray s q h seed.schema v := by
  induction hv with
  | refl => exact .inl (.response hseed)
  | @part v w id m hdown hm hw ih =>
      obtain ⟨rfl, hmapping⟩ := asMapping?_eq_some.mp hm
      rcases ih with hdemanded | hleft | hastray
      · have hbound (pre : History) (target : NodeId) (n : String)
            (hnotes : Notes s q h pre id target n) : pre.length < h.length + 1 := by
          obtain ⟨ref, hpre⟩ := hnotes.copy
          exact Nat.lt_succ_of_le ((List.prefix_append pre _).trans hpre).length_le
        rcases demanded_or_astray hh hdoc hlimits _ id m w hbound hdemanded hmapping hw with
          hpart | hleft | hastray
        · exact .inl hpart
        · exact .inr (.inl hleft)
        · exact .inr (.inr ⟨id, m, w, hdown, hmapping, hw, hastray, .refl⟩)
      · exact .inr (.inl (hleft.part hm hw))
      · exact .inr (.inr (hastray.part hm hw))

-- Every name in the content of a response body, to any nesting, is collected by a run without limits,
-- unless another name in the same mapping is read first, or a value above was left aside, or the name
-- stands in a part that is not walked with the component of the mapping around it.
theorem mentioned_found_or_astray (settings : ReachabilitySettings)
    (hdoc : (s.mapping? q.document).isSome) :
    ∃ h, q.HasAccount s h ∧ ((collect (references s q).store settings q.document).limits = [] →
      ∀ seed ∈ seeds (references s q).store q.document, ∀ v id m name,
        Down (references s q).store seed.schema v →
        (references s q).store.asMapping? v = some (id, m) → Mentions m name →
        .str name ∈ (collect (references s q).store settings q.document).names ∨
          (∃ other, other ≠ name ∧ referenceName? m = some other) ∨
          IsLeft (references s q).store (collect (references s q).store settings q.document) v ∨
          IsAstray s q h seed.schema v) := by
  obtain ⟨h, hh⟩ := exists_account hdoc
  refine ⟨h, hh, fun hlimits seed hseed v id m name hv hm hmentions => ?_⟩
  rcases demanded_or_isAstray hh hdoc hlimits hseed hv with hdemanded | hrest
  · rcases hmentions.referenceName? with hname | hother
    · exact (mem_names_or_isLeft hlimits hdemanded hm hname).imp_right fun hleft =>
        .inr (.inl hleft)
    · exact .inr (.inl hother)
  · exact .inr (.inr hrest)

-- A response body that refers to a schema, with a property beside the reference.
def besideReference : Store :=
  ⟨#[
    .ofFields [("components", .node 1), ("t", .node 9)],
    .ofFields [("schemas", .node 2), ("responses", .node 3)],
    .ofFields [("Other", .node 10)],
    .ofFields [("R", .node 4)],
    .ofFields [("content", .node 5)],
    .ofFields [("application/json", .node 6)],
    .ofFields [("schema", .node 7)],
    .ofFields [("$ref", .str "r.json#/t"), ("properties", .node 8)],
    .ofFields [("other", .node 11)],
    .ofFields [("type", .str "object")],
    .ofFields [("type", .str "string")],
    .ofFields [("$ref", .str "#/components/schemas/Other")]]⟩

-- The component that the property refers to is lost, and the property is astray.
theorem besideReference_astray : ∃ h, ownFileCall.HasAccount besideReference h ∧
    (collect (references besideReference ownFileCall).store {} 0).limits = [] ∧
    (collect (references besideReference ownFileCall).store {} 0).passedOver = [] ∧
    (collect (references besideReference ownFileCall).store {} 0).names.contains (.str "Other") =
      false ∧
    IsAstray besideReference ownFileCall h (.node 7) (.node 11) := by
  have hdoc : (besideReference.mapping? ownFileCall.document).isSome := by decide
  obtain ⟨h, hh, hfound⟩ := @mentioned_found_or_astray besideReference ownFileCall {} hdoc
  rw [show ownFileCall.document = 0 from rfl] at hfound
  have hpass : let p := collect (references besideReference ownFileCall).store {} 0
      p.limits.isEmpty ∧ p.passedOver.isEmpty ∧ p.names.contains (.str "Other") = false := by
    decide +kernel
  obtain ⟨hlimits, hpassed, hlost⟩ := hpass
  rw [List.isEmpty_iff] at hlimits hpassed
  have hend : let s := (references besideReference ownFileCall).store
      .node 7 ∈ (seeds s 0).map Seed.schema ∧ (s.mapping? 7).isSome ∧
        .node 11 ∈ parts s (s.entries 7) ∧ (s.mapping? 11).isSome ∧
        (s.entries 11).ref?.bind schemaName? = some "Other" ∧
        referenceName? (s.entries 11) = some "Other" := by
    decide +kernel
  obtain ⟨hbody, hbodyMapping, hpart, hpartMapping, hmention, hname⟩ := hend
  obtain ⟨seed, hseed, hschema⟩ := List.mem_map.mp hbody
  obtain ⟨m, hm⟩ := Option.isSome_iff_exists.mp hbodyMapping
  obtain ⟨m', hm'⟩ := Option.isSome_iff_exists.mp hpartMapping
  rw [entries_of_mapping? hm] at hpart
  rw [entries_of_mapping? hm'] at hmention hname
  have hdown : Down (references besideReference ownFileCall).store seed.schema (.node 11) := by
    rw [hschema]
    exact .part .refl (asMapping?_eq_some.mpr ⟨rfl, hm⟩) hpart
  refine ⟨h, hh, hlimits, hpassed, hlost, ?_⟩
  rcases hfound hlimits seed hseed (.node 11) 11 m' "Other" hdown
      (asMapping?_eq_some.mpr ⟨rfl, hm'⟩) (.inr hmention) with
    hin | ⟨other, hother, hread⟩ | ⟨u, hu, -⟩ | hastray
  · exact absurd (Key.contains_str.mpr hin) (by rw [hlost]; decide)
  · exact absurd (Option.some.inj (hread.symm.trans hname)) hother
  · rw [hpassed] at hu
    cases hu
  · exact hschema ▸ hastray

end Walked

end ApiGraph.Reachability
