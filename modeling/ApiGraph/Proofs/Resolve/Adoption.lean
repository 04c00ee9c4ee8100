import ApiGraph.Proofs.Resolve.Origin
import ApiGraph.Proofs.Resolve.Sections

namespace ApiGraph.Resolve

open Store Reference

section Adoption

variable (c : Context) (s : Store) (h : History)

-- The file has the component as it was parsed.
inductive Defines (kind name : String) (d : NodeId) : Prop
  | given (hd : d = c.document) (hin : (componentIn? s d kind name).isSome) : Defines kind name d
  | file {e : History} {key : String} {read : Store} (he : e ++ [.load key d read] <+: h)
      (hin : (componentIn? read d kind name).isSome) : Defines kind name d

-- The file that the mapping was written in has the component, or any file if that is the root document.
def Answerable (kind name : String) (id : NodeId) : Prop :=
  ∃ d, Defines c s h kind name d ∧ (Home c s h d id ∨ Home c s h c.document id)

end Adoption

-- A sequence stands in the place of the section, and the name is the number of one of its items.
def NamesItem (s : Store) (document : NodeId) (kind name : String) : Prop :=
  ∃ p mp q items, s.fieldMapping? document "components" = some (p, mp) ∧
    mp.get? (.str kind) = some (.node q) ∧ s.get? q = some (.sequence items) ∧
    ((Text.integer? 10 name.toList).bind (itemAt? items)).isSome

section Homes

variable {c : Context} {s : Store} {files : List (String × NodeId)} {h e : History}
  {d id : NodeId} {kind name : String}

theorem Encounters.lt_size {root : Scope} {scope : Scope} {ref : String}
    (hmet : Encounters c root s files e scope id ref) : id < (after c s e).nodes.size := by
  obtain ⟨m, hm⟩ :=
    Option.isSome_iff_exists.mp (mapping?_of_ref? (pendingRef?_eq_some hmet.pending).1)
  exact lt_size_of_mapping? hm

theorem Home.document_lt (hdoc : (s.mapping? c.document).isSome) (hl : Lawful c s files h)
    (hhome : Home c s h d id) : d < (after c s h).nodes.size := by
  cases hhome with
  | given hd _ =>
      obtain ⟨m, hm⟩ := Option.isSome_iff_exists.mp hdoc
      exact Nat.lt_of_lt_of_le (hd ▸ lt_size_of_mapping? hm) (hl.size_le hdoc List.nil_prefix)
  | @file e key read he _ _ =>
      cases (hl.of_prefix he).last with
      | load _ hread =>
          have hlt := ((extends_parseFile hread).2.1 d rfl).2
          exact Nat.lt_of_lt_of_le (by rwa [after_concat]) (hl.size_le hdoc he)

-- What is there at some moment was not loaded later.
theorem Lawful.load_prefix (hl : Lawful c s files h) (hdoc : (s.mapping? c.document).isSome)
    {e' : History} {key : String} {read : Store} (he' : e' ++ [.load key d read] <+: h) (he : e <+: h)
    (hold : (after c s e').nodes.size ≤ id) (hid : id < (after c s e).nodes.size) :
    e' ++ [.load key d read] <+: e := by
  rcases List.prefix_or_prefix_of_prefix he' he with hpre | hpre
  · exact hpre
  rcases List.prefix_concat_iff.mp hpre with heq | hshort
  · exact heq ▸ List.prefix_rfl
  · have hle := (hl.of_prefix ((List.prefix_append e' _).trans he')).size_le hdoc hshort
    exact absurd (Nat.lt_of_lt_of_le hid hle) (Nat.not_lt.mpr hold)

theorem Home.of_lt (hl : Lawful c s files h) (hdoc : (s.mapping? c.document).isSome)
    (hhome : Home c s h d id) (he : e <+: h) (hid : id < (after c s e).nodes.size) :
    Home c s e d id := by
  cases hhome with
  | given hd hid => exact .given hd hid
  | file he' hold hnew => exact .file (hl.load_prefix hdoc he' he hold hid) hold hnew

theorem Defines.document_lt (hdoc : (s.mapping? c.document).isSome) (hl : Lawful c s files h)
    (hdef : Defines c s h kind name d) : d < (after c s h).nodes.size := by
  cases hdef with
  | given hroot _ =>
      obtain ⟨m, hm⟩ := Option.isSome_iff_exists.mp hdoc
      exact Nat.lt_of_lt_of_le (hroot ▸ lt_size_of_mapping? hm) (hl.size_le hdoc List.nil_prefix)
  | @file e key read he _ =>
      cases (hl.of_prefix he).last with
      | load _ hread =>
          have hnew := (extends_parseFile hread).2.1 d rfl
          exact Home.document_lt hdoc hl (.file he hnew.1 (by rw [after_concat]; exact hnew.2))

-- A file that is there has its components.
theorem Defines.of_lt (hl : Lawful c s files h) (hdoc : (s.mapping? c.document).isSome)
    (hkind : IsFixed kind) (hname : IsFixed name) (hdef : Defines c s h kind name d) (he : e <+: h)
    (hd : d < (after c s e).nodes.size) :
    (componentIn? (after c s e) d kind name).isSome ∧
      (d = c.document ∨ d ≠ c.document ∧ ∃ key, Known files e key d) := by
  have hle := hl.of_prefix he
  cases hdef with
  | given hroot hin =>
      obtain ⟨target, htarget⟩ := Option.isSome_iff_exists.mp hin
      have hkept := (hle.keeps hdoc List.nil_prefix).componentIn? hkind hname htarget
      exact ⟨Option.isSome_of_eq_some hkept, .inl hroot⟩
  | @file e' key read he' hin =>
      cases (hl.of_prefix he').last with
      | load _ hread =>
          have hold := ((extends_parseFile hread).2.1 d rfl).1
          have hpre := hl.load_prefix hdoc he' he hold hd
          obtain ⟨target, htarget⟩ := Option.isSome_iff_exists.mp hin
          have hread : after c s (e' ++ [.load key d read]) = read := after_concat e' _
          rw [← hread] at htarget
          have hkept := (hle.keeps hdoc hpre).componentIn? hkind hname htarget
          refine ⟨Option.isSome_of_eq_some hkept, .inr ⟨?_, key, ?_⟩⟩
          · rintro rfl
            obtain ⟨m, hm⟩ := Option.isSome_iff_exists.mp hdoc
            have hstart := (hl.of_prefix ((List.prefix_append e' _).trans he')).size_le hdoc
              List.nil_prefix
            exact absurd (Nat.lt_of_lt_of_le (lt_size_of_mapping? hm) hstart) (Nat.not_lt.mpr hold)
          · have hin : .load key d read ∈ e := hpre.subset (List.mem_append_right _ List.mem_cons_self)
            exact List.mem_append_right _ (List.mem_filterMap.mpr ⟨_, hin, rfl⟩)

theorem isBound_of_componentIn? (hin : componentIn? s c.document kind name = some id) :
    isBound c s kind name = true := by
  obtain ⟨p, mp, q, mq, mi, hp, hq, hi⟩ := componentIn?_eq_some_iff.mp hin
  obtain ⟨hi, -⟩ := fieldMapping?_eq_some.mp hi
  rw [entries_of_mapping? (fieldMapping?_eq_some.mp hq).2] at hi
  exact isBound_iff.mpr ⟨q, mq, components?_eq_some.mpr ⟨p, mp, hp, hq⟩, Option.isSome_of_eq_some hi⟩

-- When no other file has the component, the file that has it is the root document.
theorem Defines.isBound_of_lacks (hl : Lawful c s files h) (hdoc : (s.mapping? c.document).isSome)
    (hkind : IsFixed kind) (hname : IsFixed name) (hdef : Defines c s h kind name d) (he : e <+: h)
    (hlacks : Lacks c s files e kind name) (hd : d < (after c s e).nodes.size) :
    isBound c (after c s e) kind name = true := by
  obtain ⟨hin, hroot | ⟨hother, key, hknown⟩⟩ := hdef.of_lt hl hdoc hkind hname he hd
  · obtain ⟨target, htarget⟩ := Option.isSome_iff_exists.mp hin
    exact isBound_of_componentIn? (hroot ▸ htarget)
  · rw [hlacks key d hknown hother] at hin
    cases hin

end Homes

section Settling

variable {c : Context} {s : Store} {files : List (String × NodeId)} {h e : History}
  {scope : Scope} {ref kind name : String}

theorem isBound_of_bind (hl : Lawful c s files h) (hdoc : (s.mapping? c.document).isSome)
    (hkind : IsFixed kind) (hname : IsFixed name) {target : NodeId}
    (hbind : e ++ [.bind kind name target] <+: h) : isBound c (after c s h) kind name = true := by
  refine (hl.keeps hdoc hbind).isBound hkind hname.1 ?_
  rw [after_concat]
  have hroot := (hl.of_prefix ((List.prefix_append e _).trans hbind)).root hdoc
  exact isBound_bound hroot hkind name target

theorem component?_eq_some {path : List String} (hpath : component? path = some (kind, name)) :
    path = ["components", kind, name] := by
  unfold component? at hpath
  split at hpath
  · next first kind' name' =>
    split at hpath
    · next hfirst =>
      cases hpath
      rw [hfirst]
    · cases hpath
  · cases hpath

-- A pointer to a component names an entry of a section, or an item of a sequence in its place.
theorem isBound_or_namesItem (hroot : (s.mapping? c.document).isSome)
    (hsections : ∃ p mp, s.fieldMapping? c.document "components" = some (p, mp)) {pointer : String}
    (hpath : component? (segments pointer) = some (kind, name)) {v : Value}
    (hv : Reference.resolve s (.node c.document) pointer = .ok v) :
    isBound c s kind name = true ∨ NamesItem s c.document kind name := by
  obtain ⟨p, mp, hp⟩ := hsections
  obtain ⟨m, hm⟩ := Option.isSome_iff_exists.mp hroot
  obtain ⟨hcomponents, hmp⟩ := fieldMapping?_eq_some.mp hp
  rw [entries_of_mapping? hm] at hcomponents
  unfold Reference.resolve follow at hv
  rw [component?_eq_some hpath] at hv
  simp only [List.foldlM_cons, List.foldlM_nil, Reference.step, mapping?_eq_some.mp hm, hcomponents,
    mapping?_eq_some.mp hmp, bind, Except.bind] at hv
  cases hkind : mp.get? (.str kind) with
  | none => simp [hkind] at hv
  | some section_ =>
      cases section_ with
      | scalar x => simp [hkind] at hv
      | pair a b => simp [hkind] at hv
      | node q =>
          cases hq : s.get? q with
          | none => simp [hkind, hq] at hv
          | some container =>
              cases container with
              | mapping mq =>
                  refine .inl (isBound_iff.mpr ⟨q, mq, components?_eq_some.mpr ⟨p, mp, hp, ?_⟩, ?_⟩)
                  · rw [fieldMapping?_eq_some, entries_of_mapping? hmp]
                    exact ⟨hkind, mapping?_eq_some.mpr hq⟩
                  · cases hname : mq.get? (.str name) with
                    | none => simp [hkind, hq, hname] at hv
                    | some child => rfl
              | sequence items =>
                  refine .inr ⟨p, mp, q, items, hp, hkind, hq, ?_⟩
                  cases hitem : (Text.integer? 10 name.toList).bind (itemAt? items) with
                  | none => simp [hkind, hq, hitem] at hv
                  | some child => rfl
              | set items => simp [hkind, hq] at hv

-- A reference that was kept is answered, unless no other file that was there had its component.
theorem Rescued.bound_or (hl : Lawful c s files h) (hdoc : (s.mapping? c.document).isSome)
    (hkind : IsFixed kind) (hname : IsFixed name)
    (hcomponent : component? (segments (pointerPart ref)) = some (kind, name))
    (hrescued : Rescued c s files e ref h) (he : e <+: h) (hprepared : [.prepare] <+: e) :
    isBound c (after c s h) kind name = true ∨ NamesItem (after c s e) c.document kind name ∨
      Lacks c s files e kind name := by
  rcases hrescued with ⟨v, hv⟩ | hall
  · obtain ⟨mp, hp⟩ := fieldMapping?_ensureComponents hdoc "schemas"
    have hkeeps := (hl.of_prefix he).keeps hdoc hprepared
    obtain ⟨mp', hp'⟩ := hkeeps.fieldMapping? (by decide) (by decide) hp
    have hroot := (hl.of_prefix he).root hdoc
    refine (isBound_or_namesItem hroot ⟨_, mp', hp'⟩ hcomponent hv).imp (fun hbound => ?_) .inl
    exact (hl.keeps hdoc he).isBound hkind hname.1 hbound
  · rcases hall kind name hcomponent with ⟨target, hbind⟩ | hlacks
    · exact .inl (isBound_of_bind hl hdoc hkind hname hbind)
    · exact .inr (.inr hlacks)

-- So is one that was settled where it was met.
theorem Answered.bound_or (hl : Lawful c s files h) (hdoc : (s.mapping? c.document).isSome)
    (hkind : IsFixed kind) (hname : IsFixed name)
    (hcomponent : component? (segments (pointerPart ref)) = some (kind, name))
    (hanswered : Answered c s files e scope ref h) (he : e <+: h) :
    isBound c (after c s h) kind name = true ∨ Lacks c s files e kind name := by
  rcases hanswered kind name hcomponent with hbound | ⟨target, hbind⟩ | ⟨-, hlacks⟩
  · exact .inl ((hl.keeps hdoc he).isBound hkind hname.1 hbound)
  · exact .inl (isBound_of_bind hl hdoc hkind hname hbind)
  · exact .inr hlacks

end Settling

section Call

variable {s : Store} {q : Request}

theorem inv_ending {r : Run} (hs : s.WellFormed) (hdoc : (s.mapping? q.document).isSome)
    (hend : q.ending s = (.ok (), r)) (hclean : Clean r) :
    ∃ done, Inv q.context (InScope s q.document) ⟨r, [], [], done⟩ := by
  have hscope : InFile (startRun s q.document q.scope) q.scope := .inl rfl
  have hholds := ensures_run (c := q.context) hscope (hasRoot_startRun hdoc q.scope)
    (holds_startRun hs hdoc q.scope)
  exact (ensures_of_ok hend).mp hholds hclean

section Missed

variable (s q) (h : History) (id : NodeId) (ref kind name : String)

-- Why the component of a reference may be missing in the root document at the end of the call.
inductive Missed : Prop
  -- The mark of the reference counted when the walk came by.
  | passed (hpassed : Passed q.context s h id)
  -- What stands in a reference that was marked is not walked.
  | below {a : NodeId} {ref' : String} (hmark : .circular a ref' ∈ (references s q).events)
      (hreach : (references s q).store.Reach a id)
  -- The walk came to the root document in the scope of another file, before it knew a file that has the
  -- component.
  | early {e : History} {scope : Scope} (hhome : Home q.context s h q.document id) (he : e <+: h)
      (hmet : Encounters q.context q.scope s q.files e scope id ref) (hfile : scope.isRoot = false)
      (hlacks : Lacks q.context s q.files e kind name)
  | listed {e : History} (he : e <+: h) (hitem : NamesItem (after q.context s e) q.document kind name)

end Missed

-- What was settled is answered.
theorem Consulted.bound_or {h : History} {r : Run} {id : NodeId} {ref kind name : String}
    (hr : Records q.context q.scope s q.files h r) (hkind : IsFixed kind) (hname : IsFixed name)
    (hrescued : AllRescued q.context s q.files [.prepare] h r.rootRefs)
    (hcomponent : component? (segments (pointerPart ref)) = some (kind, name))
    (hanswer : Answerable q.context s h kind name id)
    (hconsulted : Consulted q.context q.scope s q.files h r.rootRefs id ref) :
    isBound q.context (after q.context s h) kind name = true ∨ Missed s q h id ref kind name := by
  obtain ⟨d, hdef, hhome⟩ := hanswer
  have hl := hr.lawful
  have hdoc := hr.hasRoot
  -- At a moment when the file is there, nothing is missing.
  have present {e : History} (he : e <+: h) (hlacks : Lacks q.context s q.files e kind name)
      (hd : d < (after q.context s e).nodes.size) :
      isBound q.context (after q.context s h) kind name = true :=
    (hl.keeps hdoc he).isBound hkind hname.1
      (hdef.isBound_of_lacks hl hdoc hkind hname he hlacks hd)
  rcases hconsulted with hpassed | hin | ⟨e, scope, he, hmet, hfile, hanswered⟩
  · exact .inr (.passed hpassed)
  · obtain ⟨e, hprepared, he, hknows, hthere⟩ := hrescued ref hin
    rcases hthere.bound_or hl hdoc hkind hname hcomponent he hprepared with hbound | hitem | hlacks
    · exact .inl hbound
    · exact .inr (.listed he hitem)
    · refine .inl (present he hlacks ?_)
      obtain ⟨-, hroot | ⟨-, key, hknown⟩⟩ :=
        hdef.of_lt hl hdoc hkind hname List.prefix_rfl (hdef.document_lt hdoc hl)
      · obtain ⟨m, hm⟩ := Option.isSome_iff_exists.mp hdoc
        exact Nat.lt_of_lt_of_le (hroot ▸ lt_size_of_mapping? hm)
          ((hl.of_prefix he).size_le hdoc List.nil_prefix)
      · exact ((hknows key d hknown).home hdoc (hl.of_prefix he) (files_document q)).document_lt hdoc
          (hl.of_prefix he)
  · rcases hanswered.bound_or hl hdoc hkind hname hcomponent he with hbound | hlacks
    · exact .inl hbound
    rcases hhome with hhome | hhome
    · have hid := hmet.lt_size
      exact .inl (present he hlacks ((hhome.of_lt hl hdoc he hid).document_lt hdoc (hl.of_prefix he)))
    · exact .inr (.early hhome he hmet hfile hlacks)

-- The root document has every component that an internal reference of the returned document names, if
-- the file of the reference has it, or any file for a reference of the root document.
theorem component_bound_or_missed (hs : s.WellFormed) (hdoc : (s.mapping? q.document).isSome)
    (hok : (references s q).result = .ok ()) (hlimits : (references s q).limits = [])
    (hadopted : ∀ name, .adopted refKey name ∉ (references s q).events) :
    ∃ h, q.HasHistory s h ∧ ∀ id ref kind name, (references s q).store.Reach q.document id →
      ((references s q).store.entries id).ref? = some ref → isInternal ref = true →
      component? (segments (pointerPart ref)) = some (kind, name) → IsFixed kind → IsFixed name →
      Answerable q.context s h kind name id →
      isBound q.context (references s q).store kind name = true ∨ Missed s q h id ref kind name := by
  cases hne : (s.entries q.document).isEmpty with
  | true =>
      obtain ⟨h, hh⟩ := exists_history hdoc
      refine ⟨h, hh, fun id ref kind name hreach href => ?_⟩
      rw [references_of_isEmpty hne] at hreach href
      rw [entries_of_isEmpty hdoc hne hreach] at href
      cases href
  | false =>
      obtain ⟨h, r, hr, hrescued, hend, houtcome⟩ := exists_run hdoc hne hok
      have hh : q.HasHistory s h := by
        refine ⟨hr.lawful, ?_, ?_, ?_⟩
        · rw [houtcome]
          exact hr.store
        · rw [houtcome]
          exact hr.limits
        · rw [houtcome]
          exact hr.events
      refine ⟨h, hh, fun id ref kind name hreach href hinternal hcomponent hkind hname hanswer => ?_⟩
      rw [houtcome] at hlimits hadopted
      obtain ⟨done, hinv⟩ := inv_ending hs hdoc hend ⟨hlimits, hadopted⟩
      have hstore : (references s q).store = r.store := by rw [houtcome]
      rw [hstore] at hreach href ⊢
      have hmapping : ∃ m, r.store.mapping? id = some m ∧ m.ref? = some ref := by
        cases hm : r.store.mapping? id with
        | some m => exact ⟨m, rfl, entries_of_mapping? hm ▸ href⟩
        | none =>
            rw [entries_eq_empty hm] at href
            cases href
      obtain ⟨m, hm, hmref⟩ := hmapping
      rcases hinv.residue rfl hreach with hdone | hleaf | ⟨a, ha, hbelow⟩
      · have hvisited : id ∈ r.visited := by
          by_contra hnot
          have hnone := hinv.shape.made id m hdone hnot hm
          rw [hnone] at hmref
          cases hmref
        rw [hr.store]
        exact (hr.consulted id hvisited ref href hinternal).bound_or hr hkind hname hrescued
          hcomponent hanswer
      · have hnone : r.store.mapping? id = none := hleaf.1
        rw [hnone] at hm
        cases hm
      · obtain ⟨ref', hmark⟩ : ∃ ref', .circular a ref' ∈ r.events := ha.1.resolve_left nofun
        have hlogged : .circular a ref' ∈ (references s q).events := by rwa [houtcome]
        exact .inr (.below hlogged (by rwa [hstore]))

-- The log of adoptions.
def adoptedKind? : Event → Option String
  | .adopted kind _ => some kind
  | _ => none

-- A reference of the root document that another file points at before the file with its component is
-- loaded, and one to a component of the root document.
def earlyReference : Store :=
  ⟨#[
    .ofFields [("a", .node 1), ("x", .node 2), ("z", .node 3), ("y", .node 4), ("components", .node 5)],
    .ofFields [("$ref", .str "b.json")],
    .ofFields [("$ref", .str "#/components/schemas/T")],
    .ofFields [("$ref", .str "c.json")],
    .ofFields [("$ref", .str "#/components/schemas/R")],
    .ofFields [("schemas", .node 6)],
    .ofFields [("R", .node 7)],
    .ofFields []]⟩

def earlyReferenceCall : Request :=
  let pointing := "\x7b\"r\":\x7b\"$ref\":\"r.json#/x\"\x7d\x7d"
  let defining := "\x7b\"components\":\x7b\"schemas\":\x7b\"T\":\x7b\x7d\x7d\x7d\x7d"
  ⟨0, some (.text "r.json"), {}, [], [], none,
    ⟨.mk [("r.json", .bytes "".toUTF8), ("b.json", .bytes pointing.toUTF8),
      ("c.json", .bytes defining.toUTF8)] .nil, ⟨1, []⟩⟩⟩

-- The first one stays without its component.
theorem earlyReference_missed : ∃ h, earlyReferenceCall.HasHistory earlyReference h ∧
    (isBound earlyReferenceCall.context (references earlyReference earlyReferenceCall).store "schemas"
        "R" = true ∨
      Missed earlyReference earlyReferenceCall h 4 "#/components/schemas/R" "schemas" "R") ∧
    (Answerable earlyReferenceCall.context earlyReference h "schemas" "T" 2 →
      Missed earlyReference earlyReferenceCall h 2 "#/components/schemas/T" "schemas" "T") ∧
    isBound earlyReferenceCall.context (references earlyReference earlyReferenceCall).store "schemas"
      "T" = false := by
  let o := references earlyReference earlyReferenceCall
  have hvalues : o.result.toOption.isSome ∧ o.limits = [] ∧ o.events.filterMap adoptedKind? = [] ∧
      (∀ id ∈ [2, 4], .node id ∈ o.store.children 0) ∧
      (o.store.entries 2).ref? = some "#/components/schemas/T" ∧
      (o.store.entries 4).ref? = some "#/components/schemas/R" ∧
      isBound earlyReferenceCall.context o.store "schemas" "T" = false := by decide +kernel
  obtain ⟨hsome, hlimits, hkinds, hchildren, hT, hR, hunbound⟩ := hvalues
  have hok : o.result = .ok () := by
    cases hresult : o.result with
    | ok u => rfl
    | error e =>
        rw [hresult] at hsome
        cases hsome
  have hadopted : ∀ name, .adopted refKey name ∉ o.events := by
    intro name hin
    have hkind : refKey ∈ o.events.filterMap adoptedKind? := List.mem_filterMap.mpr ⟨_, hin, rfl⟩
    rw [hkinds] at hkind
    cases hkind
  obtain ⟨h, hh, hall⟩ := @component_bound_or_missed earlyReference earlyReferenceCall (by decide) (by decide) hok
    hlimits hadopted
  refine ⟨h, hh, ?_, fun hanswer => ?_, hunbound⟩
  · refine hall 4 "#/components/schemas/R" "schemas" "R" (.step .refl (hchildren 4 (by decide))) hR
      (by decide) (by decide) (by decide) (by decide) ?_
    exact ⟨0, .given rfl (by decide), .inl (.given rfl (by decide))⟩
  · refine (hall 2 "#/components/schemas/T" "schemas" "T" (.step .refl (hchildren 2 (by decide))) hT
      (by decide) (by decide) (by decide) (by decide) hanswer).resolve_left ?_
    rw [hunbound]
    decide

end Call

end ApiGraph.Resolve
