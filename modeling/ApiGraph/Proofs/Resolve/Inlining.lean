import ApiGraph.Proofs.Resolve.WalkRecording

namespace ApiGraph.Resolve

open Store Reference

section Content

variable {s : Store} {node target : NodeId} {m : Entries} {name : Option String} {k : Key}

theorem isSome_copyNote :
    (copyNote name k).isSome = (name.isSome && (k == .str resolvedRefKey)) := by
  cases name with
  | none => rfl
  | some n =>
      rw [copyNote_some, BEq.comm]
      cases k == .str resolvedRefKey <;> rfl

-- What stood beside the reference wins.
theorem get?_replaced (hm : s.mapping? node = some m) (hk : (k == .str refKey) = false) :
    ((replaced s node target name).entries node).get? k =
      (m.get? k).or ((copyNote name k).or ((s.entries target).get? k)) := by
  have hcontent : ((s.set node (.mapping .empty)).entries target).get? k =
      if node = target then none else (s.entries target).get? k := by
    split
    · next hsame =>
      subst hsame
      rw [entries_set_self hm]
      rfl
    · next hne => rw [entries_set_of_ne hne]
  rw [replaced_of_mapping? hm, entries_set_self hm, get?_inlinedContent,
    get?_erase_refKey_of_ne hk, get?_erase_refKey_of_ne hk, hcontent]
  cases hown : m.get? k with
  | some v => rfl
  | none =>
      have hself : (if node = target then none else (s.entries target).get? k) =
          (s.entries target).get? k := by
        split
        · next hsame => rw [← hsame, entries_of_mapping? hm, hown]
        · rfl
      rw [hself]

theorem get?_replaced_refKey (hm : s.mapping? node = some m) (hk : (k == .str refKey) = true) :
    ((replaced s node target name).entries node).get? k = none := by
  rw [OrderedMap.get?_congr hk, replaced_of_mapping? hm, entries_set_self hm, get?_inlinedContent,
    get?_erase_refKey BEq.rfl, get?_erase_refKey BEq.rfl, copyNote_eq_none (by decide)]
  rfl

-- The keys that stood beside the reference, those of the target, and the note.
theorem contains_replaced (hm : s.mapping? node = some m) :
    ((replaced s node target name).entries node).contains k =
      (!(k == .str refKey) && (m.contains k || (s.entries target).contains k ||
        (name.isSome && (k == .str resolvedRefKey)))) := by
  simp only [OrderedMap.contains_eq_isSome_get?]
  cases hk : k == Key.str refKey with
  | true => rw [get?_replaced_refKey hm hk]; rfl
  | false =>
      rw [get?_replaced hm hk, Option.isSome_or, Option.isSome_or, isSome_copyNote]
      cases (m.get? k).isSome <;> cases ((s.entries target).get? k).isSome <;> simp

end Content

section Keys

variable {s s' : Store} {id : NodeId} {k : Key}

-- A key other than the reference's stays.
theorem isSome_get?_of_keeps (h : Keeps s s') (hk : (k == .str refKey) = false)
    (hsome : ((s.entries id).get? k).isSome) : ((s'.entries id).get? k).isSome := by
  obtain ⟨v, hv⟩ := Option.isSome_iff_exists.mp hsome
  obtain ⟨m, hm, hv⟩ := exists_mapping?_of_get? hv
  obtain ⟨m', hm'⟩ := h.exists_mapping? hm
  rw [entries_of_mapping? hm']
  rcases h.value id m m' k v hm hm' hk hv with hsame | ⟨-, hsame⟩ | ⟨j, -, hsame, -⟩ <;>
    rw [hsame] <;> rfl

-- So does a container under a key other than the mark's.
theorem get?_node_of_keeps (h : Keeps s s') {m : Entries} {j : NodeId} (hm : s.mapping? id = some m)
    (hk : (k == .str refKey) = false) (hmark : (k == .str circularRefKey) = false)
    (hv : m.get? k = some (.node j)) (hj : (s.mapping? j).isSome) :
    ((s'.entries id).get? k) = some (.node j) := by
  obtain ⟨m', hm'⟩ := h.exists_mapping? hm
  rw [entries_of_mapping? hm']
  rcases h.value id m m' k (.node j) hm hm' hk hv with hsame | ⟨hwrong, -⟩ | ⟨i, -, -, hother⟩
  · exact hsame
  · rw [hmark] at hwrong
    cases hwrong
  · rcases hother with hwrong | hnone
    · rw [hmark] at hwrong
      cases hwrong
    · obtain ⟨n, hn⟩ := Option.isSome_iff_exists.mp hj
      simp [asMapping?, hn] at hnone

end Keys

section Alias

-- Every key of the other mapping is there.
def HasKeysOf (m other : Entries) : Prop := ∀ k, other.contains k = true → m.contains k = true

-- The reference of the mapping names another one in the same document.
def StandsFor (s : Store) (document id other : NodeId) : Prop :=
  ∃ ref, (s.entries id).ref? = some ref ∧ isInternal ref = true ∧
    Reference.resolve s (.node document) (pointerPart ref) = .ok (.node other)

variable {s : Store} {q : Request}

-- A reference that is inlined is gone for good. What its target stands for is there as far as the keys
-- stood beside the reference, or beside that of the target.
theorem inlined_alias_iff (hdoc : (s.mapping? q.document).isSome) :
    ∃ h, q.HasHistory s h ∧ ∀ pre node target ref name document other,
      pre ++ [.inline node target ref name] <+: h →
      StandsFor (after q.context s pre) document target other →
      (∀ e, pre ++ [.inline node target ref name] <+: e → e <+: h →
        ((after q.context s e).entries node).ref? = none) ∧
      (HasKeysOf ((after q.context s (pre ++ [.inline node target ref name])).entries node)
          ((after q.context s pre).entries other) ↔
        ∀ k, ((after q.context s pre).entries other).contains k = true →
          (k == .str refKey) = false ∧
            (((after q.context s pre).entries node).contains k = true ∨
              ((after q.context s pre).entries target).contains k = true ∨
              (name.isSome = true ∧ (k == .str resolvedRefKey) = true))) := by
  obtain ⟨h, hh⟩ := exists_history hdoc
  refine ⟨h, hh, fun pre node target ref name document other hpre _ => ?_⟩
  have hlawful := hh.lawful.of_prefix hpre
  obtain ⟨hmapping, hgone⟩ := hlawful.last.of_inlines? rfl
  obtain ⟨m, hm⟩ := Option.isSome_iff_exists.mp hmapping
  rw [← after_concat] at hgone
  constructor
  · intro e hdone he
    have hlt : node < (after q.context s (pre ++ [.inline node target ref name])).nodes.size :=
      Nat.lt_of_lt_of_le (lt_size_of_mapping? hm)
        (hlawful.keeps hdoc (List.prefix_append _ _)).size
    cases href : ((after q.context s e).entries node).ref? with
    | none => rfl
    | some left =>
        rw [(hh.lawful.of_prefix he).ref? hdoc hdone hlt href] at hgone
        cases hgone
  · refine forall_congr' fun k => imp_congr_right fun _ => ?_
    rw [after_concat]
    show ((replaced _ node target name).entries node).contains k = true ↔ _
    rw [contains_replaced hm, entries_of_mapping? hm]
    simp only [Bool.and_eq_true, Bool.not_eq_true', Bool.or_eq_true, or_assoc]

-- A reference to an alias in its own document.
def aliased : Store :=
  ⟨#[
    .ofFields [("a", .node 1), ("t", .node 2), ("u", .node 3)],
    .ofFields [("$ref", .str "r.json#/t")],
    .ofFields [("$ref", .str "#/u")],
    .ofFields [("type", .str "string")]]⟩

def ownFileCall : Request :=
  ⟨0, some (.text "r.json"), {}, [], [], none, ⟨.mk [("r.json", .bytes "".toUTF8)] .nil, ⟨1, []⟩⟩⟩

-- It is inlined to nothing.
theorem aliased_lost : ∃ h, ownFileCall.HasHistory aliased h ∧
    ∃ pre name, pre ++ [.inline 1 2 "r.json#/t" name] <+: h ∧
      StandsFor (after ownFileCall.context aliased pre) 0 2 3 ∧
      ((after ownFileCall.context aliased h).entries 1).ref? = none ∧
      ¬HasKeysOf ((after ownFileCall.context aliased (pre ++ [.inline 1 2 "r.json#/t" name])).entries 1)
        ((after ownFileCall.context aliased pre).entries 3) := by
  have hdoc : (aliased.mapping? ownFileCall.document).isSome := by decide
  obtain ⟨h, hh, hinlined⟩ := @inlined_alias_iff aliased ownFileCall hdoc
  have hin : .inlined 1 2 "r.json#/t" ∈ (references aliased ownFileCall).events := by
    decide +kernel
  obtain ⟨pre, name, hpre⟩ := hh.exists_inline hin
  have hbefore : pre <+: h := (List.prefix_append _ _).trans hpre
  have hstart : Keeps aliased (after ownFileCall.context aliased pre) :=
    (hh.lawful.of_prefix hbefore).keeps hdoc List.nil_prefix
  have hend : Keeps (after ownFileCall.context aliased pre) (references aliased ownFileCall).store := by
    rw [hh.store]
    exact hh.lawful.keeps hdoc hbefore
  have hlt {id : NodeId} (hid : id < 4) :
      id < (after ownFileCall.context aliased pre).nodes.size := Nat.lt_of_lt_of_le hid hstart.size
  -- The alias is as it was, and so is what it names.
  have halias : StandsFor (after ownFileCall.context aliased pre) 0 2 3 := by
    refine ⟨"#/u", hh.lawful.ref? hdoc hbefore (hlt (by decide)) ?_, by decide, ?_⟩
    · rw [← hh.store]
      decide +kernel
    · have hroot : aliased.mapping? 0 = some (aliased.entries 0) := rfl
      have hu := get?_node_of_keeps (k := .str "u") (j := 3) hstart hroot (by decide) (by decide)
        (by decide) (by decide)
      obtain ⟨m, hm⟩ := Option.isSome_iff_exists.mp (hstart.mapping 0 rfl)
      rw [entries_of_mapping? hm] at hu
      have hsegments : segments (pointerPart "#/u") = ["u"] := by decide
      simp [Reference.resolve, hsegments, follow, step, mapping?_eq_some.mp hm, hu]
  obtain ⟨hgone, hkeys⟩ := hinlined pre 1 2 "r.json#/t" name 0 3 hpre halias
  refine ⟨h, hh, pre, name, hpre, halias, hgone h hpre List.prefix_rfl, fun hall => ?_⟩
  have htype : ((after ownFileCall.context aliased pre).entries 3).contains (.str "type") = true := by
    rw [OrderedMap.contains_eq_isSome_get?]
    exact isSome_get?_of_keeps hstart (by decide) (by decide)
  -- Neither the reference nor the alias has the key at the end.
  have hnever {id : NodeId} (hid : ((references aliased ownFileCall).store.entries id).contains
      (.str "type") = false) :
      ((after ownFileCall.context aliased pre).entries id).contains (.str "type") ≠ true := by
    intro hcontains
    rw [OrderedMap.contains_eq_isSome_get?] at hcontains hid
    rw [isSome_get?_of_keeps hend (by decide) hcontains] at hid
    cases hid
  rcases (hkeys.mp hall (.str "type") htype).2 with hown | htarget | ⟨-, hwrong⟩
  · exact hnever (by decide +kernel) hown
  · exact hnever (by decide +kernel) htarget
  · revert hwrong
    decide

end Alias

section Parsed

variable {c : Context} {s : Store} {files : List (String × NodeId)} {h : History} {id : NodeId}

-- The mapping as it was parsed.
def Parsed (c : Context) (s : Store) (h : History) (id : NodeId) (m : Entries) : Prop :=
  ∃ e, e <+: h ∧ Birth c s e id ∧ (after c s e).mapping? id = some m

theorem Parsed.mono {h' : History} {m : Entries} (hp : Parsed c s h id m) (hpre : h <+: h') :
    Parsed c s h' id m := by
  obtain ⟨e, he, hbirth, hm⟩ := hp
  exact ⟨e, he.trans hpre, hbirth, hm⟩

-- No step makes a reference, so each one was parsed.
theorem Lawful.exists_parsed (hl : Lawful c s files h) (hdoc : (s.mapping? c.document).isSome)
    {ref : String} (href : ((after c s h).entries id).ref? = some ref) :
    ∃ m, Parsed c s h id m ∧ m.ref? = some ref := by
  have parsed {e : History} (he : e <+: h) (hbirth : Birth c s e id)
      (href : ((after c s e).entries id).ref? = some ref) : ∃ m, Parsed c s h id m ∧ m.ref? = some ref := by
    obtain ⟨m, hm⟩ := Option.isSome_iff_exists.mp (mapping?_of_ref? href)
    rw [entries_of_mapping? hm] at href
    exact ⟨m, ⟨e, he, hbirth, hm⟩, href⟩
  rcases came_of_after (P := fun t => (t.entries id).ref? = some ref) href with
    hstart | ⟨e, d, he, hold, hnew⟩
  · exact parsed List.nil_prefix (.inl rfl) hstart
  · have hbefore := hl.of_prefix ((List.prefix_append e [d]).trans he)
    have hstep := hnew
    rw [after_concat] at hstep
    obtain ⟨key, document, read, rfl, hsize⟩ :=
      ((hl.of_prefix he).last.ref? (hbefore.root hdoc) hstep).resolve_left hold
    exact parsed he (.inr ⟨e, key, document, read, rfl, hsize⟩) hnew

-- Where no component is brought in, a mapping that was never inlined and settled before is marked.
theorem Lawful.marked (hl : Lawful c s files h) (hdoc : (s.mapping? c.document).isSome)
    (hplace : ∀ e, e <+: h → ¬IsPlace (after c s e) c.document id)
    (hinlines : ∀ d ∈ h, d.inlines? ≠ some id) (hsettles : ∃ d ∈ h, d.settles? = some id) :
    ((after c s h).entries id).get? (.str circularRefKey) = some (.scalar (.bool true)) := by
  induction h using List.reverseRecOn with
  | nil =>
      obtain ⟨d, hd, -⟩ := hsettles
      cases hd
  | append_singleton h d ih =>
      have hbefore := hl.of_prefix (List.prefix_append h [d])
      by_cases hd : d.settles? = some id
      · obtain ⟨ref, name, rfl⟩ := (Deed.settles?_eq_some hd).resolve_right
          (hinlines d (List.mem_append_right h (List.mem_singleton_self d)))
        rw [hl.last.entries_marked]
        exact get?_markedContent_circularRefKey name
      · have hmarked := ih hbefore (fun e he => hplace e (he.trans (List.prefix_append h [d])))
          (fun d' hd' => hinlines d' (List.mem_append_left [d] hd')) (by
            obtain ⟨d', hd', heq⟩ := hsettles
            rcases List.mem_append.mp hd' with hin | hin
            · exact ⟨d', hin, heq⟩
            · exact absurd (List.mem_singleton.mp hin ▸ heq) hd)
        have hsame := hl.last.get? (hbefore.root hdoc) (lt_size_of_get?_entries hmarked)
          (hplace h (List.prefix_append h [d])) hd
        rw [after_concat]
        unfold entries mapping? at hmarked ⊢
        rwa [hsame]

-- Where no component is brought in, a mapping that is not settled any more stays as it is.
theorem Lawful.get?_since {k : History} (hl : Lawful c s files (h ++ k))
    (hdoc : (s.mapping? c.document).isSome) (hid : id < (after c s h).nodes.size)
    (hplace : ∀ e, e <+: h ++ k → ¬IsPlace (after c s e) c.document id)
    (hsettles : ∀ d ∈ k, d.settles? ≠ some id) :
    (after c s (h ++ k)).get? id = (after c s h).get? id := by
  refine hl.preserved (P := fun t => t.get? id = (after c s h).get? id) hdoc rfl ?_
  intro e d he hed hin hd hroot hsame
  have hbefore : e <+: h ++ k := (List.prefix_append e [d]).trans hed
  have hlt : id < (after c s e).nodes.size :=
    Nat.lt_of_lt_of_le hid ((hl.of_prefix hbefore).keeps hdoc he).size
  exact (hd.get? hroot hlt (hplace e hbefore) (hsettles d hin)).trans hsame

theorem Lawful.get? (hl : Lawful c s files h) (hdoc : (s.mapping? c.document).isSome)
    {pre : History} (hpre : pre <+: h) (hid : id < (after c s pre).nodes.size)
    (hplace : ∀ e, e <+: h → ¬IsPlace (after c s e) c.document id)
    (hsettles : ∀ d ∈ h, d.settles? ≠ some id) :
    (after c s h).get? id = (after c s pre).get? id := by
  obtain ⟨k, rfl⟩ := hpre
  exact hl.get?_since hdoc hid hplace fun d hd => hsettles d (List.mem_append_right pre hd)

-- A reference that is resolved where no component is brought in is as it was parsed.
theorem Pending.unsettled {node : NodeId} {ref : String} (hp : Pending c s h node ref)
    (hl : Lawful c s files h) (hdoc : (s.mapping? c.document).isSome)
    (hplace : ∀ e, e <+: h → ¬IsPlace (after c s e) c.document node) :
    ∀ d ∈ h, d.settles? ≠ some node := by
  obtain ⟨e, k, rfl, hpending, -, hinlines, hk⟩ := hp
  intro d hd hsettles
  rcases List.mem_append.mp hd with hin | hin
  · have he : e <+: e ++ k := List.prefix_append e k
    have hmarked := (hl.of_prefix he).marked hdoc (fun e' he' => hplace e' (he'.trans he)) hinlines
      ⟨d, hin, hsettles⟩
    have hfalse := (pendingRef?_eq_some hpending).2 _ hmarked
    cases hfalse
  · exact hk d hin hsettles

end Parsed

section Merge

variable {parsed before content now : Entries} {s : Store} {q : Request}

-- The keys beside the reference as they were parsed, and every other key of the target.
structure IsMerge (parsed content now : Entries) : Prop where
  reference : now.get? (.str refKey) = none
  own : ∀ k v, (k == .str refKey) = false → parsed.get? k = some v → now.get? k = some v
  taken : ∀ k, (k == .str refKey) = false → (k == .str resolvedRefKey) = false →
    parsed.get? k = none → now.get? k = content.get? k

-- What the mapping had just before, and had not when it was parsed, is nothing but what it would have
-- got anyway.
def AddsNothing (parsed before content : Entries) : Prop :=
  ∀ k v, (k == .str refKey) = false → before.get? k = some v → parsed.get? k ≠ some v →
    parsed.get? k = none ∧ ((k == .str resolvedRefKey) = true ∨ content.get? k = some v)

theorem isMerge_iff (name : Option String) (href : now.get? (.str refKey) = none)
    (hnow : ∀ k, (k == .str refKey) = false →
      now.get? k = (before.get? k).or ((copyNote name k).or (content.get? k)))
    (hkept : ∀ k v, (k == .str refKey) = false → parsed.get? k = some v →
      (before.get? k).isSome) : IsMerge parsed content now ↔ AddsNothing parsed before content := by
  constructor
  · intro hmerge k v hk hv hne
    have hsome : now.get? k = some v := by rw [hnow k hk, hv, Option.some_or]
    cases hparsed : parsed.get? k with
    | some w =>
        rw [hmerge.own k w hk hparsed] at hsome
        exact absurd (hparsed.trans hsome) hne
    | none =>
        refine ⟨rfl, ?_⟩
        cases hnote : k == Key.str resolvedRefKey with
        | true => exact .inl rfl
        | false => exact .inr ((hmerge.taken k hk hnote hparsed).symm.trans hsome)
  · intro hadds
    refine ⟨href, fun k v hk hparsed => ?_, fun k hk hnote hparsed => ?_⟩
    · obtain ⟨w, hw⟩ := Option.isSome_iff_exists.mp (hkept k v hk hparsed)
      by_cases hsame : w = v
      · rw [hnow k hk, hw, hsame, Option.some_or]
      · obtain ⟨hnone, -⟩ := hadds k w hk hw fun hwrong =>
          hsame (Option.some.inj (hwrong.symm.trans hparsed))
        rw [hnone] at hparsed
        cases hparsed
    · rw [hnow k hk, copyNote_eq_none hnote, Option.none_or]
      cases hbefore : before.get? k with
      | none => rfl
      | some w =>
          obtain ⟨-, hwrong | hcontent⟩ := hadds k w hk hbefore (by simp [hparsed])
          · rw [hnote] at hwrong
            cases hwrong
          · rw [hcontent, Option.some_or]

-- What is inlined is the target with the keys beside the reference, unless something was brought into
-- the mapping that was not parsed with it. That happens to no mapping but the document, its components
-- and their sections.
theorem inlined_isMerge_iff (hdoc : (s.mapping? q.document).isSome) :
    ∃ h, q.HasHistory s h ∧ ∀ pre node target ref name,
      pre ++ [.inline node target ref name] <+: h →
      ∃ parsed, Parsed q.context s pre node parsed ∧ parsed.ref? = some ref ∧
        (IsMerge parsed ((after q.context s pre).entries target)
            ((after q.context s (pre ++ [.inline node target ref name])).entries node) ↔
          AddsNothing parsed ((after q.context s pre).entries node)
            ((after q.context s pre).entries target)) ∧
        ((∀ e, e <+: pre → ¬IsPlace (after q.context s e) q.document node) →
          IsMerge parsed ((after q.context s pre).entries target)
            ((after q.context s (pre ++ [.inline node target ref name])).entries node)) := by
  obtain ⟨h, hh⟩ := exists_history hdoc
  refine ⟨h, hh, fun pre node target ref name hpre => ?_⟩
  have hlawful := hh.lawful.of_prefix hpre
  have hbefore := hlawful.of_prefix (List.prefix_append pre _)
  have hlegit := hlawful.last
  cases hlegit with
  | inline _ hresolves =>
      obtain ⟨e, k, hek, hpending, -⟩ := hresolves.pending
      have he : e <+: pre := hek ▸ List.prefix_append e k
      obtain ⟨parsed, hparsed, href⟩ :=
        (hbefore.of_prefix he).exists_parsed hdoc (pendingRef?_eq_some hpending).1
      obtain ⟨e', he', -, hborn⟩ := hparsed.mono he
      obtain ⟨m, hm⟩ := Option.isSome_iff_exists.mp hresolves.isMapping
      have hiff : IsMerge parsed ((after q.context s pre).entries target)
            ((after q.context s (pre ++ [.inline node target ref name])).entries node) ↔
          AddsNothing parsed ((after q.context s pre).entries node)
            ((after q.context s pre).entries target) := by
        rw [after_concat]
        refine isMerge_iff name (get?_replaced_refKey hm BEq.rfl) (fun k hk => ?_)
          fun k v hk hv => isSome_get?_of_keeps (hbefore.keeps hdoc he') hk ?_
        · rw [entries_of_mapping? hm]
          exact get?_replaced hm hk
        · rw [entries_of_mapping? hborn, hv]
          rfl
      refine ⟨parsed, hparsed.mono he, href, hiff, fun hplace => hiff.mpr ?_⟩
      have hsame := hbefore.get? hdoc he' (lt_size_of_mapping? hborn) hplace
        (hresolves.pending.unsettled hbefore hdoc hplace)
      have hstill : (after q.context s pre).mapping? node = some parsed := by
        unfold mapping? at hborn ⊢
        rwa [hsame]
      rw [entries_of_mapping? hstill]
      exact fun k v _ hv hne => absurd hv hne

-- The components of a document as a reference to a mapping that has schemas.
def sharedComponents : Store :=
  ⟨#[
    .ofFields [("components", .node 1), ("c", .node 2)],
    .ofFields [("$ref", .str "r.json#/c")],
    .ofFields [("schemas", .node 3)],
    .ofFields []]⟩

-- The section that was made before the walk takes the place of the target's.
theorem sharedComponents_not_merged : ∃ h, ownFileCall.HasHistory sharedComponents h ∧
    ∃ pre name parsed, pre ++ [.inline 1 2 "r.json#/c" name] <+: h ∧
      Parsed ownFileCall.context sharedComponents pre 1 parsed ∧
      ¬IsMerge parsed ((after ownFileCall.context sharedComponents pre).entries 2)
        ((after ownFileCall.context sharedComponents
          (pre ++ [.inline 1 2 "r.json#/c" name])).entries 1) := by
  have hdoc : (sharedComponents.mapping? ownFileCall.document).isSome := by decide
  obtain ⟨h, hh, hinlined⟩ := @inlined_isMerge_iff sharedComponents ownFileCall hdoc
  have hin : .inlined 1 2 "r.json#/c" ∈ (references sharedComponents ownFileCall).events := by
    decide +kernel
  obtain ⟨pre, name, hpre⟩ := hh.exists_inline hin
  obtain ⟨parsed, hparsed, -⟩ := hinlined pre 1 2 "r.json#/c" name hpre
  refine ⟨h, hh, pre, name, parsed, hpre, hparsed, fun hmerge => ?_⟩
  have hkeeps {e : History} (he : e <+: h) :
      Keeps sharedComponents (after ownFileCall.context sharedComponents e) :=
    (hh.lawful.of_prefix he).keeps hdoc List.nil_prefix
  have hbefore : pre <+: h := (List.prefix_append _ _).trans hpre
  have hnone : parsed.get? (.str "schemas") = none := by
    obtain ⟨e, he, rfl | ⟨e', key, d, read, rfl, hsize⟩, hm⟩ := hparsed
    · have hsame : sharedComponents.mapping? 1 = some parsed := hm
      rw [← entries_of_mapping? hsame]
      decide
    · have hle : e' <+: h := ((List.prefix_append _ _).trans he).trans hbefore
      have hwrong : (4 : Nat) ≤ 1 := Nat.le_trans (hkeeps hle).size hsize
      exact absurd hwrong (by decide)
  have htarget : sharedComponents.mapping? 2 = some (sharedComponents.entries 2) := rfl
  have hcontent := get?_node_of_keeps (k := .str "schemas") (j := 3) (hkeeps hbefore) htarget
    (by decide) (by decide) (by decide) (by decide)
  have hnow := (hmerge.taken (.str "schemas") (by decide) (by decide) hnone).trans hcontent
  -- The value would be there at the end.
  have hend : Keeps (after ownFileCall.context sharedComponents
      (pre ++ [.inline 1 2 "r.json#/c" name])) (references sharedComponents ownFileCall).store := by
    rw [hh.store]
    exact hh.lawful.keeps hdoc hpre
  obtain ⟨m, hm⟩ := Option.isSome_iff_exists.mp ((hkeeps hpre).mapping 1 rfl)
  rw [entries_of_mapping? hm] at hnow
  have hlast := get?_node_of_keeps hend hm (by decide) (by decide) hnow
    ((hkeeps hpre).mapping 3 rfl)
  revert hlast
  decide +kernel

end Merge

end ApiGraph.Resolve
