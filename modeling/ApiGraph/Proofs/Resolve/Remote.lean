import ApiGraph.Proofs.Resolve.Blame
import ApiGraph.Proofs.Resolve.Untouched

namespace ApiGraph.Resolve

open Store Reference

-- A scheme and `://` in front.
def IsUrl (ref : String) : Prop :=
  ∃ c scheme rest, ref.toList = c :: scheme ++ "://".toList ++ rest ∧ c.isAlpha ∧
    ∀ x ∈ scheme, x.isAlphanum ∨ x = '+' ∨ x = '-' ∨ x = '.'

theorem IsUrl.isInternal_eq_false {ref : String} (h : IsUrl ref) : isInternal ref = false := by
  obtain ⟨c, scheme, rest, hlist, hc, -⟩ := h
  have hne : c ≠ '#' := by
    rintro rfl
    cases hc
  unfold isInternal Text.startsWith
  rw [hlist]
  simp [List.isPrefixOf, Ne.symm hne]

-- The reference that the log speaks of.
def reference? : Event → Option String
  | .lookedUp _ ref _ => some ref
  | .circular _ ref => some ref
  | .inlined _ _ ref => some ref
  | _ => none

section Deeds

variable {c : Context} {s : Store} {files : List (String × NodeId)} {h e k : History} {d : Deed}
  {id : NodeId} {m : Entries} {key : Key} {v : Value} {ref : String}

theorem Legit.isExternal_of_event? {ev : Event} (hd : Legit c s files h d) (he : d.event? = some ev)
    (href : reference? ev = some ref) : isExternal ref = true := by
  cases hd with
  | look base hcarried =>
      cases he
      cases href
      obtain ⟨-, -, -, hext⟩ := hcarried
      exact hext
  | mark name _ hcarried _ =>
      cases he
      cases href
      obtain ⟨-, -, -, hext⟩ := hcarried
      exact hext
  | inline name hresolves =>
      cases he
      cases href
      obtain ⟨-, -, -, -, hext, -⟩ := hresolves.pending
      exact hext
  | prepare => cases he
  | load _ _ => cases he
  | bind _ _ _ => cases he
  | limit _ => cases he
  | follow _ => cases he

theorem Legit.field_of_unsettled {name : String} (hd : Legit c s files h d)
    (hroot : ((after c s h).mapping? c.document).isSome) (hother : d.settles? ≠ some id)
    (hm : (after c s h).mapping? id = some m)
    (hv : ((after c s h).entries id).get? (.str name) = some v) :
    ((d.apply c.document (after c s h)).entries id).get? (.str name) = some v ∨
      (after c s h).asMapping? v = none := by
  have hb := hd.becomes id
  generalize (d.apply c.document (after c s h)).entries id = new at hb ⊢
  cases hb with
  | same _ => exact .inl hv
  | prepared => exact (get?_ensureComponents_of_some hroot _ hv).imp_right GivesWay.old
  | bound kind other target => exact (get?_bound_of_some hroot hv).imp_right GivesWay.old
  | read hnew => exact absurd (lt_size_of_mapping? hm) (Nat.not_lt_of_le hnew)
  | marked ref note _ => exact absurd rfl hother
  | inlined target ref note _ => exact absurd rfl hother

-- A key that is no text is not the name of a section.
theorem Legit.get?_of_not_text (hd : Legit c s files h d)
    (hroot : ((after c s h).mapping? c.document).isSome) (hm : (after c s h).mapping? id = some m)
    (hkey : ∀ name, (key == Key.str name) = false) (hv : m.get? key = some v) :
    ((d.apply c.document (after c s h)).entries id).get? key = some v ∨
      (after c s h).asMapping? v = none := by
  have hkeeps := hd.keeps hroot
  obtain ⟨m', hm'⟩ := hkeeps.exists_mapping? hm
  rw [entries_of_mapping? hm']
  rcases hkeeps.value id m m' key v hm hm' (hkey refKey) hv with
    hsame | ⟨hmark, -⟩ | ⟨j, -, -, hmark | hnone⟩
  · exact .inl hsame
  · rw [hkey circularRefKey] at hmark
    cases hmark
  · rw [hkey circularRefKey] at hmark
    cases hmark
  · exact .inr hnone

-- Where its reference is not settled, a mapping keeps what it has, but a value that is no mapping may give
-- way to one.
theorem Legit.get?_of_unsettled (hd : Legit c s files h d)
    (hroot : ((after c s h).mapping? c.document).isSome) (hother : d.settles? ≠ some id)
    (hm : (after c s h).mapping? id = some m) (hv : m.get? key = some v) :
    ((d.apply c.document (after c s h)).entries id).get? key = some v ∨
      (after c s h).asMapping? v = none := by
  by_cases hname : ∃ name, (key == Key.str name) = true
  · obtain ⟨name, hname⟩ := hname
    rw [OrderedMap.get?_congr hname] at hv ⊢
    rw [← entries_of_mapping? hm] at hv
    exact hd.field_of_unsettled hroot hother hm hv
  · exact hd.get?_of_not_text hroot hm
      (fun name => Bool.eq_false_iff.mpr fun heq => hname ⟨name, heq⟩) hv

theorem Lawful.get?_of_unsettled (hl : Lawful c s files (e ++ k)) (hdoc : (s.mapping? c.document).isSome)
    (hm : (after c s e).mapping? id = some m) (hsettles : ∀ d ∈ k, d.settles? ≠ some id)
    (hv : m.get? key = some v) :
    ((after c s (e ++ k)).entries id).get? key = some v ∨ (after c s e).asMapping? v = none := by
  have hstart : ((after c s e).entries id).get? key = some v ∨ (after c s e).asMapping? v = none := by
    rw [entries_of_mapping? hm]
    exact .inl hv
  refine hl.preserved (P := fun t => (t.entries id).get? key = some v ∨
    (after c s e).asMapping? v = none) hdoc hstart ?_
  rintro pre d hpre hd hin hlegit hroot (hsame | hnone)
  · have hkeeps := (hl.of_prefix ((List.prefix_append pre [d]).trans hd)).keeps hdoc hpre
    obtain ⟨n, hn⟩ := hkeeps.exists_mapping? hm
    rw [entries_of_mapping? hn] at hsame
    exact (hlegit.get?_of_unsettled hroot (hsettles d hin) hn hsame).imp_right
      (asMapping?_of_grows hkeeps.toGrows)
  · exact .inr hnone

end Deeds

section Call

variable {s : Store} {q : Request} {ref : String}

-- A mapping with a reference that is not external is never settled.
theorem Request.HasAccount.unsettled {h e : History} {id : NodeId} (hh : q.HasAccount s h)
    (hdoc : (s.mapping? q.document).isSome) (he : e <+: h)
    (href : ((after q.context s e).entries id).ref? = some ref) (hext : isExternal ref = false) :
    ∀ d ∈ h, d.settles? ≠ some id := by
  intro d hd hsettles
  obtain ⟨pre, post, rfl⟩ := List.append_of_mem hd
  have hpre : pre ++ [d] <+: pre ++ d :: post := ⟨post, by simp⟩
  obtain ⟨ref', e₀, k, rfl, hpending, hext', -⟩ := hh.pending hpre hsettles
  have he₀ : e₀ <+: e₀ ++ k ++ d :: post := by
    rw [List.append_assoc]
    exact List.prefix_append _ _
  have href' := (pendingRef?_eq_some hpending).1
  have hlt {t : Store} {r : String} (hr : (t.entries id).ref? = some r) : id < t.nodes.size := by
    obtain ⟨m, hm⟩ := Option.isSome_iff_exists.mp (mapping?_of_ref? hr)
    exact lt_size_of_mapping? hm
  have hsame : ref = ref' := by
    rcases List.prefix_or_prefix_of_prefix he he₀ with hearly | hlate
    · have hback := (hh.lawful.of_prefix he₀).ref? hdoc hearly (hlt href) href'
      exact Option.some.inj (href.symm.trans hback)
    · have hback := (hh.lawful.of_prefix he).ref? hdoc hlate (hlt href') href
      exact Option.some.inj (hback.symm.trans href')
  rw [← hsame, hext] at hext'
  cases hext'

theorem isExternal_of_mem_events (hdoc : (s.mapping? q.document).isSome) {ev : Event}
    (hin : ev ∈ (references s q).events) (href : reference? ev = some ref) : isExternal ref = true := by
  obtain ⟨h, hh⟩ := @exists_history s q hdoc
  have hof : isOfReference ev = true := by
    cases ev <;> first | rfl | cases href
  obtain ⟨pre, d, hpre, hd⟩ := hh.exists_deed hin hof
  exact (hh.lawful.of_prefix hpre).last.isExternal_of_event? hd href

-- The mapping is what it was, unless components are brought into it; and there it keeps all it had, but
-- for values that are no mappings.
def KeepsContent (c : Context) (s : Store) (h e : History) (id : NodeId) (m : Entries) : Prop :=
  ∃ m', (after c s h).mapping? id = some m' ∧
    ((∀ e', e' <+: h → ¬IsPlace (after c s e') c.document id) → m' = m) ∧
    ∀ key v, m.get? key = some v → m'.get? key = some v ∨ (after c s e).asMapping? v = none

theorem Request.HasAccount.keepsContent {h e e' : History} {id : NodeId} {m : Entries}
    (hh : q.HasAccount s h) (hdoc : (s.mapping? q.document).isSome) (he : e <+: e') (he' : e' <+: h)
    (hm : (after q.context s e).mapping? id = some m) (href : m.ref? = some ref)
    (hext : isExternal ref = false) : KeepsContent q.context s e' e id m := by
  have hl := hh.lawful.of_prefix he'
  have href' : ((after q.context s e).entries id).ref? = some ref := by
    rw [entries_of_mapping? hm]
    exact href
  have hsettles := hh.unsettled hdoc (he.trans he') href' hext
  obtain ⟨m', hm'⟩ := (hl.keeps hdoc he).exists_mapping? hm
  refine ⟨m', hm', fun hplace => ?_, fun key v hv => ?_⟩
  · have hsame := hl.get? hdoc he (lt_size_of_mapping? hm) hplace fun d hd => hsettles d (he'.subset hd)
    rw [mapping?_eq_some.mp hm', mapping?_eq_some.mp hm] at hsame
    cases hsame
    rfl
  · obtain ⟨k, rfl⟩ := he
    have hkept := hl.get?_of_unsettled hdoc hm
      (fun d hd => hsettles d (he'.subset (List.mem_append_right e hd))) hv
    rwa [entries_of_mapping? hm'] at hkept

-- The external reference has a mark that counts, or that was emptied by the run, or it stands below a
-- reference that was marked.
inductive SetAside (s : Store) (q : Request) (id : NodeId) (m : Entries) : Prop
  | marked {v : Value} (hv : m.get? (.str circularRefKey) = some v)
      (htruthy : (references s q).store.isTruthy v = true)
  | emptied {j target : NodeId} {ref : String} (hv : m.get? (.str circularRefKey) = some (.node j))
      (hj : .inlined j target ref ∈ (references s q).events)
  | below {a : NodeId} {ref : String} (ha : .circular a ref ∈ (references s q).events)
      (hreach : (references s q).store.Reach a id)

theorem setAside_of_isExternalRef (hs : s.WellFormed) (hdoc : (s.mapping? q.document).isSome)
    (hok : (references s q).result = .ok ()) (hlimits : (references s q).limits = [])
    (hadopted : ∀ name, .adopted refKey name ∉ (references s q).events) {id : NodeId} {m : Entries}
    (hreach : (references s q).store.Reach q.document id)
    (hm : (references s q).store.mapping? id = some m) (hext : isExternalRef m) : SetAside s q id m := by
  cases hne : (s.entries q.document).isEmpty with
  | true =>
      rw [references_of_isEmpty hne] at hreach hm
      rw [← entries_of_mapping? hm, entries_of_isEmpty hdoc hne hreach] at hext
      cases hext
  | false =>
      obtain ⟨c, r, done, hc, hstore, hevents, hinv⟩ :=
        inv_references hs hdoc hne hok hlimits hadopted
      have hreach' := hreach
      have hm' := hm
      rw [hstore] at hreach' hm'
      rw [← hc] at hreach'
      rcases hinv.passed_or_below rfl rfl hreach' hm' hext with hpassed | ⟨a, -, ⟨ref', ha⟩, hbelow⟩
      · obtain ⟨v, hv, htruthy | ⟨j, rfl, -, target, ref', hj⟩⟩ := hpassed
        · exact .marked hv (by rw [hstore]; exact htruthy)
        · exact .emptied hv (by rw [hevents]; exact hj)
      · exact .below (by rw [hevents]; exact ha) (by rw [hstore]; exact hbelow)

-- What a call does about a reference that it leaves alone: nothing.
structure LeftAlone (s : Store) (q : Request) (ref : String) : Prop where
  -- No file is looked up and no mapping is changed for it.
  unnamed : ∀ e ∈ (references s q).events, reference? e ≠ some ref
  -- Every file is read, and every failure comes, for another reference.
  unread : ∀ path, .loaded path ∈ (references s q).events → ∃ node other base l, other ≠ ref ∧
    Finds q.context (references s q).events node other base l ∧ l.path = path
  blameless : ∀ e, (references s q).result = .error e → q.Refuses e ∨ ∃ node other base,
    other ≠ ref ∧ .lookedUp node other base ∈ (references s q).events ∧ ComesOf q.context other base e
  -- The mappings that have it keep what they have, from any moment to any later one.
  content : ∃ h, q.HasHistory s h ∧ ∀ e e' id m, e <+: e' → e' <+: h →
    (after q.context s e).mapping? id = some m → m.ref? = some ref → KeepsContent q.context s e' e id m
  -- The walk goes on in such a mapping as in one that has no reference.
  passed : ∀ walk scope chain id (m : Entries), m.ref? = some ref →
    walkMapping q.context walk scope chain id m =
      walkMapping q.context walk scope chain id (m.erase (.str refKey))
  -- What is found below it after a call without limits is resolved or set aside.
  below : (references s q).result = .ok () → (references s q).limits = [] →
    (∀ name, .adopted refKey name ∉ (references s q).events) →
    ∀ id j m n, (references s q).store.Reach q.document id →
      (references s q).store.mapping? id = some m → m.ref? = some ref →
      (references s q).store.Reach id j → (references s q).store.mapping? j = some n →
      isExternalRef n → SetAside s q j n

theorem walkMapping_erase {c : Context} {walk : Walker} {scope : Scope} {chain : Chain} {id : NodeId}
    {m : Entries} (href : m.ref? = some ref) (hext : isExternal ref = false)
    (hint : isInternal ref = false) : walkMapping c walk scope chain id m =
      walkMapping c walk scope chain id (m.erase (.str refKey)) := by
  have hnone (p : String → Bool) (hp : p ref = false) (s : Store) :
      (pendingRef? s m).filter p = none := by
    unfold pendingRef?
    rw [href]
    cases hfilter : (some ref).filter fun _ => !((m.field? circularRefKey).any s.isTruthy) with
    | none => rfl
    | some r =>
        obtain ⟨hr, -⟩ := Option.filter_eq_some_iff.mp hfilter
        cases hr
        simp [hp]
  have herased (s : Store) : pendingRef? s (m.erase (.str refKey)) = none := by
    unfold pendingRef?
    rw [ref?_eq_none (get?_erase_refKey BEq.rfl)]
    rfl
  unfold walkMapping
  simp only [hnone isExternal hext, hnone isInternal hint, herased, Option.filter_none]

theorem leftAlone_of_not_isExternal (hurl : IsUrl ref) (hext : isExternal ref = false) (hs : s.WellFormed)
    (hdoc : (s.mapping? q.document).isSome) : LeftAlone s q ref := by
  have hother {ev : Event} {other : String} (hin : ev ∈ (references s q).events)
      (href : reference? ev = some other) : other ≠ ref := by
    rintro rfl
    have htrue := isExternal_of_mem_events hdoc hin href
    rw [hext] at htrue
    cases htrue
  obtain ⟨h, hh⟩ := @exists_account s q hdoc
  constructor
  · exact fun e he href => hother he href rfl
  · intro path hin
    obtain ⟨node, other, base, l, hfinds, hpath⟩ := traced_references s q path hin
    exact ⟨node, other, base, l, hother hfinds.1 rfl, hfinds, hpath⟩
  · intro e he
    refine (refuses_or_blamed he).imp_right fun hblamed => ?_
    obtain ⟨node, other, base, hlook, hcomes⟩ := hblamed
    exact ⟨node, other, base, hother hlook rfl, hlook, hcomes⟩
  · exact ⟨h, hh.toHasHistory, fun e e' id m he he' hm href =>
      hh.keepsContent hdoc he he' hm href hext⟩
  · exact fun walk scope chain id m href => walkMapping_erase href hext hurl.isInternal_eq_false
  · intro hok hlimits hadopted id j m n hreach _ _ hbelow hn hn'
    exact setAside_of_isExternalRef hs hdoc hok hlimits hadopted (hreach.trans hbelow) hn hn'

end Call

section Meeting

variable {c : Context} {scope : Scope} {chain : Chain} {r : Run} {id : NodeId} {m n : Entries}
  {ref : String} {allowance : Nat}

-- The program looks the reference up, whether it fails or not.
def LooksUp (node : NodeId) (ref : String) (base : Option String) (x : ResolveM Unit) (r : Run) : Prop :=
  Ensures x r (fun _ r' => .lookedUp node ref base ∈ r'.events) fun _ r' =>
    .lookedUp node ref base ∈ r'.events

-- The document is a mapping, and its first value is a mapping with an external reference, in a run that
-- has met nothing and has room for both.
structure MeetsFirst (c : Context) (r : Run) (id : NodeId) (ref : String) : Prop where
  document : ∃ m rest, r.store.get? c.document = some (.mapping m) ∧ m.ref? = none ∧
    m.values = .node id :: rest
  reference : ∃ n, r.store.get? id = some (.mapping n) ∧ pendingRef? r.store n = some ref
  external : isExternal ref = true
  inner : id ≠ c.document
  fresh : r.visited = []
  room : ((r.walked + 2 : Nat) : Int) ≤ c.settings.maxNodes
  depth : 0 < c.settings.maxRefDepth

-- A mapping that is new to the run and within its limit is counted, and then its reference is looked at.
theorem ensures_walk_mapping {Q : Unit → Run → Prop} {E : Failure ResolutionError → Run → Prop}
    (hm : r.store.get? id = some (.mapping m)) (hvisited : id ∉ r.visited)
    (hchain : chain.hasNode id = false) (hbound : ((r.walked + 1 : Nat) : Int) ≤ c.settings.maxNodes) :
    Ensures (walk c (allowance + 1) scope chain (.node id)) r Q E ↔
      Ensures (walkMapping c (walk c allowance) scope chain id m) { r with walked := r.walked + 1 } Q E := by
  have hnew : ¬(r.visited.contains id || chain.hasNode id) = true := by simp [hvisited, hchain]
  rw [walk]
  simp only [ensures_bind, ensures_get, hm]
  rw [if_neg hnew]
  unfold countNode
  simp only [ensures_bind, ensures_modify, ensures_get, if_pos hbound, ensures_pure, if_true]

theorem looksUp_walk (hn : r.store.get? id = some (.mapping n)) (href : pendingRef? r.store n = some ref)
    (hext : isExternal ref = true) (hvisited : id ∉ r.visited) (hchain : chain.hasNode id = false)
    (hbound : ((r.walked + 1 : Nat) : Int) ≤ c.settings.maxNodes)
    (hdepth : chain.length < c.settings.maxRefDepth) :
    LooksUp id ref scope.base (walk c (allowance + 1) scope chain (.node id)) r := by
  refine (ensures_walk_mapping hn hvisited hchain hbound).mpr ?_
  unfold walkMapping
  rw [ensures_bind, ensures_getStore]
  simp only [href, Option.filter_some, hext, if_true]
  refine (lookedUp_inlineExternal (accounts_walk c allowance) scope chain id ref _).mono
    (fun _ _ h => h.2.resolve_left (by omega)) fun _ _ h => h.1.2.resolve_left (by omega)

theorem looksUp_of_tame {x : ResolveM Unit} (hx : Tame x) {node : NodeId} {base : Option String}
    (hlook : .lookedUp node ref base ∈ r.events) : LooksUp node ref base x r := by
  refine (hx r).mono (fun _ r' h => ?_) fun _ _ hfalse => hfalse.elim
  obtain ⟨l, hl, -⟩ := h.events
  rw [hl]
  exact List.mem_append_left l hlook

theorem MeetsFirst.looksUp_walk_document (h : MeetsFirst c r id ref) :
    LooksUp id ref scope.base (walk c (allowance + 2) scope [] (.node c.document)) r := by
  obtain ⟨m, rest, hm, hplain, hvalues⟩ := h.document
  obtain ⟨n, hn, href⟩ := h.reference
  have hroom := h.room
  have hvisited : id ∉ c.document :: r.visited := by simp [h.fresh, h.inner]
  have hnone : pendingRef? r.store m = none := by
    unfold pendingRef?
    rw [hplain]
    rfl
  refine (ensures_walk_mapping hm (by simp [h.fresh]) rfl (by omega)).mpr ?_
  unfold walkMapping
  simp only [ensures_bind, ensures_getStore, hnone, Option.filter_none, ensures_visit]
  rw [entries_of_mapping? (mapping?_eq_some.mpr hm), hvalues]
  show Ensures (walk c (allowance + 1) scope [] (.node id) >>= fun _ =>
    rest.forM (walk c (allowance + 1) scope [])) _ _ _
  rw [ensures_bind]
  have hlooks : LooksUp id ref scope.base (walk c (allowance + 1) scope [] (.node id))
      { r with walked := r.walked + 1, visited := c.document :: r.visited } :=
    looksUp_walk hn href h.external hvisited rfl (by push_cast at hroom ⊢; omega) h.depth
  refine Ensures.mono hlooks (fun _ r' hlook => ?_) fun _ _ hlook => hlook
  exact (accounts_forM (accounts_walk c _ scope []) rest r').mono (fun _ _ h' => h'.kept hlook)
    fun _ _ h' => h'.1.kept hlook

theorem MeetsFirst.lookedUp_run (h : MeetsFirst c r id ref) :
    .lookedUp id ref scope.base ∈ ((run c scope).run.run r).2.events := by
  have hroot : LooksUp id ref scope.base (walkRoot c scope) r := by
    unfold LooksUp walkRoot
    rw [ensures_tryCatch]
    refine Ensures.mono h.looksUp_walk_document (fun _ _ hlook => hlook) fun e r' hlook => ?_
    split
    · exact looksUp_of_tame (tame_limit _) hlook
    · exact ensures_throw.mpr hlook
  refine Ensures.state (P := fun r' : Run => .lookedUp id ref scope.base ∈ r'.events) ?_
  unfold run
  rw [ensures_bind]
  exact Ensures.mono hroot (fun _ _ => looksUp_of_tame (tame_end scope)) fun _ _ hlook => hlook

theorem MeetsFirst.lookedUp_references {s : Store} {q : Request}
    (hends : references s q = Outcome.of (q.ending s))
    (h : MeetsFirst q.context (startRun s q.document q.scope) id ref) :
    .lookedUp id ref q.scope.base ∈ (references s q).events := by
  rw [hends]
  dsimp only [Outcome.of, Request.ending]
  exact h.lookedUp_run

-- The least document that has the reference, and a call for it without any file to find.
def referring (ref : String) : Store :=
  ⟨#[.ofFields [("a", .node 1)], .ofFields [("$ref", .str ref)]]⟩

def bareCall : Request := ⟨0, none, {}, [], [], none, ⟨.mk [] .nil, ⟨1, []⟩⟩⟩

theorem wellFormed_referring (ref : String) : (referring ref).WellFormed := by
  refine wellFormed_iff.mpr fun id hid v hv j hj => ?_
  match id, hid with
  | 0, _ =>
      cases List.mem_singleton.mp (show v ∈ [Value.node 1] from hv)
      cases hj
      exact Nat.one_lt_two
  | 1, _ =>
      cases List.mem_singleton.mp (show v ∈ [Value.str ref] from hv)
      cases hj

theorem lookedUp_referring (hext : isExternal ref = true) :
    .lookedUp 1 ref none ∈ (references (referring ref) bareCall).events := by
  have hends : references (referring ref) bareCall = Outcome.of (bareCall.ending (referring ref)) :=
    references_eq_ending rfl rfl rfl
  refine MeetsFirst.lookedUp_references hends ?_
  constructor
  case document =>
    exact ⟨((referring ref).ensureComponents 0 "schemas").2.entries 0, [.node 2], rfl, rfl, rfl⟩
  case reference => exact ⟨.ofList [(.str "$ref", .str ref)], rfl, rfl⟩
  case external => exact hext
  case inner => exact Nat.one_ne_zero
  case fresh => rfl
  case room => exact (by decide : (2 : Int) ≤ bareCall.context.settings.maxNodes)
  case depth => decide

-- A URL is left alone by every call if it does not end as a file does. Any other is looked up by the call
-- for a document that has it.
theorem leftAlone_iff (hurl : IsUrl ref) :
    (∀ s q, s.WellFormed → (s.mapping? q.document).isSome → LeftAlone s q ref) ↔
      isExternal ref = false := by
  constructor
  · intro h
    by_contra hext
    have hlook := lookedUp_referring (eq_true_of_ne_false hext)
    exact (h (referring ref) bareCall (wellFormed_referring ref) rfl).unnamed _ hlook rfl
  · exact fun hext s q hs hdoc => leftAlone_of_not_isExternal hurl hext hs hdoc

theorem leftAlone_address : IsUrl "https://example.com/a" ∧ IsUrl "https://example.com/x.yaml" ∧
    (∀ s q, s.WellFormed → (s.mapping? q.document).isSome → LeftAlone s q "https://example.com/a") ∧
    ¬∀ s q, s.WellFormed → (s.mapping? q.document).isSome →
      LeftAlone s q "https://example.com/x.yaml" := by
  have hscheme : "ttps".toList.all Char.isAlphanum = true := by decide
  have hplain : IsUrl "https://example.com/a" :=
    ⟨'h', "ttps".toList, "example.com/a".toList, by decide, by decide,
      fun x hx => .inl (List.all_eq_true.mp hscheme x hx)⟩
  have hfile : IsUrl "https://example.com/x.yaml" :=
    ⟨'h', "ttps".toList, "example.com/x.yaml".toList, by decide, by decide,
      fun x hx => .inl (List.all_eq_true.mp hscheme x hx)⟩
  have hext : isExternal "https://example.com/x.yaml" = true := by decide
  refine ⟨hplain, hfile, (leftAlone_iff hplain).mpr (by decide), fun h => ?_⟩
  rw [(leftAlone_iff hfile).mp h] at hext
  cases hext

end Meeting

end ApiGraph.Resolve
