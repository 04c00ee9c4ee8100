import ApiGraph.Proofs.Resolve.Adoption
import ApiGraph.Proofs.Splitting.Layout

namespace ApiGraph.Splitting

open Store Resolve Reference

section File

variable {s t : Store} {q : Request} {names : List String} {loaded : OrderedMap String NodeId}
  {n key : String} {x body : NodeId} {m mx : Entries} {r r' : Run}

-- The content of a file, next to the schema that it is the file of.
structure IsContent (s t : Store) (m mx : Entries) : Prop where
  alike : Alike (SameContent s t) m mx
  schema : mx.looksLikeSchema = true
  unreferring : mx.has refKey = false
  bare : mx.has "components" = false

theorem Filed.exists_content (hs : Splits s q names) (hn : n ∈ names)
    (h : Filed s q t loaded n key x) : ∃ body m mx, IsBody s q n body m ∧
      IsCopy s body t s.nodes.size x ∧ t.mapping? x = some mx ∧ IsContent s t m mx := by
  obtain ⟨body, m, hbody⟩ := hs.exists_body hn
  have hcopy := h.copy body hbody.component
  obtain ⟨mx, hmx, halike⟩ := hcopy.same.mapping? hbody.mapping
  refine ⟨body, m, mx, hbody, hcopy, hmx, halike, ?_, ?_, ?_⟩
  · rw [← halike.looksLikeSchema, hbody.schema]
  · rw [← halike.has, hbody.unreferring]
  · rw [← halike.has, hbody.bare]

theorem Filed.componentIn?_eq_none (hs : Splits s q names) (hn : n ∈ names)
    (h : Filed s q t loaded n key x) (kind name : String) : componentIn? t x kind name = none := by
  obtain ⟨body, m, mx, -, -, hmx, hcontent⟩ := h.exists_content hs hn
  cases hin : componentIn? t x kind name with
  | none => rfl
  | some id =>
      obtain ⟨p, mp, -, -, -, hp, -⟩ := componentIn?_eq_some_iff.mp hin
      obtain ⟨hk, -⟩ := fieldMapping?_eq_some.mp hp
      have hbare := hcontent.bare
      rw [entries_of_mapping? hmx] at hk
      rw [Entries.has, OrderedMap.contains_eq_isSome_get?, hk] at hbare
      cases hbare

-- What is in a file refers to no other file.
theorem Filed.selfContained (hs : Splits s q names) (hn : n ∈ names)
    (h : Filed s q t loaded n key x) : SelfContained t x := by
  obtain ⟨body, m, -, hbody, hcopy, -, -⟩ := h.exists_content hs hn
  intro b mb hb hmb
  obtain ⟨a, ha, hsame⟩ := hcopy.same.exists_reach hb
  obtain ⟨ma, hma, halike⟩ := hsame.symm.mapping? hmb
  have hfree := hs.selfContained a ma ((reach_of_componentIn? hbody.component).trans ha) hma
  unfold isExternalRef at hfree ⊢
  rwa [Entries.ref?, halike.text? fun _ _ => SameContent.string?]

theorem Laid.rests (h : Laid s q names r) (hr : Rests r r') : Laid s q names r' where
  layout := by
    rw [hr.store, hr.loaded]
    exact h.layout
  body id n hc := by
    rw [hr.store, hr.loaded]
    exact (h.body id n hc).imp_right fun hreturned => ⟨hr.visited hreturned.1, hreturned.2⟩
  log := hr.log.trans h.log

theorem Laid.barren (hs : Splits s q names) (h : Laid s q names r) {scope : Scope}
    (hscope : scope.isRoot = true ∨ ∃ n ∈ names, ∃ key, Filed s q r.store r.loaded n key scope.document) :
    Barren q.context scope r where
  here := hscope.imp_right fun ⟨_, hn, _, hfiled⟩ => hfiled.componentIn?_eq_none hs hn
  others d hd hother := by
    obtain ⟨key, hkey⟩ := OrderedMap.mem_values_iff.mp hd
    obtain ⟨n, hn, hfiled⟩ := h.layout.exists_filed hkey hother
    exact hfiled.componentIn?_eq_none hs hn

end File

section Taking

variable {m : Entries} {key n : String}

theorem erase_of_has_eq_false (h : m.has key = false) : m.erase (.str key) = m := by
  refine OrderedMap.ext ?_
  rw [OrderedMap.entries_erase, List.filter_eq_self]
  intro e he
  rw [Bool.not_eq_true']
  exact eq_false_of_ne_true (List.any_eq_false.mp h e he)

theorem erase_fileReference (n : String) : (fileReference n).erase (.str refKey) = .empty := rfl

theorem inlinedContent_empty (h : m.has refKey = false) :
    inlinedContent m .empty (some n) = withNote n m := by
  unfold inlinedContent
  rw [erase_of_has_eq_false h]
  rfl

theorem ref?_eq_none_of_has (h : m.has refKey = false) : m.ref? = none := by
  rw [Entries.has, OrderedMap.contains_eq_isSome_get?, Option.isSome_eq_false_iff, Option.isNone_iff_eq_none] at h
  exact ref?_eq_none h

end Taking

section Return

variable {s : Store} {q : Request} {names : List String} {n key : String} {node x : NodeId}
  {l : Location} {r r' : Run} {chain : Chain}

-- The schema is still to come back from its file.
structure Waits (s : Store) (q : Request) (names : List String) (n : String) (node : NodeId)
    (r : Run) : Prop where
  laid : Laid s q names r
  chosen : chosen? s q.document names node = some n
  reference : r.store.mapping? node = some (fileReference n)

theorem Waits.rests (h : Waits s q names n node r) (hr : Rests r r') : Waits s q names n node r' :=
  ⟨h.laid.rests hr, h.chosen, hr.store ▸ h.reference⟩

theorem fileKey?_of_beside? (hl : q.beside? n = some l) :
    q.fileKey? n = some (locationKey q.tree l) := by
  unfold Request.fileKey?
  rw [hl]
  rfl

theorem ensures_load_file (hs : Splits s q names) (hl : q.beside? n = some l)
    (h : Waits s q names n node r) (chain : Chain) (allowance : Nat) :
    Ensures (load q.context (walk q.context allowance) chain l (locationKey q.tree l)) r
      (fun x r' => Waits s q names n node r' ∧
        Filed s q r'.store r'.loaded n (locationKey q.tree l) x)
      fun e r' => e = .fault .stackExhausted ∧ Laid s q names r' := by
  obtain ⟨hn, -⟩ := of_chosen? h.chosen
  have hkey := fileKey?_of_beside? hl
  unfold load
  rw [ensures_bind, ensures_get]
  split
  · next x hx => exact ensures_pure.mpr ⟨h, h.laid.layout.filed hs hn hkey hx⟩
  · next hnew =>
    obtain ⟨body, m, hbody⟩ := hs.exists_body hn
    obtain ⟨l', hl', -, hread⟩ := hs.files n hn
    obtain rfl : l' = l := Option.some.inj (hl'.symm.trans hl)
    obtain ⟨x, t', hparse, hcopy⟩ := hread body r.store hbody.component
    have hext := (extends_parseFile hparse).1
    have hold : node < r.store.nodes.size :=
      Nat.lt_of_lt_of_le (hs.lt_size_of_chosen? h.chosen) h.laid.layout.size
    have hlaid := h.laid.load hs hext hnew hn hkey fun body' hbody' => by
      obtain rfl := Option.some.inj (hbody.component.symm.trans hbody')
      exact hcopy
    rw [ensures_bind, ensures_getStore, hparse]
    simp only [ensures_bind, ensures_modify, ensures_report]
    -- The file was loaded and is walked.
    generalize hr₁ : ({ r with
      store := t'
      loaded := r.loaded.insert (locationKey q.tree l') x
      events := r.events ++ [.loaded l'.path] } : Run) = r₁
    have h₁ : Waits s q names n node r₁ := by
      subst hr₁
      exact ⟨hlaid.rests (rests_report rfl), h.chosen, (mapping?_congr (hext.old node hold)).trans h.reference⟩
    have hfound : r₁.loaded.get? (locationKey q.tree l') = some x := by
      subst hr₁
      simp [OrderedMap.get?_insert]
    have hfiled := h₁.laid.layout.filed hs hn hkey hfound
    have hbarren : Barren q.context (scopeOf q.context x (locationKey q.tree l') l') r₁ :=
      h₁.laid.barren hs (.inr ⟨n, hn, _, hfiled⟩)
    refine Ensures.mono (safe_walk_of_selfContained (hfiled.selfContained hs hn) hbarren)
      (fun _ r' hr' => ?_) fun e r' he => ⟨he.1, h₁.laid.rests he.2⟩
    rw [ensures_pure, hr'.store, hr'.loaded]
    exact ⟨h₁.rests hr', hfiled⟩

-- What is bound is not bound again.
theorem ensures_registerSchema_of_has {c : Context} {p sq target : NodeId} {mp mq : Entries} {ref : String}
    (hp : r.store.fieldMapping? c.document "components" = some (p, mp))
    (hq : r.store.fieldMapping? p "schemas" = some (sq, mq)) (hn : mq.has n = true) :
    Ensures (registerSchema c n target ref) r (fun _ r' => r' = r) fun _ _ => False := by
  have hsections : r.store.ensureComponents c.document "schemas" = (sq, r.store) := by
    unfold ensureComponents
    rw [ensureField_of_fieldMapping? hp]
    exact ensureField_of_fieldMapping? hq
  unfold registerSchema bindComponent
  simp only [ensures_bind, ensures_getStore, hsections, ensures_setStore,
    entries_of_mapping? (fieldMapping?_eq_some.mp hq).2, hn, if_true, ensures_pure]
  exact ensures_pure.mpr rfl

theorem ensures_take_file (hs : Splits s q names) (h : Waits s q names n node r)
    (hfiled : Filed s q r.store r.loaded n key x) :
    Ensures (takeContent q.context node x (fileName n) (some n)) r
      (fun own r' => Laid s q names r' ∧ own = some .empty) fun _ _ => False := by
  obtain ⟨hn, -⟩ := of_chosen? h.chosen
  obtain ⟨body, m, mx, -, -, hmx, hcontent⟩ := hfiled.exists_content hs hn
  have hne : node ≠ x := Nat.ne_of_lt (Nat.lt_of_lt_of_le (hs.lt_size_of_chosen? h.chosen)
    (hfiled.range hs hn (y := x) ⟨[], rfl⟩).1)
  -- The state in which the schema is to be registered.
  obtain ⟨r₁, hr₁⟩ : ∃ r₁ : Run, r₁ = { r with
    store := r.store.set node (.mapping (withNote n mx))
    visited := node :: r.visited
    events := r.events ++ [.inlined node x (fileName n)] } := ⟨_, rfl⟩
  have hlaid : Laid s q names r₁ := by
    have htaken := (h.laid.take hs h.chosen hfiled).rests
      (rests_report (e := .inlined node x (fileName n)) rfl)
    rw [entries_of_mapping? hmx] at htaken
    rw [hr₁]
    exact htaken
  obtain ⟨p, mp, sq, mq, hin, hsections⟩ := hs.exists_sections (of_chosen? h.chosen).2
  have hhas : mq.has n = true := by
    rw [Entries.has, OrderedMap.contains_eq_isSome_get?, hin]
    rfl
  obtain ⟨hp, hq⟩ := hsections _ hlaid.layout.preserved
  unfold takeContent replaceContent
  simp only [ensures_bind, ensures_getStore, ensures_setStore, ensures_pure, ensures_report, ensures_visit,
    entries_of_mapping? h.reference, erase_fileReference, entries_set_of_ne hne, entries_of_mapping? hmx,
    set_set, inlinedContent_empty hcontent.unreferring, ← hr₁]
  refine (ensures_registerSchema_of_has (c := q.context) hp hq hhas).mono (fun _ r' hr' => ?_) fun _ _ => id
  subst hr'
  exact ⟨hlaid, trivial⟩

theorem ensures_inline_file (hs : Splits s q names) (h : Waits s q names n node r)
    (hfiled : Filed s q r.store r.loaded n key x) (chain : Chain) (l : Location) (allowance : Nat) :
    Ensures (inlineMapping q.context
        (fun id => walk q.context allowance (scopeOf q.context x key l) chain (.node id)) node x
        (fileName n) (some n)) r
      (fun own r' => Laid s q names r' ∧ own = some .empty)
      fun e r' => e = .fault .stackExhausted ∧ Laid s q names r' := by
  obtain ⟨hn, -⟩ := of_chosen? h.chosen
  obtain ⟨body, m, mx, -, -, hmx, hcontent⟩ := hfiled.exists_content hs hn
  have hbarren : Barren q.context (scopeOf q.context x key l) r :=
    h.laid.barren hs (.inr ⟨n, hn, _, hfiled⟩)
  unfold inlineMapping
  rw [ensures_bind, ensures_getStore, hmx]
  simp only [Option.isNone_some, Bool.false_eq_true, if_false]
  rw [ensures_bind]
  refine Ensures.mono (safe_walk_of_selfContained (hfiled.selfContained hs hn) hbarren)
    (fun _ r' hr' => ?_) fun e r' he => ⟨he.1, h.laid.rests he.2⟩
  have hmx' : r'.store.mapping? x = some mx := by rw [hr'.store, hmx]
  have hfiled' : Filed s q r'.store r'.loaded n key x := by
    rw [hr'.store, hr'.loaded]
    exact hfiled
  have hne : node ≠ x := Nat.ne_of_lt (Nat.lt_of_lt_of_le (hs.lt_size_of_chosen? h.chosen)
    (hfiled.range hs hn (y := x) ⟨[], rfl⟩).1)
  unfold takeWalked
  rw [ensures_bind, ensures_getStore]
  simp only [clearedContent, entries_set_of_ne hne, entries_of_mapping? hmx',
    ref?_eq_none_of_has hcontent.unreferring, hcontent.schema, Option.any_none, Bool.false_eq_true, if_false, if_true]
  exact (ensures_take_file hs (h.rests hr') hfiled').mono (fun _ _ => id) fun _ _ => False.elim

theorem ensures_recover_file (hs : Splits s q names) (h : Waits s q names n node r)
    (hl : q.beside? n = some l) (chain : Chain) (allowance : Nat) :
    Ensures (recover (fileName n) (inlineTarget q.context (walk q.context allowance) chain node (fileName n)
        (locationKey q.tree l) l [] (some n))) r
      (fun own r' => Laid s q names r' ∧ ∀ m, own = some m → m = .empty) fun _ _ => False := by
  have hinner : Ensures (inlineTarget q.context (walk q.context allowance) chain node (fileName n)
        (locationKey q.tree l) l [] (some n)) r
      (fun own r' => Laid s q names r' ∧ own = some .empty)
      fun e r' => e = .fault .stackExhausted ∧ Laid s q names r' := by
    unfold inlineTarget
    rw [ensures_bind]
    refine (ensures_load_file hs hl h chain allowance).mono (fun x r₁ hend => ?_) fun _ _ => id
    obtain ⟨h₁, hfiled⟩ := hend
    unfold targetOf
    simp only [List.isEmpty_nil, if_true, ensures_bind, ensures_pure]
    exact ensures_inline_file hs h₁ hfiled chain l allowance
  unfold recover
  rw [ensures_tryCatch]
  refine hinner.mono (fun own r' hend => ?_) fun e r' hend => ?_
  · obtain ⟨hlaid, hown⟩ := hend
    refine ⟨hlaid, fun m hm => ?_⟩
    rw [hown] at hm
    exact (Option.some.inj hm).symm
  · obtain ⟨rfl, hlaid⟩ := hend
    simp only [ensures_bind, ensures_limit, ensures_pure]
    exact ⟨hlaid.rests (rests_limit _), fun m hm => by cases hm⟩

-- The reference is resolved, unless a limit stops that.
theorem safe_inlineExternal_file (hs : Splits s q names) (hnonempty : n ≠ "")
    (h : Waits s q names n node r) (allowance : Nat) :
    Safe (Laid s q names) (inlineExternal q.context (walk q.context allowance) q.scope [] node (fileName n)) r := by
  obtain ⟨hn, -⟩ := of_chosen? h.chosen
  have hword := hs.words n hn
  obtain ⟨l, hl, -, -⟩ := hs.files n hn
  unfold inlineExternal Safe
  dsimp only
  split
  · simp only [ensures_bind, ensures_limit, ensures_pure]
    exact h.laid.rests (rests_limit _)
  · unfold locate
    rw [filePart_fileName hword, pointerPart_fileName hword, locate_beside hword hl, fileStem?_fileName hword hnonempty]
    simp only [ensures_bind, ensures_report, ensures_pure]
    have h₁ := h.rests (rests_report (e := .lookedUp node (fileName n) q.scope.base) rfl)
    generalize { r with events := r.events ++ [Event.lookedUp node (fileName n) q.scope.base] } = r₁ at h₁ ⊢
    have hempty : segments "" = [] := by decide
    rw [hempty, if_neg (by simp [Chain.hasTarget])]
    rw [ensures_bind]
    refine (ensures_recover_file hs h₁ hl _ allowance).mono (fun own r₂ hend => ?_) fun _ _ => False.elim
    obtain ⟨hlaid, hown⟩ := hend
    cases own with
    | none => exact ensures_pure.mpr hlaid
    | some own =>
        rw [hown own rfl]
        exact ensures_pure.mpr hlaid

end Return

section Run

variable {s : Store} {q : Request} {names : List String} {n : String} {id : NodeId} {r : Run}

-- The description is kept but for references to files.
theorem tour_movedOut (hs : Splits s q names) (hnonempty : "" ∉ names) :
    Tour q.context q.scope [] (Laid s q names) (s.Reach q.document) where
  rests := Laid.rests
  barren h := h.barren hs (.inl rfl)
  child {r id j} h hid hv hj := by
    cases hc : chosen? s q.document names id with
    | none =>
        refine hid.step ?_
        unfold children at hj ⊢
        rwa [← h.layout.preserved id (hs.closed id hid.contains) hc]
    | some n =>
        rcases h.body id n hc with hm | ⟨hvisited, -⟩
        · rw [children_of_mapping? hm] at hj
          have hscalar := List.mem_singleton.mp hj
          cases hscalar
        · exact absurd hvisited hv
  external {r id m ref} allowance h hid hv hm href hexternal := by
    cases hc : chosen? s q.document names id with
    | none =>
        rw [mapping?_congr (h.layout.preserved id (hs.closed id hid.contains) hc)] at hm
        have hfree := hs.selfContained id m hid hm
        rw [isExternalRef_iff.mpr ⟨ref, href, hexternal⟩] at hfree
        cases hfree
    | some n =>
        rcases h.body id n hc with hreference | ⟨hvisited, -⟩
        · obtain rfl : fileReference n = m := Option.some.inj (hreference.symm.trans hm)
          obtain rfl : fileName n = ref := Option.some.inj href
          have hne : n ≠ "" := fun heq => hnonempty (heq ▸ (of_chosen? hc).1)
          exact safe_inlineExternal_file hs hne ⟨h, hc, hreference⟩ allowance
        · exact absurd hvisited hv

theorem preserves_withBodies (f : String → Entries → Entries) :
    Preserves s q names (withBodies s q.document names f) :=
  fun _ _ hnone => get?_withBodies_of_none hnone

-- The sections are there, so nothing is made before the walk.
theorem Splits.ensureComponents (hs : Splits s q names) {t : Store} (hn : n ∈ names)
    (ht : Preserves s q names t) : (t.ensureComponents q.document "schemas").2 = t := by
  obtain ⟨body, m, hbody⟩ := hs.exists_body hn
  obtain ⟨p, mp, sq, mq, -, hsections⟩ := hs.exists_sections hbody.component
  obtain ⟨hp, hq⟩ := hsections t ht
  unfold Store.ensureComponents
  rw [ensureField_of_fieldMapping? hp]
  dsimp only
  rw [ensureField_of_fieldMapping? hq]

-- Only the description itself is loaded before the walk.
theorem loaded_startRun {s : Store} {document x : NodeId} {scope : Scope} {key : String}
    (hx : (startRun s document scope).loaded.get? key = some x) : x = document ∧ scope.key = some key := by
  unfold startRun at hx
  dsimp only at hx
  split at hx
  · next key' hkey =>
    rw [OrderedMap.get?_insert] at hx
    split at hx
    · next heq =>
      obtain rfl := eq_of_beq heq
      exact ⟨(Option.some.inj hx).symm, hkey⟩
    · cases hx
  · cases hx

theorem laid_start (hs : Splits s q names) (hn : n ∈ names) :
    Laid s q names (startRun (movedOut s q.document names) q.document q.scope) := by
  have hstore : (startRun (movedOut s q.document names) q.document q.scope).store =
      movedOut s q.document names := hs.ensureComponents hn (preserves_withBodies _)
  constructor
  · constructor
    · rw [hstore]
      exact Nat.le_of_eq size_withBodies.symm
    · rw [hstore]
      exact preserves_withBodies _
    · exact fun key x hx => .inl (loaded_startRun hx)
    · intro key key' x x' y hx _ hne
      exact absurd (loaded_startRun hx).1 hne
  · intro id n' hc
    obtain ⟨m, hbody⟩ := hs.isBody hc
    rw [hstore]
    exact .inl (mapping?_withBodies hc hbody.mapping)
  · rfl

-- Resolving the description does not fail, and it leaves the documents in their order.
theorem laid_ending (hs : Splits s q names) (hnonempty : "" ∉ names) (hn : n ∈ names) :
    ∃ r, q.ending (movedOut s q.document names) = (.ok (), r) ∧ Laid s q names r := by
  have hrun : Ensures (run q.context q.scope) (startRun (movedOut s q.document names) q.document q.scope)
      (fun _ => Laid s q names) fun _ _ => False :=
    (tour_movedOut hs hnonempty).run (laid_start hs hn) .refl
  unfold Request.ending
  rcases hend : (run q.context q.scope).run.run
    (startRun (movedOut s q.document names) q.document q.scope) with ⟨e | a, r⟩
  · exact ((ensures_of_error hend).mp hrun).elim
  · exact ⟨r, rfl, (ensures_of_ok hend).mp hrun⟩

theorem Laid.componentIn? (hs : Splits s q names) (h : Laid s q names r)
    (hc : chosen? s q.document names id = some n) :
    componentIn? r.store q.document "schemas" n = some id := by
  obtain ⟨p, mp, sq, mq, hin, hsections⟩ := hs.exists_sections (of_chosen? hc).2
  obtain ⟨hp, hq⟩ := hsections _ h.layout.preserved
  obtain ⟨m, hm⟩ := Option.isSome_iff_exists.mp (h.isSome_mapping? hc)
  refine componentIn?_eq_some_iff.mpr ⟨p, mp, sq, mq, m, hp, hq, fieldMapping?_eq_some.mpr ⟨?_, hm⟩⟩
  rw [entries_of_mapping? (fieldMapping?_eq_some.mp hq).2]
  exact hin

theorem wellFormed_movedOut (hs : Splits s q names) : (movedOut s q.document names).WellFormed := by
  intro id j hj
  unfold movedOut
  rw [size_withBodies]
  cases hc : chosen? s q.document names id with
  | none =>
      refine hs.wellFormed id j ?_
      unfold children at hj ⊢
      unfold movedOut at hj
      rwa [get?_withBodies_of_none hc] at hj
  | some n =>
      obtain ⟨m, hbody⟩ := hs.isBody hc
      have hm : (movedOut s q.document names).mapping? id = some (fileReference n) :=
        mapping?_withBodies hc hbody.mapping
      rw [children_of_mapping? hm] at hj
      have hscalar := List.mem_singleton.mp hj
      cases hscalar

-- Where no limit was met, every schema came back.
theorem Laid.returned (hs : Splits s q names) (h : Laid s q names r)
    (hend : q.ending (movedOut s q.document names) = (.ok (), r)) (hlimits : r.limits = [])
    (hc : chosen? s q.document names id = some n) : Returned s q r.store r.loaded n id := by
  have hrepair {e : Event} (he : e ∈ r.events) : isRepair e = false := by
    by_contra hrepair
    have hin : e ∈ r.events.filter isRepair := List.mem_filter.mpr ⟨he, eq_true_of_ne_false hrepair⟩
    rw [h.log] at hin
    cases hin
  have hclean : Clean r := ⟨hlimits, fun name hin => by cases hrepair hin⟩
  have hdoc : ((movedOut s q.document names).mapping? q.document).isSome := by
    obtain ⟨p, mp, sq, mq, -, hsections⟩ := hs.exists_sections (of_chosen? hc).2
    obtain ⟨m, hm, -⟩ := mapping?_of_fieldMapping? (hsections _ (preserves_withBodies _)).1
    exact Option.isSome_of_eq_some hm
  obtain ⟨done, hinv⟩ := inv_ending (wellFormed_movedOut hs) hdoc hend hclean
  rcases h.body id n hc with hm | ⟨-, hreturned⟩
  · exfalso
    have hreach := reach_of_componentIn? (h.componentIn? hs hc)
    have hexternal : isExternalRef (fileReference n) = true :=
      isExternalRef_iff.mpr ⟨fileName n, rfl, isExternal_fileName (hs.words n (of_chosen? hc).1)⟩
    rcases hinv.passed_or_below rfl rfl hreach hm hexternal with ⟨v, hv, -⟩ | ⟨a, -, ⟨ref, hmarked⟩, -⟩
    · cases hv
    · cases hrepair hmarked
  · exact hreturned

end Run

end ApiGraph.Splitting
