import ApiGraph.Proofs.Resolve.WalkCoverage

namespace ApiGraph.Resolve

open Store Reference

-- The nodes of the document as it was given, and all that a run makes or loads.
def InScope (s : Store) (document id : NodeId) : Prop :=
  s.Reach document id ∨ s.nodes.size ≤ id

section Start

variable {s : Store} {c : Context} {scope : Scope}

theorem mem_loaded_startRun {d : NodeId}
    (h : d ∈ (startRun s c.document scope).loaded.values) : d = c.document := by
  unfold startRun at h
  dsimp only at h
  split at h
  · rcases OrderedMap.mem_values_insert h with h | h
    · exact h
    · cases h
  · cases h

-- At the start, before the sections are made, the document is the only task.
def firstStage (c : Context) (s : Store) (scope : Scope) : Stage :=
  ⟨{ startRun s c.document scope with store := s }, [], [.node c.document], fun _ => False⟩

theorem not_held_firstStage {id : NodeId} : ¬(firstStage c s scope).Held id := by
  rintro ⟨hactive | ⟨ref, hmarked⟩, -⟩
  · cases hactive
  · cases hmarked

theorem shaped_firstStage (hs : s.WellFormed) (hd : (s.mapping? c.document).isSome) :
    Shaped c (firstStage c s scope) where
  wellFormed := hs
  root := hd
  notHit := rfl
  loaded d hd' := mem_loaded_startRun (s := s) hd' ▸ hd
  agenda id hid := by
    cases List.mem_singleton.mp hid
    exact lt_size_of_mapping? (Option.some_get hd).symm
  done _ := False.elim
  visited _ := nofun
  active _ := nofun
  made _ _ := False.elim
  resolved _ _ := False.elim
  held _ hheld := (not_held_firstStage hheld).elim
  marked _ hmarked := by
    obtain ⟨_, hmarked⟩ := hmarked
    cases hmarked

theorem covers_firstStage : Covers c (firstStage c s scope) where
  root := Stage.covered_of_task List.mem_cons_self
  loaded _ hd := mem_loaded_startRun (s := s) hd ▸ Stage.covered_of_task List.mem_cons_self
  closed _ _ := False.elim
  mark _ _ _ hheld := (not_held_firstStage hheld).elim

theorem scoped_firstStage : Scoped c (InScope s c.document) (firstStage c s scope) where
  new _ := .inr
  closed id j hid hj := by
    rcases hid with hid | hid
    · exact .inl (hid.step hj)
    · exact absurd (lt_size_of_mem_children hj) (Nat.not_lt.mpr hid)
  agenda id hid := by
    cases List.mem_singleton.mp hid
    exact .inl .refl
  held _ hheld := (not_held_firstStage hheld).elim
  root := .inl .refl
  loaded _ hd := mem_loaded_startRun (s := s) hd ▸ .inl .refl

theorem holds_startRun (hs : s.WellFormed) (hd : (s.mapping? c.document).isSome) (scope : Scope) :
    Holds c (InScope s c.document) [] [.node c.document] (startRun s c.document scope) := by
  have hinv : Inv c (InScope s c.document) (firstStage c s scope) :=
    ⟨shaped_firstStage hs hd, covers_firstStage, scoped_firstStage⟩
  obtain ⟨done, hstart, -⟩ := hinv.ensureComponents "schemas" (by decide) (by decide)
  exact fun _ => ⟨done, hstart⟩

theorem hasRoot_startRun (hd : (s.mapping? c.document).isSome) (scope : Scope) :
    HasRoot c (startRun s c.document scope) :=
  (keeps_ensureComponents hd "schemas").1.mapping _ hd

end Start

section Run

variable {c : Context} {P : NodeId → Prop} {T : List Value} {r : Run} {scope : Scope}

theorem ensures_walkRoot (hscope : InFile r scope) (hroot : HasRoot c r)
    (h : Holds c P [] [.node c.document] r) :
    Ensures (walkRoot c scope) r (fun _ r' => Grows r r' ∧ Holds c P [] [] r')
      fun _ _ => True := by
  unfold walkRoot
  rw [ensures_tryCatch]
  refine ((growsFrom_walk c _ scope [] _ r hroot).and
    ((walks_walk c P _).settles hscope hroot h)).mono (fun _ _ ⟨hg, h, _⟩ => ⟨hg, h⟩)
    fun e r' ⟨hg, _⟩ => ?_
  split
  · refine ensures_limit.mpr ⟨hg.trans ?_, .of_limits (by simp)⟩
    exact ⟨.refl _, List.suffix_rfl, List.prefix_rfl, List.prefix_append _ _,
      List.prefix_append _ _⟩
  · exact ensures_throw.mpr trivial

theorem ensures_run (hscope : InFile r scope) (hroot : HasRoot c r)
    (h : Holds c P [] [.node c.document] r) :
    Ensures (run c scope) r (fun _ r' => Holds c P [] [] r') fun _ _ => True := by
  unfold run
  rw [ensures_bind]
  refine (ensures_walkRoot hscope hroot h).mono (fun _ r₁ ⟨hg₁, h₁⟩ => ?_) fun _ _ => id
  rw [ensures_bind]
  refine (ensures_adoptAllDangling h₁ (hroot.mono hg₁)).mono (fun _ r₂ h₂ => ?_) fun _ _ => id
  rw [ensures_bind, ensures_get]
  exact ensures_report.mpr (h₂.report fun _ _ => by simp)

end Run

section Residue

variable {c : Context} {P : NodeId → Prop} {g : Stage}

theorem Stage.Firm.truthy {m : Entries} (h : g.Firm m) :
    ∃ v, m.get? (.str circularRefKey) = some v ∧ g.store.isTruthy v = true := by
  rcases h with h | ⟨id, n, hk, -, hm, hn⟩
  · exact ⟨_, h, rfl⟩
  · exact ⟨_, hk, by simp [isTruthy_of_mapping? hm, hn]⟩

theorem Stage.Due.exists_held (hagenda : g.agenda = []) {id : NodeId} (h : g.Due id) :
    ∃ a, g.Held a ∧ g.store.Reach a id := by
  induction h with
  | task h =>
      rw [hagenda] at h
      cases h
  | held h => exact ⟨_, h, .refl⟩
  | child _ _ hm hk _ _ ih =>
      obtain ⟨a, ha, hreach⟩ := ih
      exact ⟨a, ha, hreach.step ((mem_children_iff hm).mpr ⟨_, hk⟩)⟩

-- Without a task left, all that can be reached is done or stands below a reference that is held.
theorem Inv.residue (h : Inv c P g) (hagenda : g.agenda = []) {id : NodeId}
    (hreach : g.store.Reach c.document id) :
    g.done id ∨ g.store.IsLeaf id ∨ ∃ a, g.Held a ∧ g.store.Reach a id := by
  induction hreach with
  | refl => exact h.cover.root.imp_right fun hc => hc.imp_right (Stage.Due.exists_held hagenda)
  | step _ hj ih =>
      rcases ih with hd | hleaf | ⟨a, ha, hreach⟩
      · exact (h.cover.closed _ _ hd hj).imp_right
          fun hc => hc.imp_right (Stage.Due.exists_held hagenda)
      · rw [hleaf.children] at hj
        cases hj
      · exact .inr (.inr ⟨a, ha, hreach.step hj⟩)

-- A reference that is left was passed by, or it stands below a reference that was marked.
theorem Inv.passed_or_below (h : Inv c P g) (hagenda : g.agenda = []) (hchain : g.chain = [])
    {id : NodeId} {m : Entries} (hreach : g.store.Reach c.document id)
    (hm : g.store.mapping? id = some m) (hext : isExternalRef m) :
    g.Passed m ∨ ∃ a, g.Held a ∧ g.Marked a ∧ g.store.Reach a id := by
  rcases h.residue hagenda hreach with hd | hleaf | ⟨a, ha, hbelow⟩
  · exact .inl (h.shape.resolved id m hd hm hext)
  · have hnone : g.store.mapping? id = none := hleaf.1
    rw [hnone] at hm
    cases hm
  · refine .inr ⟨a, ha, ha.1.resolve_left fun hactive => ?_, hbelow⟩
    rw [hchain] at hactive
    cases hactive

end Residue

section References

variable {s : Store} {q : Request}

-- An empty document is left alone.
theorem references_of_isEmpty (h : (s.entries q.document).isEmpty = true) :
    references s q = ⟨.ok (), s, [], []⟩ := by
  unfold references
  rw [if_pos h]

theorem entries_of_isEmpty {d id : NodeId} (hd : (s.mapping? d).isSome)
    (hempty : (s.entries d).isEmpty = true) (hreach : s.Reach d id) : s.entries id = .empty := by
  obtain ⟨n, hn⟩ := Option.isSome_iff_exists.mp hd
  rw [entries_of_mapping? hn] at hempty
  obtain rfl : n = .empty := OrderedMap.ext (List.isEmpty_iff.mp hempty)
  have hchildren : s.children d = [] := by
    rw [children_of_mapping? hn]
    rfl
  rw [hreach.eq_of_children hchildren, entries_of_mapping? hn]

def Outcome.of (p : Except (Failure ResolutionError) Unit × Run) : Outcome :=
  ⟨p.1, p.2.store, p.2.limits, p.2.events⟩

section Outcome

variable (p : Except (Failure ResolutionError) Unit × Run)

@[simp] theorem Outcome.of_result : (Outcome.of p).result = p.1 := rfl

@[simp] theorem Outcome.of_store : (Outcome.of p).store = p.2.store := rfl

@[simp] theorem Outcome.of_limits : (Outcome.of p).limits = p.2.limits := rfl

@[simp] theorem Outcome.of_events : (Outcome.of p).events = p.2.events := rfl

end Outcome

-- A call that returns is a run, in a context that the document does not change.
theorem references_eq (hne : (s.entries q.document).isEmpty = false)
    (hok : (references s q).result = .ok ()) :
    ∃ c scope, c.document = q.document ∧ scope.isRoot = true ∧
      ∀ s' : Store, (s'.entries q.document).isEmpty = false →
        references s' q = Outcome.of ((run c scope).run.run (startRun s' c.document scope)) := by
  unfold references at hok
  rw [if_neg (by simp [hne])] at hok
  cases harchive : q.archive? with
  | error e =>
      rw [harchive] at hok
      cases hok
  | ok archive =>
      rw [harchive] at hok
      dsimp only at hok
      split at hok
      · cases hok
      · next hpossible =>
        let locator := Locator.make q.tree archive q.roots q.settings.maxFileSize
          q.settings.searchWalkDepth
        refine ⟨⟨q.document, locator, q.settings⟩,
          rootScope q.tree q.document (rootLocation? archive q.source), rfl, rfl, fun s' hne' => ?_⟩
        unfold references
        rw [if_neg (by simp [hne']), harchive]
        dsimp only
        rw [if_neg hpossible, StateT.run]
        generalize ExceptT.run (run _ _) _ = p
        rfl

-- The invariant holds at the end of a call without limits.
theorem inv_references (hs : s.WellFormed) (hdoc : (s.mapping? q.document).isSome)
    (hne : (s.entries q.document).isEmpty = false) (hok : (references s q).result = .ok ())
    (hlimits : (references s q).limits = [])
    (hadopted : ∀ name, .adopted refKey name ∉ (references s q).events) :
    ∃ c r done, c.document = q.document ∧ (references s q).store = r.store ∧
      (references s q).events = r.events ∧
      Inv c (InScope s q.document) ⟨r, [], [], done⟩ := by
  obtain ⟨c, scope, hc, hroot, hrun⟩ := references_eq hne hok
  have houtcome := hrun s hne
  rw [houtcome] at hok hlimits hadopted ⊢
  rw [← hc] at hdoc ⊢
  have hscope : InFile (startRun s c.document scope) scope := .inl hroot
  have hholds := ensures_run hscope (hasRoot_startRun hdoc scope) (holds_startRun hs hdoc scope)
  rcases hend : (run c scope).run.run (startRun s c.document scope) with ⟨e | a, r⟩
  · rw [hend] at hok
    cases hok
  · rw [hend] at hlimits hadopted
    obtain ⟨done, hinv⟩ := (ensures_of_ok hend).mp hholds ⟨hlimits, hadopted⟩
    exact ⟨c, r, done, rfl, rfl, rfl, hinv⟩

-- No mark counts at the end of the call.
def Unmarked (s : Store) (q : Request) : Prop :=
  ∀ id m v, InScope s q.document id → (references s q).store.mapping? id = some m →
    m.get? (.str circularRefKey) = some v → (references s q).store.isTruthy v = false

-- A reference whose mark is a reference to an empty file, before and after the call.
def emptiedMark : Store :=
  ⟨#[
    .ofFields [("a", .node 1)],
    .ofFields [("$ref", .str "a.json"), ("x-circular-ref", .node 2)],
    .ofFields [("$ref", .str "b.json")]]⟩

def emptiedMarkAfter : Store :=
  ⟨#[
    .ofFields [("a", .node 1), ("components", .node 3)],
    .ofFields [("$ref", .str "a.json"), ("x-circular-ref", .node 2)],
    .ofFields [],
    .ofFields [("schemas", .node 4)],
    .ofFields [],
    .ofFields []]⟩

def emptiedMarkCall : Request :=
  ⟨0, none, {}, [], [], none, ⟨.mk [("b.json", .bytes "\x7b\x7d".toUTF8)] .nil, ⟨1, []⟩⟩⟩

theorem references_emptiedMark : references emptiedMark emptiedMarkCall =
    ⟨.ok (), emptiedMarkAfter, [],
      [.lookedUp 2 "b.json" none, .loaded "/b.json", .inlined 2 5 "b.json", .resolved 1 6]⟩ := by
  rfl

theorem unmarked_of_all {o : Outcome} (ho : references s q = o)
    (h : ∀ id < o.store.nodes.size, ∀ m ∈ o.store.mapping? id, ∀ v ∈ m.get? (.str circularRefKey),
      o.store.isTruthy v = false) : Unmarked s q := by
  unfold Unmarked
  rw [ho]
  exact fun id m v _ hm hv => h id (lt_size_of_mapping? hm) m hm v hv

theorem unmarked_emptiedMark : Unmarked emptiedMark emptiedMarkCall :=
  unmarked_of_all references_emptiedMark (by decide)

-- The call ends well and without a limit, and no mark counts. The mapping is an external reference still.
structure LeftUnmarked (s : Store) (q : Request) (id : NodeId) (m : Entries) : Prop where
  wellFormed : s.WellFormed
  isMapping : (s.mapping? q.document).isSome
  result : (references s q).result = .ok ()
  limits : (references s q).limits = []
  unmarked : Unmarked s q
  reach : (references s q).store.Reach q.document id
  mapping : (references s q).store.mapping? id = some m
  external : isExternalRef m

-- The mark counted when the walk came by, so the reference stays; at the end it does not count.
theorem leftUnmarked_emptiedMark :
    LeftUnmarked emptiedMark emptiedMarkCall 1 (emptiedMarkAfter.entries 1) := by
  have hchild : .node 1 ∈ emptiedMarkAfter.children 0 := by decide
  refine ⟨by decide, by decide, ?_, ?_, unmarked_emptiedMark, ?_, ?_, by decide⟩
  all_goals rw [references_emptiedMark]
  · exact .step .refl hchild
  · rfl

-- Components that are a reference to a file, with a reference beside it. The file copies them once their
-- own reference is overwritten, and then it overwrites what stood beside it.
def overwritten : Store :=
  ⟨#[
    .ofFields [("components", .node 1)],
    .ofFields [("$ref", .str "c.json"), ("foo", .node 2)],
    .sequence [.node 3],
    .ofFields [("$ref", .str "d.json")]]⟩

def overwrittenCall : Request :=
  let file := "\x7b\"a\":[\x7b\"$ref\":\"#/components/$ref/N\"\x7d," ++
    "\x7b\"$ref\":\"r.json#/components\"\x7d,\x7b\"$ref\":\"#/components/foo/P\"\x7d]," ++
    "\"components\":\x7b\"$ref\":\x7b\"N\":\x7b\x7d\x7d,\"foo\":\x7b\"P\":\x7b\x7d\x7d\x7d\x7d"
  ⟨0, some (.text "r.json"), {}, [], [], none,
    ⟨.mk [("r.json", .bytes "".toUTF8), ("c.json", .bytes file.toUTF8)] .nil, ⟨1, []⟩⟩⟩

def overwrittenEnd : Outcome := references overwritten overwrittenCall

theorem unmarked_overwritten : overwrittenEnd.result.isOk = true ∧ overwrittenEnd.limits = [] ∧
    (∀ id < overwrittenEnd.store.nodes.size, ∀ m ∈ overwrittenEnd.store.mapping? id,
      ∀ v ∈ m.get? (.str circularRefKey), overwrittenEnd.store.isTruthy v = false) ∧
    (.node 1 ∈ overwrittenEnd.store.children 0 ∧ .node 8 ∈ overwrittenEnd.store.children 1 ∧
      .node 6 ∈ overwrittenEnd.store.children 8 ∧ .node 2 ∈ overwrittenEnd.store.children 6 ∧
      .node 3 ∈ overwrittenEnd.store.children 2) ∧
    ∃ m ∈ overwrittenEnd.store.mapping? 3, isExternalRef m ∧ m.get? (.str circularRefKey) = none := by
  decide +kernel

-- The copy counts as walked, so no walk comes to the reference in it.
theorem leftUnmarked_overwritten :
    ∃ m, LeftUnmarked overwritten overwrittenCall 3 m ∧ m.get? (.str circularRefKey) = none := by
  obtain ⟨hok, hlimits, hmarks, ⟨h₁, h₈, h₆, h₂, h₃⟩, m, hm, hext, hnone⟩ := unmarked_overwritten
  have hresult : overwrittenEnd.result = .ok () := by
    cases hend : overwrittenEnd.result with
    | ok a => rfl
    | error e =>
        rw [hend] at hok
        cases hok
  have hreach : overwrittenEnd.store.Reach 0 3 :=
    .step (.step (.step (.step (.step .refl h₁) h₈) h₆) h₂) h₃
  have hunmarked : Unmarked overwritten overwrittenCall := unmarked_of_all (o := overwrittenEnd) rfl hmarks
  exact ⟨m, ⟨by decide, by decide, hresult, hlimits, hunmarked, hreach, hm, hext⟩, hnone⟩

end References

end ApiGraph.Resolve
