import ApiGraph.Proofs.Resolve.Disturbance
import ApiGraph.Proofs.Resolve.Sections

namespace ApiGraph.Resolve

open Store Reference

variable {c : Context} {s : Store} {loaded : OrderedMap String NodeId} {T : List Value} {r : Run}

section Sweep

-- What was visited needs no resolving, and what stands in it was visited or is on the agenda.
structure Swept (c : Context) (s : Store) (T : List Value) (visited : List NodeId) : Prop where
  root : c.document ∈ visited ∨ .node c.document ∈ T
  quiet : ∀ id ∈ visited, ∀ m, s.mapping? id = some m → isPending s m = false
  closed : ∀ id ∈ visited, ∀ j, .node j ∈ s.children id →
    j ∈ visited ∨ s.IsLeaf j ∨ .node j ∈ T

-- The run has only swept the document so far.
structure Sweeps (c : Context) (s : Store) (loaded : OrderedMap String NodeId) (T : List Value)
    (r : Run) : Prop where
  root : HasRoot c r
  store : r.store = s
  loaded : r.loaded = loaded
  hit : r.nodeLimitHit = true → r.limits ≠ []
  swept : r.limits = [] → Swept c s T r.visited

theorem Swept.retask {T' : List Value} {visited : List NodeId} (h : Swept c s T visited)
    (hd : (s.mapping? c.document).isSome)
    (ht : ∀ j, .node j ∈ T → j ∈ visited ∨ s.IsLeaf j ∨ .node j ∈ T') : Swept c s T' visited where
  root := by
    refine h.root.elim .inl fun htask => (ht _ htask).imp_right fun h => h.resolve_left fun hleaf => ?_
    rw [hleaf.1] at hd
    cases hd
  quiet := h.quiet
  closed id hid j hj := by
    rcases h.closed id hid j hj with hv | hleaf | htask
    · exact .inl hv
    · exact .inr (.inl hleaf)
    · exact ht j htask

theorem Sweeps.of_limits {T' : List Value} (h : Sweeps c s loaded T r) (hl : r.limits ≠ []) :
    Sweeps c s loaded T' r :=
  { h with swept := fun hnone => absurd hnone hl }

-- A task that was visited or holds nothing is no task any more.
theorem Sweeps.settle {v : Value} (h : Sweeps c s loaded (v :: T) r)
    (hv : ∀ id, v = .node id → id ∈ r.visited ∨ s.IsLeaf id) : Sweeps c s loaded T r := by
  refine { h with swept := fun hnone => (h.swept hnone).retask (h.store ▸ h.root) fun j hj => ?_ }
  rcases List.mem_cons.mp hj with hj | hj
  · exact (hv j hj.symm).imp_right .inl
  · exact .inr (.inr hj)

-- All that stands in a container is a task once it was visited.
theorem Sweeps.visit {id : NodeId} (h : Sweeps c s loaded (.node id :: T) r)
    (hquiet : ∀ m, s.mapping? id = some m → isPending s m = false) :
    Sweeps c s loaded (s.children id ++ T) { r with visited := id :: r.visited } := by
  refine { h with swept := fun hnone => ?_ }
  have hswept := h.swept hnone
  constructor
  · rcases hswept.root with hroot | hroot
    · exact .inl (List.mem_cons_of_mem _ hroot)
    · rcases List.mem_cons.mp hroot with hroot | hroot
      · cases hroot
        exact .inl List.mem_cons_self
      · exact .inr (List.mem_append_right _ hroot)
  · intro i hi
    rcases List.mem_cons.mp hi with rfl | hi
    · exact hquiet
    · exact hswept.quiet i hi
  · intro i hi j hj
    rcases List.mem_cons.mp hi with rfl | hi
    · exact .inr (.inr (List.mem_append_left _ hj))
    · rcases hswept.closed i hi j hj with hv | hleaf | htask
      · exact .inl (List.mem_cons_of_mem _ hv)
      · exact .inr (.inl hleaf)
      · rcases List.mem_cons.mp htask with hself | htask
        · cases hself
          exact .inl List.mem_cons_self
        · exact .inr (.inr (List.mem_append_right _ htask))

-- A sweep that comes to its end without a limit has seen all of the document.
theorem Sweeps.isQuiet (h : Sweeps c s loaded [] r) (hnone : r.limits = []) :
    Quiet s c.document := by
  have hswept := h.swept hnone
  have hseen {id : NodeId} (hreach : s.Reach c.document id) : id ∈ r.visited ∨ s.IsLeaf id := by
    induction hreach with
    | refl => exact hswept.root.elim .inl nofun
    | step _ hj ih =>
        rcases ih with hv | hleaf
        · exact (hswept.closed _ hv _ hj).imp_right fun h => h.resolve_right nofun
        · rw [hleaf.children] at hj
          cases hj
  intro id m hreach hm
  rcases hseen hreach with hv | hleaf
  · exact hswept.quiet id hv m hm
  · have hnone : s.mapping? id = none := hleaf.1
    rw [hnone] at hm
    cases hm

-- The run has met a reference to resolve, or has gone on after a limit.
structure Disturbs (c : Context) (s : Store) (r : Run) : Prop where
  root : HasRoot c r
  unquiet : ¬Quiet s c.document
  mark : r.limits ≠ [] ∨ Changed s c.document r.store

def Passes (c : Context) (s : Store) (loaded : OrderedMap String NodeId) (T : List Value)
    (r : Run) : Prop := Sweeps c s loaded T r ∨ Disturbs c s r

-- A sweep is broken off only where the document is nested too deep.
def Breaks (c : Context) (s : Store) (loaded : OrderedMap String NodeId)
    (e : Failure ResolutionError) (r : Run) : Prop :=
  Quiet s c.document → e = .fault .stackExhausted ∧ r.store = s ∧ r.loaded = loaded

-- What was disturbed stays so while the run goes on.
theorem Disturbs.ensures {α : Type} {x : ResolveM α} (h : Disturbs c s r) (hg : GrowsFrom r x) :
    Ensures x r (fun _ r' => Disturbs c s r') fun _ _ => ¬Quiet s c.document := by
  refine Ensures.mono hg (fun _ r' hg => ⟨h.root.mono hg, h.unquiet, ?_⟩) fun _ _ _ => h.unquiet
  refine h.mark.imp (fun hlimits hnone => hlimits ?_) fun hchanged => hchanged.mono hg.store
  exact List.prefix_nil.mp (hnone ▸ hg.limits)

end Sweep

section Walk

variable {walk : Walker} {scope : Scope}

-- Walking a value in the root document, outside of any reference.
structure Sweeper (c : Context) (s : Store) (loaded : OrderedMap String NodeId) (walk : Walker) :
    Prop where
  grows : ∀ scope chain v r, HasRoot c r → GrowsFrom r (walk scope chain v)
  passes : ∀ {scope : Scope} {T : List Value} {r : Run} {v : Value}, scope.isRoot = true →
    (∀ id, v = .node id → s.Reach c.document id) → Passes c s loaded (v :: T) r →
    Ensures (walk scope [] v) r (fun _ r' => Passes c s loaded T r') (Breaks c s loaded)

theorem ensures_sweepValues (hw : Sweeper c s loaded walk) (hscope : scope.isRoot = true)
    {vs : List Value} (hvs : ∀ id, .node id ∈ vs → s.Reach c.document id)
    (h : Passes c s loaded (vs ++ T) r) :
    Ensures (vs.forM (walk scope [])) r (fun _ r' => Passes c s loaded T r')
      (Breaks c s loaded) := by
  refine (ensures_forM (I := fun rest r' => (∀ id, .node id ∈ rest → s.Reach c.document id) ∧
    Passes c s loaded (rest ++ T) r') ⟨hvs, h⟩ fun v rest r' ⟨hrest, h'⟩ => ?_).mono
      (fun _ _ h => h.2) fun _ _ h => h
  refine (hw.passes hscope (fun id hid => hrest id (hid ▸ List.mem_cons_self)) h').mono
    (fun _ _ h => ⟨fun id hid => hrest id (List.mem_cons_of_mem _ hid), h⟩) fun _ _ h => h

-- Counting leaves the sweep as it is; a container that is not counted leaves a limit behind.
theorem ensures_sweepCount (h : Sweeps c s loaded T r) :
    Ensures (countNode c scope) r
      (fun counted r' => Sweeps c s loaded T r' ∧ (counted = false → r'.limits ≠ []))
      (Breaks c s loaded) := by
  unfold countNode
  simp only [ensures_bind, ensures_modify, ensures_get]
  split
  · exact ensures_pure.mpr ⟨{ h with }, fun hcounted => by cases hcounted⟩
  · split
    · simp only [ensures_bind, ensures_set, ensures_limit, ensures_pure]
      exact ⟨{ h with hit := fun _ => by simp, swept := fun hnone => by simp at hnone },
        fun _ => by simp⟩
    · next hhit =>
      exact ensures_pure.mpr ⟨{ h with }, fun _ => h.hit (by simpa using hhit)⟩

theorem ensures_sweepVisit (hw : Sweeper c s loaded walk) (hscope : scope.isRoot = true)
    {id : NodeId} {vs : List Value} (hreach : s.Reach c.document id)
    (h : Sweeps c s loaded (.node id :: T) r) (hvs : vs = s.children id)
    (hquiet : ∀ m, s.mapping? id = some m → isPending s m = false) :
    Ensures (vs.forM (walk scope [])) { r with visited := id :: r.visited }
      (fun _ r' => Passes c s loaded T r') (Breaks c s loaded) := by
  subst hvs
  exact ensures_sweepValues hw hscope (fun _ hj => hreach.step hj) (.inl (h.visit hquiet))

theorem ensures_sweepMapping (hw : Sweeper c s loaded walk) (hscope : scope.isRoot = true)
    {id : NodeId} {m : Entries} (hreach : s.Reach c.document id) (hm : s.mapping? id = some m)
    (h : Sweeps c s loaded (.node id :: T) r) :
    Ensures (walkMapping c walk scope [] id m) r (fun _ r' => Passes c s loaded T r')
      (Breaks c s loaded) := by
  obtain rfl := h.store
  unfold walkMapping
  rw [ensures_bind, ensures_getStore]
  dsimp only
  split
  · next ref href =>
    have hpending : isPending r.store m = true := by
      unfold isPending
      rw [href]
      rfl
    have hunquiet : ¬Quiet r.store c.document := fun hquiet => by
      rw [hquiet id m hreach hm] at hpending
      cases hpending
    have hmeets : Meets c r.store r id m :=
      { keeps := .refl _, root := h.root, reach := hreach, before := hm,
        pending := hpending }
    have hg := growsFrom_inlineExternal hw.grows h.root hmeets.mapping scope [] ref
    exact (hg.ensures (changed_inlineExternal hw.grows hmeets)).mono
      (fun _ r' ⟨hg, hmark⟩ => .inr ⟨h.root.mono hg, hunquiet, hmark⟩)
      fun _ _ _ hquiet => absurd hquiet hunquiet
  · next hnone =>
    have hquiet : ∀ n, r.store.mapping? id = some n → isPending r.store n = false := by
      intro n hn
      obtain rfl : m = n := Option.some.inj (hm.symm.trans hn)
      unfold isPending
      rw [Option.isSome_eq_false_iff, Option.isNone_iff_eq_none]
      exact Option.eq_none_iff_forall_ne_some.mpr hnone
    have hvalues : (r.store.entries id).values = r.store.children id := by
      rw [entries_of_mapping? hm, children_of_mapping? hm]
    split
    · next ref _ =>
      have hnoted : Sweeps c r.store loaded (.node id :: T)
          { r with rootRefs := r.rootRefs ++ [ref] } := { h with }
      unfold noteInternal
      rw [if_pos hscope]
      simp only [ensures_bind, ensures_modify, ensures_visit, ensures_getStore]
      exact ensures_sweepVisit hw hscope hreach hnoted hvalues hquiet
    · simp only [ensures_bind, ensures_visit, ensures_getStore]
      exact ensures_sweepVisit hw hscope hreach h hvalues hquiet

theorem ensures_sweepExpand (hw : Sweeper c s loaded walk) (hscope : scope.isRoot = true)
    {id : NodeId} {container : Container} (hreach : s.Reach c.document id)
    (hget : s.get? id = some container) (hleaf : ¬s.IsLeaf id)
    (h : Sweeps c s loaded (.node id :: T) r) :
    Ensures (expand c walk scope [] id container) r (fun _ r' => Passes c s loaded T r')
      (Breaks c s loaded) := by
  cases container with
  | set _ => exact absurd (by simp [IsLeaf, mapping?, sequence?, hget]) hleaf
  | sequence items =>
      unfold expand
      rw [ensures_bind, ensures_visit]
      refine ensures_sweepVisit hw hscope hreach h (children_of_get? hget).symm fun m hm => ?_
      rw [mapping?_eq_some, hget] at hm
      cases hm
  | mapping m => exact ensures_sweepMapping hw hscope hreach (mapping?_eq_some.mpr hget) h

end Walk

theorem sweeper_walk (c : Context) (s : Store) (loaded : OrderedMap String NodeId)
    (allowance : Nat) : Sweeper c s loaded (walk c allowance) := by
  induction allowance with
  | zero =>
      refine ⟨growsFrom_walk c 0, fun {scope T r v} _ _ h => ?_⟩
      rcases h with h | h
      · exact ensures_throw.mpr fun _ => ⟨rfl, h.store, h.loaded⟩
      · exact (h.ensures (growsFrom_walk c 0 _ _ _ _ h.root)).mono (fun _ _ => .inr)
          fun _ _ hunquiet hquiet => absurd hquiet hunquiet
  | succ allowance ih =>
      refine ⟨growsFrom_walk c (allowance + 1), fun {scope T r v} hscope hreach h => ?_⟩
      rcases h with h | h
      · refine ensures_walk (fun hskip => .inl (h.settle fun id hid => ?_))
          fun id container hv hget hleaf _ _ => ?_
        · rw [← h.store]
          exact (hskip id hid).imp_right fun hrest => hrest.resolve_left Bool.false_ne_true
        · subst hv
          refine (ensures_sweepCount h).mono (fun counted r₁ ⟨h₁, hlimit⟩ => ?_) fun _ _ h => h
          cases counted with
          | true =>
              rw [h.store] at hget hleaf
              exact ensures_sweepExpand ih hscope (hreach id rfl) hget hleaf h₁
          | false => exact .inl (h₁.of_limits (hlimit rfl))
      · exact (h.ensures (growsFrom_walk c (allowance + 1) _ _ _ _ h.root)).mono
          (fun _ _ => .inr) fun _ _ hunquiet hquiet => absurd hquiet hunquiet

section Run

variable {scope : Scope}

theorem ensures_sweepRoot (hscope : scope.isRoot = true)
    (h : Sweeps c s loaded [.node c.document] r) :
    Ensures (walkRoot c scope) r (fun _ r' => Passes c s loaded [] r')
      fun _ _ => ¬Quiet s c.document := by
  unfold walkRoot
  rw [ensures_tryCatch]
  have hpasses := (sweeper_walk c s loaded nestingAllowance).passes hscope
    (fun id hid => by cases hid; exact .refl) (.inl h)
  refine (hpasses.and (growsFrom_walk c _ scope [] _ r h.root)).mono (fun _ _ h => h.1)
    fun e r' ⟨hbreaks, hg⟩ => ?_
  have hroot : HasRoot c r' := h.root.mono hg
  by_cases hquiet : Quiet s c.document
  · obtain ⟨rfl, hstore, hloaded⟩ := hbreaks hquiet
    refine ensures_limit.mpr (.inl ?_)
    exact ⟨hroot, hstore, hloaded, fun _ => by simp, fun hnone => by simp at hnone⟩
  · split
    · exact ensures_limit.mpr (.inr ⟨hroot, hquiet, .inl (by simp)⟩)
    · exact ensures_throw.mpr hquiet

-- Where no file is loaded there is nothing to adopt from.
theorem findLoaded?_eq_none (hloaded : ∀ d ∈ r.loaded.values, d = c.document)
    (path : List String) : findLoaded? c r none path = none := by
  have hnone : r.loaded.values.filter (fun d => d ≠ c.document ∧ some d ≠ none) = [] := by
    rw [List.filter_eq_nil_iff]
    intro d hd
    simp [hloaded d hd]
  unfold findLoaded?
  rw [hnone]
  cases component? path with
  | none => rfl
  | some e => rfl

theorem ensures_sweepAdopt (hloaded : ∀ d ∈ loaded.values, d = c.document)
    (h : Sweeps c s loaded [] r) {E : Failure ResolutionError → Run → Prop} :
    Ensures (adoptAllDangling c) r (fun _ r' => Sweeps c s loaded [] r') E := by
  unfold adoptAllDangling
  rw [ensures_bind, ensures_get]
  refine ensures_forM (I := fun _ q => Sweeps c s loaded [] q) h fun ref _ q hq => ?_
  unfold adoptDangling
  dsimp only
  rw [ensures_bind, ensures_get]
  split
  · exact ensures_pure.mpr hq
  · rw [findLoaded?_eq_none (hq.loaded ▸ hloaded)]
    split
    · next hfound => cases hfound
    · exact ensures_report.mpr { hq with }

-- A run on a document without a reference to resolve ends where it began.
theorem ensures_sweepRun (hscope : scope.isRoot = true)
    (hloaded : ∀ d ∈ loaded.values, d = c.document) (h : Sweeps c s loaded [.node c.document] r) :
    Ensures (run c scope) r (fun _ r' => Passes c s loaded [] r')
      fun _ _ => ¬Quiet s c.document := by
  unfold run
  rw [ensures_bind]
  refine (ensures_sweepRoot hscope h).mono (fun _ r₁ h₁ => ?_) fun _ _ h => h
  rw [ensures_bind]
  rcases h₁ with h₁ | h₁
  · refine (ensures_sweepAdopt hloaded h₁).mono (fun _ r₂ h₂ => ?_) fun _ _ h => h
    rw [ensures_bind, ensures_get]
    exact ensures_report.mpr (.inl { h₂ with })
  · refine (h₁.ensures (growsFrom_adoptAllDangling h₁.root)).mono (fun _ r₂ h₂ => ?_)
      fun _ _ h => h
    rw [ensures_bind, ensures_get]
    exact ensures_report.mpr (.inr { h₂ with })

end Run

theorem growsFrom_run (h : HasRoot c r) (scope : Scope) : GrowsFrom r (run c scope) := by
  have hroot : GrowsFrom r (walkRoot c scope) := by
    unfold walkRoot GrowsFrom
    rw [ensures_tryCatch]
    refine Ensures.mono (growsFrom_walk c _ scope [] _ r h) (fun _ _ h => h) fun e r' hg => ?_
    split
    · exact Ensures.mono (growsFrom_limit _) (fun _ _ => hg.trans) fun _ _ => hg.trans
    · exact ensures_throw.mpr hg
  unfold run
  refine hroot.bind fun _ r₁ hg₁ => ?_
  refine (growsFrom_adoptAllDangling (h.mono hg₁)).bind fun _ r₂ _ => ?_
  exact growsFrom_get (growsFrom_report _)

section Calls

variable {s₁ : Store} {q : Request} {events : List Event}

-- The call returns and leaves the document as it is.
def Idle (s : Store) (q : Request) : Prop :=
  (references s q).result = .ok () ∧
    ∀ id, s.Reach q.document id → (references s q).store.get? id = s.get? id

theorem quiet_of_isEmpty (hdoc : (s.mapping? q.document).isSome)
    (h : (s.entries q.document).isEmpty = true) : Quiet s q.document := by
  intro id m hreach hm
  have hempty := entries_of_isEmpty hdoc h hreach
  rw [entries_of_mapping? hm] at hempty
  rw [hempty]
  rfl

-- A second call starts from the document as the first one left it.
theorem references_second (hdoc : (s.mapping? q.document).isSome)
    (hne : (s.entries q.document).isEmpty = false)
    (hfirst : references s q = ⟨.ok (), s₁, [], events⟩) :
    ∃ c scope, c.document = q.document ∧ scope.isRoot = true ∧
      (startRun s₁ c.document scope).store = s₁ ∧ HasRoot c (startRun s₁ c.document scope) ∧
      references s₁ q = Outcome.of ((run c scope).run.run (startRun s₁ c.document scope)) := by
  obtain ⟨c, scope, hc, hroot, hrun⟩ := references_eq hne (by rw [hfirst])
  have hstart := hasRoot_startRun (c := c) (hc ▸ hdoc) scope
  have hkeeps := (growsFrom_run hstart scope).state.store
  have hsame : ((run c scope).run.run (startRun s c.document scope)).2.store = s₁ := by
    have houtcome := hrun s hne
    rw [hfirst] at houtcome
    generalize (run c scope).run.run (startRun s c.document scope) = p at houtcome
    exact congrArg Outcome.store houtcome.symm
  rw [hsame] at hkeeps
  obtain ⟨hfull, hcomponents⟩ :=
    ensureComponents_of_keeps (hc ▸ hdoc) (by decide) (by decide) hkeeps
  have hstore : (startRun s₁ c.document scope).store = s₁ := hcomponents
  refine ⟨c, scope, hc, hroot, hstore, ?_, hrun s₁ ?_⟩
  · unfold HasRoot
    rw [hstore]
    exact hkeeps.mapping _ hstart
  · rw [← hc]
    exact hfull

theorem sweeps_startRun {c : Context} {scope : Scope}
    (hstore : (startRun s₁ c.document scope).store = s₁)
    (hroot : HasRoot c (startRun s₁ c.document scope)) :
    Sweeps c s₁ (startRun s₁ c.document scope).loaded [.node c.document]
      (startRun s₁ c.document scope) := by
  refine ⟨hroot, hstore, rfl, nofun, fun _ => ⟨.inr List.mem_cons_self, ?_, ?_⟩⟩
  · exact fun _ h => nomatch h
  · exact fun _ h => nomatch h

-- A reference that was passed by for what stood under its mark: a reference too, and inlined to
-- nothing since.
def Emptied (s : Store) (events : List Event) (m : Entries) : Prop :=
  ∃ id n target ref, m.get? (.str circularRefKey) = some (.node id) ∧
    s.mapping? id = some n ∧ n.isEmpty ∧ .inlined id target ref ∈ events

-- What the first call leaves to resolve stands below a reference that it marked.
theorem left_below_marked (hs : s.WellFormed) (hdoc : (s.mapping? q.document).isSome)
    (hfirst : references s q = ⟨.ok (), s₁, [], events⟩)
    (hadopted : ∀ name, .adopted refKey name ∉ events) {id : NodeId} {m : Entries}
    (hreach : s₁.Reach q.document id) (hm : s₁.mapping? id = some m) (hpending : isPending s₁ m) :
    Emptied s₁ events m ∨ ∃ a ref, .circular a ref ∈ events ∧ s₁.Reach a id := by
  cases hne : (s.entries q.document).isEmpty with
  | true =>
      obtain rfl : s₁ = s := congrArg Outcome.store (hfirst.symm.trans (references_of_isEmpty hne))
      rw [quiet_of_isEmpty hdoc hne id m hreach hm] at hpending
      cases hpending
  | false =>
      obtain ⟨c, r, done, hc, hstore, hevents, hinv⟩ :=
        inv_references hs hdoc hne (by rw [hfirst]) (by rw [hfirst]) (by rw [hfirst]; exact hadopted)
      rw [hfirst] at hstore hevents
      obtain rfl : s₁ = r.store := hstore
      obtain rfl : events = r.events := hevents
      obtain ⟨hext, hmark⟩ := isPending_iff.mp hpending
      rcases hinv.passed_or_below rfl rfl (hc ▸ hreach) hm hext with
        ⟨v, hv, htruthy | ⟨j, rfl, hj, target, ref, hin⟩⟩ | ⟨a, -, ⟨ref, hmarked⟩, hbelow⟩
      · have hfalse : r.store.isTruthy v = true := htruthy
        rw [hmark v hv] at hfalse
        cases hfalse
      · obtain ⟨n, hn⟩ : ∃ n, r.store.mapping? j = some n := Option.isSome_iff_exists.mp hj
        refine .inl ⟨j, n, target, ref, hv, hn, ?_, hin⟩
        simpa [isTruthy_of_mapping? hn] using hmark _ hv
      · exact .inr ⟨a, ref, hmarked, hbelow⟩

-- A second call is without effect where no reference to resolve is left. Where one is left, it has an
-- effect or meets a limit.
theorem quiet_idle (hdoc : (s.mapping? q.document).isSome)
    (hfirst : references s q = ⟨.ok (), s₁, [], events⟩) :
    (Quiet s₁ q.document → Idle s₁ q) ∧
      (Idle s₁ q → (references s₁ q).limits = [] → Quiet s₁ q.document) := by
  cases hne : (s.entries q.document).isEmpty with
  | true =>
      have hempty := references_of_isEmpty hne
      obtain rfl : s₁ = s := congrArg Outcome.store (hfirst.symm.trans hempty)
      refine ⟨fun _ => ?_, fun _ _ => quiet_of_isEmpty hdoc hne⟩
      unfold Idle
      rw [hempty]
      exact ⟨rfl, fun _ _ => rfl⟩
  | false =>
      obtain ⟨c, scope, hc, hroot, hstore, hmapping, hsecond⟩ := references_second hdoc hne hfirst
      have hrun := ensures_sweepRun hroot (fun _ => mem_loaded_startRun)
        (sweeps_startRun hstore hmapping)
      unfold Idle
      rw [hsecond, ← hc]
      rcases hend : (run c scope).run.run (startRun s₁ c.document scope) with ⟨e | a, r⟩
      · -- Only a reference to resolve makes the call fail.
        have hunquiet : ¬Quiet s₁ c.document := (ensures_of_error hend).mp hrun
        refine ⟨fun hquiet => absurd hquiet hunquiet, fun hidle => ?_⟩
        cases hidle.1
      · have hpasses := (ensures_of_ok hend).mp hrun
        constructor
        · intro hquiet
          rcases hpasses with hsweeps | hdisturbs
          · exact ⟨rfl, fun id _ => congrArg (Store.get? · id) hsweeps.store⟩
          · exact absurd hquiet hdisturbs.unquiet
        · intro hidle hlimits
          rcases hpasses with hsweeps | hdisturbs
          · exact hsweeps.isQuiet hlimits
          · obtain ⟨id, hreach, hne⟩ := (hdisturbs.mark.resolve_left fun h => h hlimits).get?_ne
            exact absurd (hidle.2 id hreach) hne

-- A second call changes nothing up to what is left below the references that the first one marked as
-- circular, and beside marks that were emptied. A component that was adopted into a section called
-- like the reference key may have taken the place of a reference.
theorem second_call_idle_iff (hs : s.WellFormed) (hdoc : (s.mapping? q.document).isSome)
    (hfirst : references s q = ⟨.ok (), s₁, [], events⟩) :
    (Quiet s₁ q.document → Idle s₁ q) ∧
      (Idle s₁ q → (references s₁ q).limits = [] → Quiet s₁ q.document) ∧
      ((∀ name, .adopted refKey name ∉ events) → ∀ id m, s₁.Reach q.document id →
        s₁.mapping? id = some m → isPending s₁ m →
          Emptied s₁ events m ∨ ∃ a ref, .circular a ref ∈ events ∧ s₁.Reach a id) := by
  obtain ⟨hidle, hquiet⟩ := quiet_idle hdoc hfirst
  exact ⟨hidle, hquiet, fun hadopted _ _ => left_below_marked hs hdoc hfirst hadopted⟩

-- A reference to the mapping that it stands in, with a reference to another file beside it; before and
-- after the first call.
def markedLoop : Store :=
  ⟨#[
    .ofFields [("a", .node 1)],
    .ofFields [("$ref", .str "r.json#/a"), ("x", .node 2)],
    .ofFields [("$ref", .str "l.json")]]⟩

def markedLoopAfter : Store :=
  ⟨#[
    .ofFields [("a", .node 1), ("components", .node 3)],
    .ofFields [("$ref", .str "r.json#/a"), ("x", .node 2), ("x-circular-ref", .scalar (.bool true)),
      ("x-resolved-ref", .str "#/components/schemas/a")],
    .ofFields [("$ref", .str "l.json")],
    .ofFields [("schemas", .node 4)],
    .ofFields []]⟩

def markedLoopCall : Request :=
  let document := "\x7b\"a\":\x7b\"$ref\":\"r.json#/a\",\"x\":\x7b\"$ref\":\"l.json\"\x7d\x7d\x7d"
  ⟨0, some (.text "r.json"), {}, [], [], none,
    ⟨.mk [("r.json", .bytes document.toUTF8), ("l.json", .bytes "\x7b\x7d".toUTF8)] .nil,
      ⟨1, []⟩⟩⟩

theorem references_markedLoop : references markedLoop markedLoopCall =
    ⟨.ok (), markedLoopAfter, [],
      [.lookedUp 1 "r.json#/a" (some "/"), .circular 1 "r.json#/a", .resolved 0 4]⟩ := by
  rfl

theorem limits_markedLoopAfter : (references markedLoopAfter markedLoopCall).limits = [] := by
  rfl

theorem not_quiet_markedLoopAfter : ¬Quiet markedLoopAfter 0 := by
  intro hquiet
  have ha : .node 1 ∈ markedLoopAfter.children 0 := by decide
  have hx : .node 2 ∈ markedLoopAfter.children 1 := by decide
  have hpending := hquiet 2 (markedLoopAfter.entries 2) (.step (.step .refl ha) hx) rfl
  revert hpending
  decide

theorem markedLoopAfter_not_idle : ¬Idle markedLoopAfter markedLoopCall := by
  obtain ⟨-, hquiet, -⟩ := second_call_idle_iff (by decide) (by decide) references_markedLoop
  exact fun hidle => not_quiet_markedLoopAfter (hquiet hidle limits_markedLoopAfter)

end Calls

end ApiGraph.Resolve
