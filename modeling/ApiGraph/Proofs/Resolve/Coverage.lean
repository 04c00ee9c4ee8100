import ApiGraph.Proofs.Resolve.Step

namespace ApiGraph.Resolve

open Store Reference

variable {c : Context} {P : NodeId → Prop} {chain : Chain} {T : List Value} {r r' : Run}

section Holds

-- No limit was met, and no section called like the reference key took the place of a reference.
def Clean (r : Run) : Prop := r.limits = [] ∧ ∀ name, .adopted refKey name ∉ r.events

theorem Clean.of_grows (h : Clean r') (hg : Grows r r') : Clean r := by
  refine ⟨List.prefix_nil.mp (h.1 ▸ hg.limits), fun name hn => ?_⟩
  exact h.2 name (hg.events.subset hn)

def Holds (c : Context) (P : NodeId → Prop) (chain : Chain) (T : List Value) (r : Run) : Prop :=
  Clean r → ∃ done, Inv c P ⟨r, chain, T, done⟩

-- The value was walked: it was visited or is held back, or there is nothing to walk.
def Settled (chain : Chain) (r : Run) (v : Value) : Prop :=
  ∀ id, v = .node id → id ∈ r.visited ∨ r.store.IsLeaf id ∨
    chain.hasNode id = true ∨ ∃ ref, .circular id ref ∈ r.events

theorem Settled.mono {v : Value} (h : Settled chain r v) (hg : Grows r r')
    (hv : ∀ id : Nat, v = .node id → id < r.store.nodes.size) : Settled chain r' v := by
  intro id hid
  rcases h id hid with hvisited | hleaf | hactive | ⟨ref, hmarked⟩
  · exact .inl (hg.visited.subset hvisited)
  · exact .inr (.inl (hleaf.mono (hv id hid) hg.store.toGrows))
  · exact .inr (.inr (.inl hactive))
  · exact .inr (.inr (.inr ⟨ref, hg.events.subset hmarked⟩))

theorem Skipped.settled {v : Value} (h : Skipped r chain v) : Settled chain r v :=
  fun id hid => (h id hid).imp_right fun hrest => hrest.symm.imp_right .inl

theorem Holds.of_limits (h : r.limits ≠ []) : Holds c P chain T r := fun hc => absurd hc.1 h

theorem Holds.congr (h : Holds c P chain T r) (hs : r'.store = r.store)
    (hv : r'.visited = r.visited) (hl : r'.loaded = r.loaded)
    (hn : r'.nodeLimitHit = r.nodeLimitHit)
    (he : ∀ id ref, .circular id ref ∈ r'.events ↔ .circular id ref ∈ r.events)
    (hevents : r.events ⊆ r'.events) (hclean : Clean r' → Clean r) : Holds c P chain T r' := by
  intro hc
  obtain ⟨done, hinv⟩ := h (hclean hc)
  let g' : Stage := ⟨r', chain, T, done⟩
  have hheld (id : NodeId) : g'.Held id ↔ Stage.Held ⟨r, chain, T, done⟩ id := by
    simp only [g', Stage.Held, Stage.Marked, he, hv]
  refine ⟨done, hinv.congr hs hv hl hn rfl rfl (fun _ => id) hheld
    (fun _ => Exists.imp fun _ => Exists.imp fun _ hin => hevents hin) fun id hid => ?_⟩
  exact hinv.shape.marked id (by simpa only [Stage.Marked, he] using hid)

-- Reporting keeps what holds, as long as no mark is reported.
theorem Holds.report (h : Holds c P chain T r) {e : Event} (he : ∀ id ref, e ≠ .circular id ref) :
    Holds c P chain T { r with events := r.events ++ [e] } := by
  refine h.congr rfl rfl rfl rfl (fun id ref => ?_) (List.subset_append_left _ _) fun hclean =>
    ⟨hclean.1, fun name hn => hclean.2 name (List.mem_append_left _ hn)⟩
  rw [List.mem_append, List.mem_singleton]
  exact or_iff_left (Ne.symm (he id ref))

theorem Holds.retask {T' : List Value} (h : Holds c P chain T r)
    (ht : ∀ done, Inv c P ⟨r, chain, T, done⟩ → ∀ id, .node id ∈ T →
      Stage.Covered ⟨r, chain, T', done⟩ id)
    (hn : ∀ done, Inv c P ⟨r, chain, T, done⟩ → ∀ id : Nat, .node id ∈ T' →
      .node id ∈ T ∨ (id < r.store.nodes.size ∧ P id)) : Holds c P chain T' r := by
  intro hc
  obtain ⟨done, hinv⟩ := h hc
  exact ⟨done, hinv.retask (ht done hinv) (hn done hinv)⟩

-- A value that was walked leaves the agenda.
theorem Holds.settle {v : Value} (h : Holds c P chain (v :: T) r)
    (hs : Clean r → Settled chain r v) : Holds c P chain T r := by
  intro hc
  refine h.retask (fun done hinv id hid => ?_) (fun _ _ id hid => .inl (List.mem_cons_of_mem _ hid))
    hc
  rcases List.mem_cons.mp hid with hid | hid
  · by_cases hv : id ∈ r.visited
    · exact .inl (hinv.shape.visited id hv)
    · rcases hs hc id hid.symm with hv' | hleaf | hheld
      · exact absurd hv' hv
      · exact .inr (.inl hleaf)
      · exact Stage.covered_of_held ⟨hheld, hv⟩
  · exact Stage.covered_of_task hid

-- Values of the run may be put on the agenda.
theorem Holds.weaken {T' : List Value} (h : Holds c P chain T r) (hsub : ∀ v ∈ T, v ∈ T')
    (hn : ∀ done, Inv c P ⟨r, chain, T, done⟩ → ∀ id : Nat, .node id ∈ T' →
      .node id ∈ T ∨ (id < r.store.nodes.size ∧ P id)) : Holds c P chain T' r :=
  h.retask (fun _ _ _ hid => Stage.covered_of_task (hsub _ hid)) hn

end Holds

section Run

variable {Q : PUnit → Run → Prop} {E : Failure ResolutionError → Run → Prop}

@[simp] theorem ensures_report {e : Event} :
    Ensures (report e) r Q E ↔ Q ⟨⟩ { r with events := r.events ++ [e] } := by
  unfold report
  rw [ensures_modify]

@[simp] theorem ensures_setStore {s : Store} :
    Ensures (setStore s) r Q E ↔ Q ⟨⟩ { r with store := s } := by
  unfold setStore
  rw [ensures_modify]

@[simp] theorem ensures_visit {id : NodeId} :
    Ensures (visit id) r Q E ↔ Q ⟨⟩ { r with visited := id :: r.visited } := by
  unfold visit
  rw [ensures_modify]

@[simp] theorem ensures_limit {l : SoftLimit} :
    Ensures (limit l) r Q E ↔
      Q ⟨⟩ { r with limits := r.limits ++ [l], events := r.events ++ [.resolutionLimit l] } := by
  unfold limit
  rw [ensures_bind, ensures_modify, ensures_report]

@[simp] theorem ensures_fail {α : Type} {e : ResolutionError} {Q : α → Run → Prop} :
    Ensures (fail e : ResolveM α) r Q E ↔ E (.announced e) r := by
  unfold fail
  exact ensures_throw

end Run

section Components

-- What is brought into the root document has to be covered.
def Bindable (c : Context) (P : NodeId → Prop) (chain : Chain) (T : List Value) (r : Run)
    (target : NodeId) : Prop :=
  Clean r → ∀ done, Inv c P ⟨r, chain, T, done⟩ →
    Stage.Covered ⟨r, chain, T, done⟩ target ∧ P target ∧ (r.store.mapping? target).isSome

-- A missing field is made, unless it would take the place of a reference. Under the mark it must not
-- be empty.
theorem Inv.makeField {g : Stage} (h : Inv c P g) {id : NodeId} {key : String} {m n : Entries}
    (hm : g.store.mapping? id = some m) (hnone : g.store.fieldMapping? id key = none)
    (hn : n.ref? = none)
    (hnodes : ∀ k j, n.get? k = some (.node j) → g.Covered j ∧ P j ∧ j < g.store.nodes.size)
    (href : key = refKey → m.ref? = none) (hmark : key = circularRefKey → n.isEmpty = false) :
    ∃ done, Inv c P { g with
        run := { g.run with
          store := (g.store.alloc (.mapping n)).2.put id (.str key) (.node g.store.nodes.size) }
        done } ∧
      Carries g { g with
        run := { g.run with
          store := (g.store.alloc (.mapping n)).2.put id (.str key) (.node g.store.nodes.size) }
        done } := by
  obtain ⟨g₁, hg₁, hinv₁, hcarry₁⟩ := h.alloc hn hnodes
  have hstore : g₁.store = (g.store.alloc (.mapping n)).2 := by
    subst hg₁
    rfl
  have hlt := lt_size_of_mapping? hm
  have hm₁ : g₁.store.mapping? id = some m := by
    rw [hstore]
    exact (mapping?_alloc_of_lt hlt).trans hm
  have hn₁ : g₁.store.mapping? g.store.nodes.size = some n := by
    rw [hstore]
    exact mapping?_alloc_self
  have hdone : g₁.done g.store.nodes.size := by
    subst hg₁
    exact .inr rfl
  have hold (i : NodeId) (hi : m.get? (.str key) = some (.node i)) :
      g₁.store.mapping? i = none := by
    have hlti := h.shape.wellFormed id i ((mem_children_iff hm).mpr ⟨_, hi⟩)
    rw [hstore, mapping?_alloc_of_lt hlti]
    exact asMapping?_node_eq_none.mp
      (asMapping?_of_fieldMapping?_eq_none hnone (entries_of_mapping? hm ▸ hi))
  obtain ⟨g₂, hg₂, hinv₂, hcarry₂⟩ := hinv₁.put hm₁ (by simp [hn₁]) (.inl hdone)
    (h.scope.new _ (Nat.le_refl _)) hold (fun hkey => href (Key.str_beq.mp hkey))
    fun hkey => .inr ⟨hdone, entries_of_mapping? hn₁ ▸ hmark (Key.str_beq.mp hkey)⟩
  have hsame : g₂ = { g with
      run := { g.run with
        store := (g.store.alloc (.mapping n)).2.put id (.str key) (.node g.store.nodes.size) }
      done := g₂.done } := by
    subst hg₂ hg₁
    rfl
  have hcarry : Carries g g₂ := fun i hi hc =>
    hcarry₂ i (Nat.lt_of_lt_of_le hi (hstore ▸ (grows_alloc _ _).size)) (hcarry₁ i hi hc)
  rw [hsame] at hinv₂ hcarry
  exact ⟨g₂.done, hinv₂, hcarry⟩

theorem Inv.ensureField {g : Stage} (h : Inv c P g) {id : NodeId}
    (hid : (g.store.mapping? id).isSome) (key : String) (href : key ≠ refKey) (hmark : key ≠ circularRefKey) :
    ∃ done, Inv c P { g with
        run := { g.run with store := (g.store.ensureField id key).2 }, done } ∧
      Carries g { g with run := { g.run with store := (g.store.ensureField id key).2 }, done } := by
  obtain ⟨m, hm⟩ := Option.isSome_iff_exists.mp hid
  unfold Store.ensureField
  cases hf : g.store.fieldMapping? id key with
  | some child => exact ⟨g.done, h, fun _ _ hc => hc⟩
  | none =>
      exact h.makeField hm hf rfl (fun _ _ hk => absurd hk (by simp [OrderedMap.get?]))
        (fun hkey => absurd hkey href) fun hkey => absurd hkey hmark

theorem Inv.ensureComponents {g : Stage} (h : Inv c P g) (kind : String) (href : kind ≠ refKey)
    (hmark : kind ≠ circularRefKey) :
    ∃ done, Inv c P { g with
        run := { g.run with store := (g.store.ensureComponents c.document kind).2 }, done } ∧
      Carries g { g with
        run := { g.run with store := (g.store.ensureComponents c.document kind).2 }, done } := by
  obtain ⟨done₁, hinv₁, hcarry₁⟩ := h.ensureField h.shape.root "components" (by decide)
    (by decide)
  obtain ⟨hkeeps, hid⟩ := keeps_ensureField h.shape.root "components"
  obtain ⟨done₂, hinv₂, hcarry₂⟩ := hinv₁.ensureField hid kind href hmark
  refine ⟨done₂, hinv₂, fun id hlt hc => ?_⟩
  exact hcarry₂ id (Nat.lt_of_lt_of_le hlt hkeeps.size) (hcarry₁ id hlt hc)

-- The run may go on with a target that is covered.
def Ready (c : Context) (P : NodeId → Prop) (chain : Chain) (T : List Value) (r : Run)
    (target : NodeId) : Prop :=
  Clean r → ∃ done, Inv c P ⟨r, chain, T, done⟩ ∧ Stage.Covered ⟨r, chain, T, done⟩ target ∧
    P target ∧ (r.store.mapping? target).isSome

theorem Holds.ready {target : NodeId} (h : Holds c P chain T r)
    (ht : Bindable c P chain T r target) : Ready c P chain T r target := by
  intro hc
  obtain ⟨done, hinv⟩ := h hc
  exact ⟨done, hinv, ht hc done hinv⟩

namespace Ready

variable {target place : NodeId} {kind name : String} {m : Entries}

theorem holds (h : Ready c P chain T r target) : Holds c P chain T r :=
  fun hc => (h hc).imp fun _ => And.left

theorem components (h : Ready c P chain T r target) (hroot : HasRoot c r) :
    Ready c P chain T { r with store := (r.store.ensureField c.document "components").2 }
      target := by
  intro hc
  obtain ⟨done, hinv, hcov, hp, hmapping⟩ := h hc
  obtain ⟨done', hinv', hcarry⟩ := hinv.ensureField hroot "components" (by decide) (by decide)
  obtain ⟨mt, hmt⟩ := Option.isSome_iff_exists.mp hmapping
  exact ⟨done', hinv', hcarry target (lt_size_of_mapping? hmt) hcov, hp,
    (keeps_ensureField hroot "components").1.mapping target hmapping⟩

-- The target is bound in a section under a name that is free there.
theorem bind (h : Ready c P chain T r target) (hm : r.store.mapping? place = some m)
    (hfree : m.get? (.str name) = none) :
    Holds c P chain T { r with store := r.store.put place (.str name) (.node target) } := by
  intro hc
  obtain ⟨done, hinv, hcov, hp, hmapping⟩ := h hc
  obtain ⟨g, hg, hinv', -⟩ := hinv.put (k := .str name) hm hmapping hcov hp
    (fun i hi => by rw [hfree] at hi; cases hi)
    (fun hkey => ref?_eq_none (by rwa [← OrderedMap.get?_congr hkey])) fun _ => .inl hfree
  subst hg
  exact ⟨done, hinv'⟩

-- A section is made for the target.
theorem bindNew (h : Ready c P chain T r target) (hm : r.store.mapping? place = some m)
    (hnone : r.store.fieldMapping? place kind = none) (hkind : kind ≠ refKey) :
    Holds c P chain T { r with
      store := (r.store.alloc (.mapping (OrderedMap.empty.insert (.str name) (.node target)))).2.put
        place (.str kind) (.node r.store.nodes.size) } := by
  intro hc
  obtain ⟨done, hinv, hcov, hp, hmapping⟩ := h hc
  obtain ⟨mt, hmt⟩ := Option.isSome_iff_exists.mp hmapping
  have href : Entries.ref? (OrderedMap.empty.insert (.str name) (.node target)) = none := by
    rw [ref?_insert_node, ite_eq_left_iff]
    exact fun _ => rfl
  obtain ⟨done', hinv', -⟩ := hinv.makeField hm hnone href
    (fun k j hk => by
      obtain rfl : j = target := (node_of_get?_insert hk).resolve_right (by
        simp [OrderedMap.get?, OrderedMap.empty])
      exact ⟨hcov, hp, lt_size_of_mapping? hmt⟩)
    (fun hkey => absurd hkey hkind) fun _ => rfl
  exact ⟨done', hinv'⟩

end Ready

-- Binding in a section that was missing takes the place of what stood under its name.
theorem ensures_bindComponent {kind name : String} {target : NodeId} (h : Holds c P chain T r)
    (hroot : HasRoot c r) (ht : Bindable c P chain T r target) :
    Ensures (bindComponent c kind name target) r
      (fun bound r' => r'.events = r.events ∧
        (Holds c P chain T r' ∨ (bound = true ∧ kind = refKey))) fun _ _ => True := by
  obtain ⟨m, hm⟩ := Option.isSome_iff_exists.mp (keeps_ensureField hroot "components").2
  have hready := (h.ready ht).components hroot
  unfold bindComponent
  simp only [ensures_bind, ensures_getStore, ensures_setStore, Store.ensureComponents]
  obtain ⟨place, s, hps⟩ : ∃ place s, r.store.ensureField c.document "components" = (place, s) :=
    ⟨_, _, rfl⟩
  simp only [hps] at hm hready ⊢
  cases hf : s.fieldMapping? place kind with
  | some found =>
      obtain ⟨section_, e⟩ := found
      have he := (fieldMapping?_eq_some.mp hf).2
      rw [ensureField_of_fieldMapping? hf, entries_of_mapping? he]
      dsimp only
      split
      · exact ensures_pure.mpr ⟨rfl, .inl hready.holds⟩
      · next hhas =>
        simp only [ensures_bind, ensures_setStore, ensures_pure]
        refine ⟨trivial, .inl (hready.bind he ?_)⟩
        rw [Entries.has, OrderedMap.contains_eq_isSome_get?] at hhas
        simpa using hhas
  | none =>
      rw [ensureField_of_eq_none hf]
      dsimp only
      rw [entries_put_alloc hm,
        if_neg (by simp [Entries.has, OrderedMap.contains, OrderedMap.empty])]
      simp only [ensures_bind, ensures_setStore, ensures_pure, put_put_alloc hm]
      refine ⟨trivial, ?_⟩
      by_cases hkind : kind = refKey
      · exact .inr ⟨trivial, hkind⟩
      · exact .inl (hready.bindNew hm hf hkind)

theorem ensures_registerSchema {name ref : String} {target : NodeId} (h : Holds c P chain T r)
    (hroot : HasRoot c r) (ht : Bindable c P chain T r target) :
    Ensures (registerSchema c name target ref) r (fun _ r' => Holds c P chain T r')
      fun _ _ => True := by
  unfold registerSchema
  rw [ensures_bind]
  refine (ensures_bindComponent h hroot ht).mono (fun bound q ⟨_, hq⟩ => ?_) fun _ _ => id
  have hq : Holds c P chain T q := hq.resolve_right fun hbad => absurd hbad.2 (by decide)
  split
  · rw [ensures_report]
    exact hq.report fun _ _ => by simp
  · exact ensures_pure.mpr hq

theorem ensures_adopt {kind name : String} {target : NodeId} (h : Holds c P chain T r)
    (hroot : HasRoot c r) (ht : Bindable c P chain T r target) :
    Ensures (adopt c kind name target) r (fun _ r' => Holds c P chain T r') fun _ _ => True := by
  unfold adopt
  rw [ensures_bind]
  refine (ensures_bindComponent h hroot ht).mono (fun bound q ⟨_, hq⟩ => ?_) fun _ _ => id
  split
  next hbound =>
    rw [ensures_report]
    rcases hq with hq | ⟨-, rfl⟩
    · exact hq.report fun _ _ => by simp
    · exact fun hclean => absurd (by simp) (hclean.2 name)
  next hbound =>
    exact ensures_pure.mpr (hq.resolve_right fun hbad => hbound hbad.1)

-- Where a walk is: in the root document, or in one that was loaded.
def InFile (r : Run) (scope : Scope) : Prop :=
  scope.isRoot = true ∨ scope.document ∈ r.loaded.values

theorem InFile.mono {scope : Scope} (h : InFile r scope) (hg : Grows r r') : InFile r' scope :=
  h.imp_right fun hd => (hg.loaded.map Prod.snd).subset hd

theorem bindable_component {d id : NodeId} {kind name : String} (hd : d ∈ r.loaded.values)
    (hid : componentIn? r.store d kind name = some id) : Bindable c P chain T r id := by
  intro _ done hinv
  obtain ⟨hcov, hmapping⟩ := hinv.cover.component (hinv.cover.loaded d hd) hid
  exact ⟨hcov, hinv.scope.component (hinv.scope.loaded d hd) hid, hmapping⟩

theorem findLoaded?_eq_some {excluded : Option NodeId} {path : List String} {id : NodeId}
    (h : findLoaded? c r excluded path = some id) :
    ∃ kind name d, component? path = some (kind, name) ∧
      (d ∈ r.loaded.values ∧ d ≠ c.document ∧ some d ≠ excluded) ∧
      componentIn? r.store d kind name = some id := by
  unfold findLoaded? at h
  simp only [Option.bind_eq_bind, Option.bind_eq_some_iff, Prod.exists] at h
  obtain ⟨kind, name, hpath, hfind⟩ := h
  obtain ⟨d, hd, hid⟩ := List.exists_of_findSome?_eq_some hfind
  exact ⟨kind, name, d, hpath, by simpa using hd, hid⟩

theorem componentIn?_eq_none_of_findLoaded? {excluded : Option NodeId} {path : List String}
    {kind name : String} (hpath : component? path = some (kind, name))
    (h : findLoaded? c r excluded path = none) {d : NodeId} (hd : d ∈ r.loaded.values)
    (hroot : d ≠ c.document) (hother : some d ≠ excluded) :
    componentIn? r.store d kind name = none := by
  unfold findLoaded? at h
  rw [hpath] at h
  refine List.findSome?_eq_none_iff.mp h d (List.mem_filter.mpr ⟨hd, ?_⟩)
  simpa using ⟨hroot, hother⟩

theorem bindable_findLoaded {excluded : Option NodeId} {path : List String} {id : NodeId}
    (h : findLoaded? c r excluded path = some id) : Bindable c P chain T r id := by
  obtain ⟨kind, name, d, -, ⟨hd, -⟩, hid⟩ := findLoaded?_eq_some h
  exact bindable_component hd hid

theorem ensures_adoptInternal {scope : Scope} {ref : String} (h : Holds c P chain T r)
    (hroot : HasRoot c r) (hscope : scope.document ∈ r.loaded.values) :
    Ensures (adoptInternal c scope ref) r (fun _ r' => Holds c P chain T r')
      fun _ _ => True := by
  unfold adoptInternal
  dsimp only
  split
  · exact ensures_pure.mpr h
  · rw [ensures_bind, ensures_get]
    split
    · exact ensures_pure.mpr h
    · split
      next target htarget =>
        refine ensures_adopt h hroot ?_
        rw [Option.orElse_eq_orElse, Option.orElse_eq_or, Option.or_eq_some_iff] at htarget
        rcases htarget with hlocal | ⟨-, hfound⟩
        · exact bindable_component hscope hlocal
        · exact bindable_findLoaded hfound
      next => exact ensures_report.mpr (h.report fun _ _ => by simp)

theorem ensures_noteInternal {scope : Scope} {ref : String} (h : Holds c P chain T r)
    (hroot : HasRoot c r) (hscope : InFile r scope) :
    Ensures (noteInternal c scope ref) r (fun _ r' => Holds c P chain T r') fun _ _ => True := by
  unfold noteInternal
  split
  next =>
    rw [ensures_modify]
    exact h.congr rfl rfl rfl rfl (fun _ _ => Iff.rfl) (List.Subset.refl _) fun hclean => hclean
  next hloaded => exact ensures_adoptInternal h hroot (hscope.resolve_left hloaded)

theorem ensures_adoptDangling {ref : String} (h : Holds c P chain T r) (hroot : HasRoot c r) :
    Ensures (adoptDangling c ref) r (fun _ r' => Holds c P chain T r') fun _ _ => True := by
  unfold adoptDangling
  dsimp only
  rw [ensures_bind, ensures_get]
  split
  · exact ensures_pure.mpr h
  · split
    next hfound => exact ensures_adopt h hroot (bindable_findLoaded hfound)
    next => exact ensures_report.mpr (h.report fun _ _ => by simp)

theorem ensures_adoptAllDangling (h : Holds c P chain T r) (hroot : HasRoot c r) :
    Ensures (adoptAllDangling c) r (fun _ r' => Holds c P chain T r') fun _ _ => True := by
  unfold adoptAllDangling
  rw [ensures_bind, ensures_get]
  have hall := ensures_forM (l := r.rootRefs.eraseDups) (f := adoptDangling c)
    (I := fun _ q => Holds c P chain T q ∧ HasRoot c q) (E := fun _ _ => True) ⟨h, hroot⟩
    fun ref _ q hq => ((ensures_adoptDangling hq.1 hq.2).and (growsFrom_adoptDangling hq.2 ref)).mono
      (fun _ _ hq' => ⟨hq'.1, hq.2.mono hq'.2⟩) fun _ _ _ => trivial
  exact hall.mono (fun _ _ hq => hq.1) fun _ _ => id

end Components

end ApiGraph.Resolve
