import ApiGraph.Proofs.Resolve.WalkCoverage

namespace ApiGraph.Resolve

open Store Reference

-- The log tells of a mark, or of a component that was brought in.
def isRepair : Event → Bool
  | .circular _ _ => true
  | .adopted _ _ => true
  | _ => false

-- The run went on and left the documents as they are.
structure Rests (r r' : Run) : Prop where
  store : r'.store = r.store
  loaded : r'.loaded = r.loaded
  visited : r.visited ⊆ r'.visited
  log : r'.events.filter isRepair = r.events.filter isRepair

theorem Rests.refl (r : Run) : Rests r r := ⟨rfl, rfl, List.Subset.refl _, rfl⟩

theorem Rests.trans {p q r : Run} (h : Rests p q) (h' : Rests q r) : Rests p r :=
  ⟨h'.store.trans h.store, h'.loaded.trans h.loaded, List.Subset.trans h.visited h'.visited,
    h'.log.trans h.log⟩

section Safe

variable {α β : Type} {I : Run → Prop} {r : Run} {x : ResolveM α}

-- The program keeps the property, and it fails only where the document is nested too deep.
def Safe (I : Run → Prop) (x : ResolveM α) (r : Run) : Prop :=
  Ensures x r (fun _ => I) fun e r' => e = .fault .stackExhausted ∧ I r'

theorem safe_pure {a : α} (h : I r) : Safe I (pure a) r := ensures_pure.mpr h

theorem Safe.bind {f : α → ResolveM β} (hx : Safe I x r) (hf : ∀ a r', I r' → Safe I (f a) r') :
    Safe I (x >>= f) r := by
  unfold Safe
  rw [ensures_bind]
  exact Ensures.mono hx (fun a r' h => hf a r' h) fun _ _ h => h

theorem safe_forM {l : List β} {f : β → ResolveM PUnit}
    (hf : ∀ v ∈ l, ∀ r', I r' → Safe I (f v) r') (h : I r) : Safe I (l.forM f) r := by
  induction l generalizing r with
  | nil => exact safe_pure h
  | cons v rest ih =>
      refine (hf v List.mem_cons_self r h).bind fun _ r' hr => ?_
      exact ih (fun w hw => hf w (List.mem_cons_of_mem v hw)) hr

end Safe

-- No other file has components, and neither has the file of the scope.
structure Barren (c : Context) (scope : Scope) (r : Run) : Prop where
  here : scope.isRoot = true ∨ ∀ kind name, componentIn? r.store scope.document kind name = none
  others : ∀ d ∈ r.loaded.values, d ≠ c.document → ∀ kind name, componentIn? r.store d kind name = none

section Steps

variable {c : Context} {scope : Scope} {r r' : Run} {ref : String}

theorem rests_report {e : Event} (he : isRepair e = false) :
    Rests r { r with events := r.events ++ [e] } :=
  ⟨rfl, rfl, List.Subset.refl _, by simp [he]⟩

theorem rests_limit (l : SoftLimit) :
    Rests r { r with limits := r.limits ++ [l], events := r.events ++ [.resolutionLimit l] } :=
  ⟨rfl, rfl, List.Subset.refl _, by simp [isRepair]⟩

theorem rests_visit (id : NodeId) : Rests r { r with visited := id :: r.visited } :=
  ⟨rfl, rfl, List.subset_cons_self id _, rfl⟩

theorem ensures_count : Ensures (countNode c scope) r
    (fun _ r' => Rests r r' ∧ r'.visited = r.visited) fun _ _ => False := by
  unfold countNode
  simp only [ensures_bind, ensures_modify, ensures_get]
  split
  · exact ensures_pure.mpr ⟨⟨rfl, rfl, List.Subset.refl _, rfl⟩, rfl⟩
  · split
    · simp only [ensures_bind, ensures_set, ensures_limit, ensures_pure]
      exact ⟨⟨rfl, rfl, List.Subset.refl _, by simp [isRepair]⟩, trivial⟩
    · exact ensures_pure.mpr ⟨⟨rfl, rfl, List.Subset.refl _, rfl⟩, rfl⟩

theorem Barren.findLoaded?_eq_none (h : Barren c scope r) (path : List String) :
    findLoaded? c r none path = none := by
  cases hfound : findLoaded? c r none path with
  | none => rfl
  | some id =>
      obtain ⟨kind, name, d, -, ⟨hd, hroot, -⟩, hin⟩ := findLoaded?_eq_some hfound
      rw [h.others d hd hroot kind name] at hin
      cases hin

theorem Barren.rests (h : Barren c scope r) (hr : Rests r r') : Barren c scope r' where
  here := by
    rw [hr.store]
    exact h.here
  others := by
    rw [hr.store, hr.loaded]
    exact h.others

-- There is nothing to adopt.
theorem safe_noteInternal (h : Barren c scope r) : Safe (Rests r) (noteInternal c scope ref) r := by
  unfold noteInternal
  split
  · exact ensures_modify.mpr ⟨rfl, rfl, List.Subset.refl _, rfl⟩
  · next hfile =>
    unfold Safe adoptInternal
    dsimp only
    split
    · exact safe_pure (.refl r)
    · next kind name _ =>
      rw [ensures_bind, ensures_get]
      split
      · exact safe_pure (.refl r)
      · rw [h.here.resolve_left hfile kind name, h.findLoaded?_eq_none]
        exact ensures_report.mpr (rests_report rfl)

theorem safe_adoptDangling (h : Barren c scope r) (ref : String) :
    Ensures (adoptDangling c ref) r (fun _ => Rests r) fun _ _ => False := by
  unfold adoptDangling
  dsimp only
  rw [ensures_bind, ensures_get]
  split
  · exact ensures_pure.mpr (.refl r)
  · rw [h.findLoaded?_eq_none]
    split
    · next hfound => cases hfound
    · exact ensures_report.mpr (rests_report rfl)

theorem safe_adoptAllDangling (h : Barren c scope r) :
    Ensures (adoptAllDangling c) r (fun _ => Rests r) fun _ _ => False := by
  unfold adoptAllDangling
  rw [ensures_bind, ensures_get]
  refine ensures_forM (I := fun _ r' => Rests r r') (.refl r) fun ref _ r' hr => ?_
  exact (safe_adoptDangling (h.rests hr) ref).mono (fun _ _ h' => hr.trans h') fun _ _ => id

end Steps

section Walk

-- A walk of the scope stays among the containers and keeps the property, also where it meets an
-- external reference.
structure Tour (c : Context) (scope : Scope) (chain : Chain) (I : Run → Prop)
    (P : NodeId → Prop) : Prop where
  rests : ∀ {r r'}, I r → Rests r r' → I r'
  barren : ∀ {r}, I r → Barren c scope r
  child : ∀ {r id j}, I r → P id → id ∉ r.visited → .node j ∈ r.store.children id → P j
  external : ∀ {r id m ref} (allowance : Nat), I r → P id → id ∉ r.visited →
    r.store.mapping? id = some m → m.ref? = some ref → isExternal ref = true →
    Safe I (inlineExternal c (walk c allowance) scope chain id ref) r

variable {c : Context} {scope : Scope} {chain : Chain} {I : Run → Prop} {P : NodeId → Prop}
  {r : Run} {allowance : Nat} {v : Value}

theorem safe_values
    (ih : ∀ v r, I r → (∀ id, v = .node id → P id) → Safe I (walk c allowance scope chain v) r)
    (hr : I r) {vs : List Value} (hvs : ∀ j, .node j ∈ vs → P j) :
    Safe I (vs.forM (walk c allowance scope chain)) r :=
  safe_forM (fun v hv r' hr' => ih v r' hr' fun j hj => hvs j (hj ▸ hv)) hr

theorem Tour.walkMapping (ht : Tour c scope chain I P)
    (ih : ∀ v r, I r → (∀ id, v = .node id → P id) → Safe I (walk c allowance scope chain v) r)
    (hr : I r) {id : NodeId} {m : Entries} (hid : P id) (hv : id ∉ r.visited)
    (hm : r.store.mapping? id = some m) :
    Safe I (walkMapping c (walk c allowance) scope chain id m) r := by
  -- What stands in the mapping is read again after the reference was noted.
  have visited {r' : Run} (hr' : Rests r r') : Safe I (do
      visit id
      ((← getStore).entries id).values.forM (walk c allowance scope chain)) r' := by
    unfold Safe
    simp only [ensures_bind, ensures_visit, ensures_getStore]
    refine safe_values ih (ht.rests hr (hr'.trans (rests_visit id))) fun j hj => ht.child hr hid hv ?_
    rw [hr'.store, entries_of_mapping? hm] at hj
    rwa [children_of_mapping? hm]
  unfold Resolve.walkMapping Safe
  rw [ensures_bind, ensures_getStore]
  dsimp only
  split
  · next ref href =>
    obtain ⟨hpending, hexternal⟩ := Option.filter_eq_some_iff.mp href
    exact ht.external allowance hr hid hv hm (pendingRef?_eq_some hpending).1 hexternal
  · split
    · rw [ensures_bind]
      refine Ensures.mono (safe_noteInternal (ht.barren hr)) (fun _ r' hr' => visited hr')
        fun e r' he => ?_
      exact ⟨he.1, ht.rests hr he.2⟩
    · exact visited (.refl r)

theorem Tour.expand (ht : Tour c scope chain I P)
    (ih : ∀ v r, I r → (∀ id, v = .node id → P id) → Safe I (walk c allowance scope chain v) r)
    (hr : I r) {id : NodeId} {container : Container} (hid : P id) (hv : id ∉ r.visited)
    (hget : r.store.get? id = some container) :
    Safe I (expand c (walk c allowance) scope chain id container) r := by
  cases container with
  | set _ => exact safe_pure hr
  | sequence items =>
      unfold Resolve.expand Safe
      rw [ensures_bind, ensures_visit]
      refine safe_values ih (ht.rests hr (rests_visit id)) fun j hj => ?_
      exact ht.child hr hid hv (by rwa [children_of_get? hget])
  | mapping m => exact ht.walkMapping ih hr hid hv (mapping?_eq_some.mpr hget)

theorem Tour.walk (ht : Tour c scope chain I P) (hr : I r) (hv : ∀ id, v = .node id → P id) :
    Safe I (walk c allowance scope chain v) r := by
  induction allowance generalizing v r with
  | zero => exact ensures_throw.mpr ⟨rfl, hr⟩
  | succ allowance ih =>
      refine ensures_walk (fun _ => hr) fun id container hnode hget _ hvisited _ => ?_
      -- Counting leaves everything as it is.
      refine ensures_count.mono (fun counted r' ⟨hrests, hsame⟩ => ?_) fun _ _ => False.elim
      cases counted with
      | true =>
          exact ht.expand (fun v r hr hv => ih hr hv) (ht.rests hr hrests) (hv id hnode)
            (hsame ▸ hvisited) (hrests.store ▸ hget)
      | false => exact ht.rests hr hrests

-- A run that only makes such a walk does not fail.
theorem Tour.run (ht : Tour c scope [] I P) (hr : I r) (hd : P c.document) :
    Ensures (run c scope) r (fun _ => I) fun _ _ => False := by
  have hroot : Ensures (walkRoot c scope) r (fun _ => I) fun _ _ => False := by
    unfold walkRoot
    rw [ensures_tryCatch]
    refine Ensures.mono (ht.walk hr fun id hid => by cases hid; exact hd) (fun _ _ h => h)
      fun e r' he => ?_
    obtain ⟨rfl, hr'⟩ := he
    exact ensures_limit.mpr (ht.rests hr' (rests_limit _))
  unfold Resolve.run
  rw [ensures_bind]
  refine hroot.mono (fun _ r₁ h₁ => ?_) fun _ _ => id
  rw [ensures_bind]
  refine (safe_adoptAllDangling (ht.barren h₁)).mono (fun _ r₂ h₂ => ?_) fun _ _ => id
  rw [ensures_bind, ensures_get]
  exact ensures_report.mpr (ht.rests h₁ (h₂.trans (rests_report rfl)))

end Walk

section SelfContained

-- Nothing that can be reached from the container is an external reference.
def SelfContained (s : Store) (id : NodeId) : Prop :=
  ∀ b m, s.Reach id b → s.mapping? b = some m → isExternalRef m = false

variable {c : Context} {scope : Scope} {chain : Chain} {r : Run} {id : NodeId} {allowance : Nat}

theorem tour_of_selfContained (h : SelfContained r.store id) (hb : Barren c scope r) :
    Tour c scope chain (Rests r) (r.store.Reach id) where
  rests := Rests.trans
  barren := hb.rests
  child hr hid _ hj := hid.step (hr.store ▸ hj)
  external allowance hr hid _ hm href hexternal := by
    rw [hr.store] at hm
    have hfalse := h _ _ hid hm
    rw [isExternalRef_iff.mpr ⟨_, href, hexternal⟩] at hfalse
    cases hfalse

theorem safe_walk_of_selfContained (h : SelfContained r.store id) (hb : Barren c scope r) :
    Safe (Rests r) (walk c allowance scope chain (.node id)) r :=
  (tour_of_selfContained h hb).walk (.refl r) fun i hi => by cases hi; exact .refl

end SelfContained

end ApiGraph.Resolve
