import ApiGraph.Proofs.Resolve.Coverage

namespace ApiGraph.Resolve

open Store Reference

variable {c : Context} {P : NodeId → Prop} {chain : Chain} {T : List Value} {r r' : Run}

section Pointer

variable {s : Store} {v : Value} {a b : NodeId} {segment : String}

theorem mem_children_of_step {w : Value} (h : step s (.node a) segment = .ok w) :
    w ∈ s.children a := by
  simp only [step] at h
  cases hc : s.get? a with
  | none =>
      rw [hc] at h
      cases h
  | some container =>
      rw [hc] at h
      cases container with
      | set _ => cases h
      | mapping m =>
          dsimp only at h
          split at h
          · next child hchild =>
            cases h
            exact (mem_children_iff (mapping?_eq_some.mpr hc)).mpr ⟨_, hchild⟩
          · cases h
      | sequence items =>
          dsimp only at h
          split at h
          · next child hchild =>
            cases h
            rw [children_of_get? hc]
            obtain ⟨index, -, hitem⟩ := Option.bind_eq_some_iff.mp hchild
            unfold itemAt? at hitem
            split at hitem
            · exact List.mem_of_getElem? hitem
            · split at hitem
              · exact List.mem_of_getElem? hitem
              · cases hitem
          · cases h

-- Only containers are entered.
theorem node_of_follow {path : List String} (h : follow s v path = .ok (.node b)) :
    ∃ a, v = .node a := by
  cases path with
  | nil => exact ⟨b, by cases h; rfl⟩
  | cons segment rest =>
      cases v with
      | node a => exact ⟨a, rfl⟩
      | scalar _ => cases h
      | pair _ _ => cases h

theorem reach_of_follow {path : List String} (h : follow s (.node a) path = .ok (.node b)) :
    s.Reach a b := by
  induction path generalizing a with
  | nil =>
      cases h
      exact .refl
  | cons segment rest ih =>
      have hrest : (step s (.node a) segment >>= fun w => follow s w rest) = .ok (.node b) := h
      cases hstep : step s (.node a) segment with
      | error e =>
          rw [hstep] at hrest
          cases hrest
      | ok w =>
          rw [hstep] at hrest
          obtain ⟨j, rfl⟩ := node_of_follow (v := w) hrest
          exact (Reach.step .refl (mem_children_of_step hstep)).trans (ih hrest)

end Pointer

section Pending

variable {m : Entries} {id : NodeId}

theorem pendingRef?_eq_some {s : Store} {ref : String} (h : pendingRef? s m = some ref) :
    m.ref? = some ref ∧
      ∀ v, m.get? (.str circularRefKey) = some v → s.isTruthy v = false := by
  obtain ⟨href, hmark⟩ := Option.filter_eq_some_iff.mp h
  refine ⟨href, fun v hv => ?_⟩
  simpa [Entries.field?, hv] using hmark

-- A reference that is not to be resolved is passed by.
theorem truthy_of_pendingRef?_ne {s : Store} {ref : String} (href : m.ref? = some ref)
    (h : pendingRef? s m ≠ some ref) :
    ∃ v, m.get? (.str circularRefKey) = some v ∧ s.isTruthy v = true := by
  unfold pendingRef? Entries.field? at h
  cases hv : m.get? (.str circularRefKey) with
  | none => simp [href, hv, Option.filter] at h
  | some v =>
      refine ⟨v, rfl, ?_⟩
      cases hs : s.isTruthy v with
      | true => rfl
      | false => simp [href, hv, hs, Option.filter] at h

theorem truthy_of_not_pending {s : Store} (hext : isExternalRef m)
    (h : (pendingRef? s m).filter isExternal = none) :
    ∃ v, m.get? (.str circularRefKey) = some v ∧ s.isTruthy v = true := by
  obtain ⟨ref, href, hexternal⟩ := isExternalRef_iff.mp hext
  refine truthy_of_pendingRef?_ne href fun hpending => ?_
  rw [hpending, Option.filter_some, if_pos hexternal] at h
  cases h

-- The reference leaves the agenda: it is held back from now on.
theorem Holds.activate {target : String} (h : Holds c P chain (.node id :: T) r)
    (hm : r.store.mapping? id = some m) (hext : isExternalRef m)
    (hmark : ∀ v, m.get? (.str circularRefKey) = some v → r.store.isTruthy v = false)
    (hv : id ∉ r.visited) : Holds c P (⟨target, id⟩ :: chain) T r := by
  intro hclean
  obtain ⟨done, hinv⟩ := h hclean
  -- An empty mapping under the mark has nothing to walk, so it needs no other way.
  have hready : ∃ done, Inv c P ⟨r, chain, .node id :: T, done⟩ ∧
      ∀ j, m.get? (.str circularRefKey) = some (.node j) → (r.store.mapping? j).isSome → done j := by
    by_cases hsome : ∃ j e, m.get? (.str circularRefKey) = some (.node j) ∧
        r.store.mapping? j = some e
    · obtain ⟨j, e, hj, he⟩ := hsome
      have hempty : e.isEmpty := by
        simpa [isTruthy_of_mapping? he] using hmark _ hj
      refine ⟨_, hinv.finish (e := j) he hempty, fun i hi _ => .inr ?_⟩
      rw [hj] at hi
      cases hi
      rfl
    · refine ⟨done, hinv, fun j hj hmapping => ?_⟩
      obtain ⟨e, he⟩ := Option.isSome_iff_exists.mp hmapping
      exact absurd ⟨j, e, hj, he⟩ hsome
  obtain ⟨done, hinv, hdone⟩ := hready
  have hpush := hinv.push (l := ⟨target, id⟩) hm hext (hinv.scope.agenda id List.mem_cons_self) hv
    hdone
  refine ⟨done, hpush.retask (T := T) (fun i hi => ?_) fun i hi =>
    .inl (List.mem_cons_of_mem _ hi)⟩
  rcases List.mem_cons.mp hi with hi | hi
  · cases hi
    exact Stage.covered_of_held ⟨.inl (Chain.hasNode_self _ _), hv⟩
  · exact Stage.covered_of_task hi

end Pending

section Walk

-- A walk takes its value off the agenda.
structure Walks (c : Context) (P : NodeId → Prop) (walk : Walker) : Prop where
  grows : ∀ scope chain v r, HasRoot c r → GrowsFrom r (walk scope chain v)
  settles : ∀ {scope chain T r v}, InFile r scope → HasRoot c r → Holds c P chain (v :: T) r →
    Ensures (walk scope chain v) r
      (fun _ r' => Holds c P chain T r' ∧ (Clean r' → Settled chain r' v)) fun _ _ => True

theorem Walks.ensures {walk : Walker} {scope : Scope} {v : Value} (hw : Walks c P walk)
    (hscope : InFile r scope) (hroot : HasRoot c r) (h : Holds c P chain (v :: T) r) :
    Ensures (walk scope chain v) r
      (fun _ r' => Grows r r' ∧ Holds c P chain T r' ∧ (Clean r' → Settled chain r' v))
      fun _ _ => True :=
  (hw.grows scope chain v r hroot).ensures (hw.settles hscope hroot h)

variable {walk : Walker} {scope : Scope} {l : Link} {ref : String} {name : Option String}

theorem ensures_values (hw : Walks c P walk) (hscope : InFile r scope) (hroot : HasRoot c r)
    {vs : List Value} (h : Holds c P chain (vs ++ T) r) :
    Ensures (vs.forM (walk scope chain)) r
      (fun _ r' => Grows r r' ∧ Holds c P chain T r') fun _ _ => True := by
  refine ensures_forM (I := fun rest q => Grows r q ∧ Holds c P chain (rest ++ T) q)
    ⟨.refl r, h⟩ fun v rest q ⟨hg, hq⟩ => ?_
  refine (hw.ensures (hscope.mono hg) (hroot.mono hg) hq).mono (fun _ q' ⟨hg', hq', _⟩ => ?_)
    fun _ _ => id
  exact ⟨hg.trans hg', hq'⟩

-- A reference that stays is marked and no longer resolved.
theorem ensures_markCircular (h : Holds c P (l :: chain) T r)
    (hm : (r.store.mapping? l.node).isSome) :
    Ensures (markCircular l.node ref name) r
      (fun _ r' => Holds c P chain T r' ∧ (Clean r' → Settled chain r' (.node l.node)))
      fun _ _ => True := by
  obtain ⟨m, hm⟩ := Option.isSome_iff_exists.mp hm
  unfold markCircular
  simp only [ensures_bind, ensures_getStore, ensures_setStore, ensures_report,
    entries_of_mapping? hm]
  refine ⟨fun hclean => ?_, fun _ i hi => ?_⟩
  · obtain ⟨done, hinv⟩ := h ⟨hclean.1, fun name hn => hclean.2 name (List.mem_append_left _ hn)⟩
    have hheld := hinv.shape.held_of_cons
    refine ⟨done, (hinv.setMark hheld hm name).congr rfl rfl rfl rfl rfl rfl (fun i hi => ?_)
      (fun i => ?_) (fun _ => Exists.imp fun _ => Exists.imp fun _ => List.mem_append_left _)
      fun i hi => ?_⟩
    · exact Chain.hasNode_cons.mpr (.inr hi)
    · simp only [Stage.Held, Stage.Marked, Chain.hasNode_cons, List.mem_append,
        List.mem_singleton, Event.circular.injEq]
      refine and_congr_left fun _ => ?_
      constructor
      · rintro (hi | ⟨ref', hin | ⟨rfl, rfl⟩⟩)
        · exact .inl (.inr hi)
        · exact .inr ⟨ref', hin⟩
        · exact .inl (.inl rfl)
      · rintro ((rfl | hi) | ⟨ref', hin⟩)
        · exact .inr ⟨ref, .inr ⟨rfl, rfl⟩⟩
        · exact .inl hi
        · exact .inr ⟨ref', .inl hin⟩
    · obtain ⟨ref', hin⟩ := hi
      rcases List.mem_append.mp hin with hin | hin
      · exact (hinv.setMark hheld hm name).shape.marked i ⟨ref', hin⟩
      · obtain ⟨rfl, -⟩ : i = l.node ∧ ref' = ref := by simpa using hin
        exact ⟨_, mapping?_set_self hm, .inl (get?_markedContent_circularRefKey name)⟩
  · cases hi
    exact .inr (.inr (.inr ⟨ref, List.mem_append_right _ List.mem_cons_self⟩))

theorem ensures_load (hw : Walks c P walk) (hroot : HasRoot c r) (h : Holds c P chain T r)
    {at_ : Location} {key : String} :
    Ensures (load c walk chain at_ key) r
      (fun d r' => Grows r r' ∧ Holds c P chain T r' ∧ d ∈ r'.loaded.values) fun _ _ => True := by
  unfold load
  rw [ensures_bind, ensures_get]
  split
  · next d hd => exact ensures_pure.mpr ⟨.refl r, h, OrderedMap.mem_values_iff.mpr ⟨key, hd⟩⟩
  · next hnew =>
    rw [ensures_bind, ensures_getStore]
    split
    · exact ensures_fail.mpr trivial
    · exact ensures_throw.mpr trivial
    · next d s hparse =>
      obtain ⟨hext, hd, hmapping⟩ := extends_parseFile hparse
      have hloaded : r.loaded.entries <+: (r.loaded.insert key d).entries := by
        rw [OrderedMap.entries_insert_of_get?_eq_none d hnew]
        exact List.prefix_append _ _
      have hin : d ∈ (r.loaded.insert key d).values :=
        OrderedMap.mem_values_iff.mpr ⟨key, by simp [OrderedMap.get?_insert]⟩
      simp only [ensures_bind, ensures_modify, ensures_report]
      let r₁ : Run :=
        { r with store := s, loaded := r.loaded.insert key d, events := r.events ++ [.loaded at_.path] }
      have hg : Grows r r₁ :=
        ⟨keeps_of_extends hext, List.suffix_rfl, hloaded, List.prefix_rfl, List.prefix_append _ _⟩
      have hload : Holds c P chain (.node d :: T)
          { r with store := s, loaded := r.loaded.insert key d } := fun hclean => by
        obtain ⟨done, hinv⟩ := h ⟨hclean.1, hclean.2⟩
        exact ⟨done, hinv.load hext hd hmapping⟩
      refine (hw.ensures (r := r₁) (.inr hin) (hroot.mono hg) (hload.report fun _ _ => by simp)).mono
        (fun _ q hend => ?_) fun _ _ => id
      obtain ⟨hq, hholds, -⟩ := hend
      exact ensures_pure.mpr ⟨hg.trans hq, hholds, (hq.loaded.map Prod.snd).subset hin⟩

theorem ensures_targetOf {external : NodeId} {path : List String} (chain : Chain)
    (T : List Value) (P : NodeId → Prop) (hext : external ∈ r.loaded.values) :
    Ensures (targetOf c external path ref) r
      (fun v r' => r' = r ∧ ∀ t : Nat, v = .node t → ∀ done, Inv c P ⟨r, chain, T, done⟩ →
        t < r.store.nodes.size ∧ P t) fun _ _ => True := by
  -- The root of a file that was loaded is in the scope, and so is what can be reached from there.
  have hreach {t : NodeId} (ht : r.store.Reach external t) {done : NodeId → Prop}
      (hinv : Inv c P ⟨r, chain, T, done⟩) : t < r.store.nodes.size ∧ P t := by
    induction ht with
    | refl =>
        obtain ⟨m, hm⟩ := Option.isSome_iff_exists.mp (hinv.shape.loaded external hext)
        exact ⟨lt_size_of_mapping? hm, hinv.scope.loaded external hext⟩
    | step _ hj ih => exact ⟨hinv.shape.wellFormed _ _ hj, hinv.scope.closed _ _ ih.2 hj⟩
  unfold targetOf
  split
  · refine ensures_pure.mpr ⟨rfl, fun t ht done hinv => ?_⟩
    cases ht
    exact hreach .refl hinv
  · rw [ensures_bind, ensures_get]
    split
    · next v hv =>
      refine ensures_pure.mpr ⟨rfl, fun t ht done hinv => ?_⟩
      subst ht
      exact hreach (reach_of_follow hv) hinv
    · split
      · next id hid =>
        refine ensures_pure.mpr ⟨rfl, fun t ht done hinv => ?_⟩
        cases ht
        obtain ⟨kind, name, d, -, ⟨hd, -⟩, hcomponent⟩ := findLoaded?_eq_some hid
        obtain ⟨m, hm⟩ := Option.isSome_iff_exists.mp
          (hinv.cover.component (hinv.cover.loaded d hd) hcomponent).2
        exact ⟨lt_size_of_mapping? hm,
          hinv.scope.component (hinv.scope.loaded d hd) hcomponent⟩
      · exact ensures_fail.mpr trivial

-- What the walk of the mapping still has to do when its reference was dealt with.
def ownValues (own : Option Entries) : List Value := (own.map OrderedMap.values).getD []

-- A mapping that was walked and held back would be an external reference.
theorem Holds.visited {t : NodeId} {content : Entries} (h : Holds c P chain T r) (hclean : Clean r)
    (hsettled : Settled chain r (.node t)) (hm : r.store.mapping? t = some content)
    (hext : isExternalRef content = false) : t ∈ r.visited := by
  obtain ⟨done, hinv⟩ := h hclean
  refine Decidable.byContradiction fun hv => ?_
  rcases hsettled t rfl with hv' | hleaf | hheld
  · exact hv hv'
  · rw [hleaf.1] at hm
    cases hm
  · exact Bool.eq_false_iff.mp hext (hinv.shape.isExternalRef_of_held ⟨hheld, hv⟩ hm)

-- The content of the target takes the place of the reference.
theorem Holds.inline {t : NodeId} {m content : Entries} (h : Holds c P (l :: chain) T r)
    (houter : chain.hasNode l.node = false) (hm : r.store.mapping? l.node = some m)
    (hcontent : r.store.mapping? t = some content) (hv : Clean r → t ∈ r.visited) (hp : Clean r → P t)
    (ref : String) (name : Option String) :
    Holds c P chain (ownValues (some (m.erase (.str refKey))) ++ T)
      { r with
        store := r.store.set l.node
          (.mapping (inlinedContent content (m.erase (.str refKey)) name))
        visited := l.node :: r.visited
        events := r.events ++ [.inlined l.node t ref] } := by
  intro hclean
  have hclean : Clean r :=
    ⟨hclean.1, fun name hn => hclean.2 name (List.mem_append_left _ hn)⟩
  obtain ⟨done, hinv⟩ := h hclean
  have hheld := hinv.shape.held_of_cons
  have htasks := hinv.retask (T := (m.erase (.str refKey)).values ++ T)
    (fun i hi => Stage.covered_of_task (List.mem_append_right _ hi)) fun i hi => by
      rcases List.mem_append.mp hi with hi | hi
      · have hchild := mem_children_of_mem_own hm hi
        exact .inr ⟨hinv.shape.wellFormed _ _ hchild,
          hinv.scope.closed _ _ (hinv.scope.held _ hheld) hchild⟩
      · exact .inl hi
  exact ⟨_, htasks.inline ref rfl houter hheld hm (hinv.shape.visited t (hv hclean)) (hp hclean)
    hcontent
    (fun _ => List.mem_append_left _) name⟩

theorem ensures_takeContent {target : NodeId} (h : Holds c P (l :: chain) T r)
    (hroot : HasRoot c r) (houter : chain.hasNode l.node = false)
    (hn : (r.store.mapping? l.node).isSome) (ht : (r.store.mapping? target).isSome)
    (hp : Clean r → P target) (hsettled : Clean r → Settled (l :: chain) r (.node target))
    (hext : isExternalRef (r.store.entries target) = false) :
    Ensures (takeContent c l.node target ref name) r
      (fun own r' => Holds c P chain (ownValues own ++ T) r' ∧
        (Clean r' → Settled chain r' (.node l.node))) fun _ _ => True := by
  obtain ⟨m, hm⟩ := Option.isSome_iff_exists.mp hn
  obtain ⟨content, hcontent⟩ := Option.isSome_iff_exists.mp ht
  rw [entries_of_mapping? hcontent] at hext
  have hvisited (hclean : Clean r) : target ∈ r.visited :=
    h.visited hclean (hsettled hclean) hcontent hext
  have hactive (hclean : Clean r) : l.node ∉ r.visited := by
    obtain ⟨done, hinv⟩ := h hclean
    exact hinv.shape.active l.node (Chain.hasNode_self _ _)
  unfold takeContent replaceContent
  simp only [ensures_bind, ensures_getStore, ensures_setStore, ensures_pure, ensures_report,
    ensures_visit, set_set, entries_of_mapping? hm]
  let r₁ : Run :=
    { r with
      store := r.store.set l.node (.mapping (inlinedContent
        ((r.store.set l.node (.mapping .empty)).entries target) (m.erase (.str refKey)) name))
      visited := l.node :: r.visited
      events := r.events ++ [.inlined l.node target ref] }
  have hclean₁ (hclean : Clean r₁) : Clean r :=
    ⟨hclean.1, fun name hn => hclean.2 name (List.mem_append_left _ hn)⟩
  have h₁ : Holds c P chain (ownValues (some (m.erase (.str refKey))) ++ T) r₁ := by
    by_cases hne : l.node = target
    · intro hclean
      exact absurd (hne ▸ hvisited (hclean₁ hclean)) (hactive (hclean₁ hclean))
    · have hsame : (r.store.set l.node (.mapping .empty)).entries target = content :=
        entries_of_mapping? ((mapping?_set_of_ne hne).trans hcontent)
      have := h.inline houter hm hcontent hvisited hp ref name
      rw [← hsame] at this
      exact this
  have hg : Grows r r₁ :=
    ⟨keeps_inline hm _ name, List.suffix_cons _ _, List.prefix_rfl, List.prefix_rfl,
      List.prefix_append _ _⟩
  split
  next n =>
    rw [ensures_bind]
    have hbind : Bindable c P chain (ownValues (some (m.erase (.str refKey))) ++ T) r₁ target :=
      fun hclean done hinv =>
        ⟨.inl (hinv.shape.visited target (List.mem_cons_of_mem _ (hvisited (hclean₁ hclean)))),
          hp (hclean₁ hclean), hg.store.mapping target ht⟩
    refine ((growsFrom_registerSchema (hroot.mono hg) _ _ _).ensures
      (ensures_registerSchema (r := r₁) h₁ (hroot.mono hg) hbind)).mono (fun _ q hend => ?_)
      fun _ _ => id
    obtain ⟨hgq, hq⟩ := hend
    refine ensures_pure.mpr ⟨hq, fun _ i hi => ?_⟩
    cases hi
    exact .inl (hgq.visited.subset List.mem_cons_self)
  next =>
    refine ensures_pure.mpr ⟨h₁, fun _ i hi => ?_⟩
    cases hi
    exact .inl List.mem_cons_self

theorem ensures_inlineTarget (hw : Walks c P walk) (h : Holds c P (l :: chain) T r)
    (hroot : HasRoot c r) (houter : chain.hasNode l.node = false)
    (hn : (r.store.mapping? l.node).isSome) {key : String} {at_ : Location}
    {path : List String} :
    Ensures (inlineTarget c walk (l :: chain) l.node ref key at_ path name) r
      (fun own r' => Grows r r' ∧ Holds c P chain (ownValues own ++ T) r' ∧
        (Clean r' → Settled chain r' (.node l.node))) fun _ _ => True := by
  refine (growsFrom_inlineTarget hw.grows hroot hn _ _ _ _ _ _).ensures ?_
  unfold inlineTarget
  rw [ensures_bind]
  refine (ensures_load hw hroot h).mono (fun external r₁ ⟨hg₁, h₁, hext⟩ => ?_) fun _ _ => id
  rw [ensures_bind]
  refine (ensures_targetOf (l :: chain) T P hext).mono
    (fun v q ⟨hq, htarget⟩ => ?_) fun _ _ => id
  subst hq
  cases v with
  | scalar _ => exact ensures_fail.mpr trivial
  | pair _ _ => exact ensures_fail.mpr trivial
  | node target =>
      unfold inlineMapping
      rw [ensures_bind, ensures_getStore]
      split
      · rw [ensures_bind]
        exact ensures_fail.mpr trivial
      · next hmapping =>
        have ht₁ : (q.store.mapping? target).isSome := by
          rwa [Option.isNone_iff_eq_none, ← ne_eq, Option.ne_none_iff_isSome] at hmapping
        have htask : Holds c P (l :: chain) (.node target :: T) q :=
          h₁.weaken (fun _ => List.mem_cons_of_mem _) fun done hinv i hi => by
            rcases List.mem_cons.mp hi with hi | hi
            · exact .inr (htarget i hi.symm done hinv)
            · exact .inl hi
        rw [ensures_bind]
        refine (hw.ensures (.inr hext) (hroot.mono hg₁) htask).mono
          (fun _ r₂ ⟨hg₂, h₂, hsettled⟩ => ?_) fun _ _ => id
        have hn₂ := (hg₁.trans hg₂).store.mapping _ hn
        unfold takeWalked
        rw [ensures_bind, ensures_getStore]
        dsimp only
        split
        · rw [ensures_bind]
          refine (ensures_markCircular h₂ hn₂).mono (fun _ r₃ h₃ => ?_) fun _ _ => id
          exact ensures_pure.mpr h₃
        · next hinternal =>
          refine ensures_takeContent h₂ (hroot.mono (hg₁.trans hg₂)) houter hn₂
            (hg₂.store.mapping _ ht₁) (fun hclean => ?_) hsettled ?_
          · obtain ⟨done, hinv⟩ := h₁ (hclean.of_grows hg₂)
            exact (htarget target rfl done hinv).2
          · exact eq_false_of_ne_true hinternal

theorem ensures_recover {body : ResolveM (Option Entries)} {Q : Option Entries → Run → Prop}
    (h : Ensures body r (fun own r' => Grows r r' ∧ Q own r') fun _ _ => True)
    (hg : GrowsFrom r body) (hlimit : ∀ r', r'.limits ≠ [] → Q none r') :
    Ensures (recover ref body) r (fun own r' => Grows r r' ∧ Q own r') fun _ _ => True := by
  refine (growsFrom_recover hg).ensures ?_
  unfold recover
  rw [ensures_tryCatch]
  refine h.mono (fun _ _ h => h.2) fun e q _ => ?_
  split
  · simp only [ensures_bind, ensures_limit, ensures_pure]
    exact hlimit _ (by simp)
  · exact ensures_throw.mpr trivial

theorem ensures_inlineExternal (hw : Walks c P walk) {id : NodeId} {m : Entries}
    (h : Holds c P chain (.node id :: T) r) (hscope : InFile r scope) (hroot : HasRoot c r)
    (hm : r.store.mapping? id = some m) (hext : isExternalRef m)
    (hmark : ∀ v, m.get? (.str circularRefKey) = some v → r.store.isTruthy v = false)
    (hv : id ∉ r.visited) (hchain : chain.hasNode id = false) :
    Ensures (inlineExternal c walk scope chain id ref) r
      (fun _ r' => Holds c P chain T r' ∧ (Clean r' → Settled chain r' (.node id)))
      fun _ _ => True := by
  have hn : (r.store.mapping? id).isSome := by simp [hm]
  have unclean {r' : Run} (hr : r'.limits ≠ []) :
      Holds c P chain T r' ∧ (Clean r' → Settled chain r' (.node id)) :=
    ⟨.of_limits hr, fun hclean => absurd hclean.1 hr⟩
  unfold inlineExternal
  dsimp only
  split
  · simp only [ensures_bind, ensures_limit, ensures_pure]
    exact unclean (by simp)
  · rw [ensures_bind]
    unfold locate
    simp only [ensures_bind, ensures_report]
    split
    · next at_ _ =>
      rw [ensures_pure]
      have hg₁ : Grows r { r with events := r.events ++ [Event.lookedUp id ref scope.base] } :=
        ⟨.refl _, List.suffix_rfl, List.prefix_rfl, List.prefix_rfl, List.prefix_append _ _⟩
      generalize hr₁ : { r with events := r.events ++ [Event.lookedUp id ref scope.base] } = r₁ at hg₁ ⊢
      have h₁ (target : String) : Holds c P (⟨target, id⟩ :: chain) T r₁ := by
        rw [← hr₁]
        exact (h.activate hm hext hmark hv).report fun _ _ => by simp
      have hn₁ := hg₁.store.mapping _ hn
      split
      · rw [ensures_bind]
        refine (ensures_markCircular (h₁ "") hn₁).mono (fun _ q hq => ?_) fun _ _ h => h
        exact ensures_pure.mpr hq
      · rw [ensures_bind]
        refine (ensures_recover (ensures_inlineTarget hw (h₁ _) (hroot.mono hg₁) hchain hn₁)
          (growsFrom_inlineTarget hw.grows (hroot.mono hg₁) hn₁ _ _ _ _ _ _)
          fun q hq => ⟨.of_limits hq, fun hclean => absurd hclean.1 hq⟩).mono
          (fun own r₂ hend => ?_) fun _ _ h => h
        obtain ⟨hg₂, h₂, hsettled⟩ := hend
        have hg := hg₁.trans hg₂
        have hid₂ (i : Nat) (hi : Value.node id = .node i) : i < r₂.store.nodes.size := by
          cases hi
          exact Nat.lt_of_lt_of_le (lt_size_of_mapping? hm) hg.store.size
        split
        · refine (ensures_values hw (hscope.mono hg) (hroot.mono hg) h₂).mono
            (fun _ r₃ hend => ?_) fun _ _ h => h
          obtain ⟨hg₃, h₃⟩ := hend
          exact ⟨h₃, fun hclean => (hsettled (hclean.of_grows hg₃)).mono hg₃ hid₂⟩
        · exact ensures_pure.mpr ⟨h₂, hsettled⟩
    · exact ensures_fail.mpr trivial

-- A container that is not counted any more leaves a limit behind.
theorem ensures_countNode (h : Holds c P chain T r) :
    Ensures (countNode c scope) r
      (fun counted r' => Grows r r' ∧ r'.store = r.store ∧ r'.visited = r.visited ∧
        Holds c P chain T r' ∧ (counted = false → ¬Clean r')) fun _ _ => True := by
  refine (growsFrom_countNode scope).ensures ?_
  have hcounted : Holds c P chain T { r with walked := r.walked + 1 } :=
    h.congr rfl rfl rfl rfl (fun _ _ => Iff.rfl) (List.Subset.refl _) fun hclean => hclean
  unfold countNode
  simp only [ensures_bind, ensures_modify, ensures_get]
  split
  · exact ensures_pure.mpr ⟨rfl, rfl, hcounted, fun h => by cases h⟩
  · split
    · simp only [ensures_bind, ensures_set, ensures_limit, ensures_pure]
      exact ⟨trivial, trivial, .of_limits (by simp), fun _ hclean => by simp [Clean] at hclean⟩
    · next hhit =>
      refine ensures_pure.mpr ⟨rfl, rfl, hcounted, fun _ hclean => ?_⟩
      obtain ⟨done, hinv⟩ := hcounted hclean
      exact hhit (by simpa using hinv.shape.notHit)

-- All that stands in a container becomes a task when it is visited.
theorem Holds.visit {id : NodeId} (h : Holds c P chain (.node id :: T) r)
    (hchain : chain.hasNode id = false)
    (hpassed : ∀ m, r.store.mapping? id = some m → isExternalRef m →
      ∃ v, m.get? (.str circularRefKey) = some v ∧ r.store.isTruthy v = true) :
    Holds c P chain (r.store.children id ++ T) { r with visited := id :: r.visited } := by
  intro hclean
  obtain ⟨done, hinv⟩ := h ⟨hclean.1, hclean.2⟩
  have htasks := hinv.retask (T := .node id :: (r.store.children id ++ T))
    (fun i hi => Stage.covered_of_task ((List.mem_cons.mp hi).elim (fun hi => hi ▸ List.mem_cons_self)
      fun hi => List.mem_cons_of_mem _ (List.mem_append_right _ hi))) fun i hi => by
      rcases List.mem_cons.mp hi with hi | hi
      · exact .inl (hi ▸ List.mem_cons_self)
      · rcases List.mem_append.mp hi with hi | hi
        · exact .inr ⟨hinv.shape.wellFormed _ _ hi,
            hinv.scope.closed _ _ (hinv.scope.agenda id List.mem_cons_self) hi⟩
        · exact .inl (List.mem_cons_of_mem _ hi)
  have hvisit := htasks.visit (hinv.shape.agenda id List.mem_cons_self) hchain
    (fun v hv => List.mem_cons_of_mem _ (List.mem_append_left _ hv)) fun m hm hext => by
      obtain ⟨v, hv, htruthy⟩ := hpassed m hm hext
      exact ⟨v, hv, .inl htruthy⟩
  refine ⟨_, hvisit.retask (T := r.store.children id ++ T) (fun i hi => ?_) fun i hi =>
    .inl (List.mem_cons_of_mem _ hi)⟩
  rcases List.mem_cons.mp hi with hi | hi
  · cases hi
    exact .inl (.inr rfl)
  · exact Stage.covered_of_task hi

theorem ensures_visitAll (hw : Walks c P walk) {id : NodeId} {vs : List Value}
    (h : Holds c P chain (.node id :: T) r) (hscope : InFile r scope) (hroot : HasRoot c r)
    (hvs : vs = r.store.children id) (hchain : chain.hasNode id = false)
    (hpassed : ∀ m, r.store.mapping? id = some m → isExternalRef m →
      ∃ v, m.get? (.str circularRefKey) = some v ∧ r.store.isTruthy v = true) :
    Ensures (vs.forM (walk scope chain)) { r with visited := id :: r.visited }
      (fun _ r' => Holds c P chain T r' ∧ (Clean r' → Settled chain r' (.node id)))
      fun _ _ => True := by
  have hg : Grows r { r with visited := id :: r.visited } :=
    ⟨.refl _, List.suffix_cons _ _, List.prefix_rfl, List.prefix_rfl, List.prefix_rfl⟩
  subst hvs
  refine (ensures_values hw (hscope.mono hg) (hroot.mono hg) (h.visit hchain hpassed)).mono
    (fun _ r' ⟨hg', h'⟩ => ⟨h', fun _ i hi => ?_⟩) fun _ _ h => h
  cases hi
  exact .inl (hg'.visited.subset List.mem_cons_self)

theorem ensures_walkMapping (hw : Walks c P walk) {id : NodeId} {m : Entries}
    (h : Holds c P chain (.node id :: T) r) (hscope : InFile r scope) (hroot : HasRoot c r)
    (hm : r.store.mapping? id = some m) (hv : id ∉ r.visited)
    (hchain : chain.hasNode id = false) :
    Ensures (walkMapping c walk scope chain id m) r
      (fun _ r' => Holds c P chain T r' ∧ (Clean r' → Settled chain r' (.node id)))
      fun _ _ => True := by
  unfold walkMapping
  rw [ensures_bind, ensures_getStore]
  dsimp only
  split
  · next ref href =>
    obtain ⟨hpending, hexternal⟩ := Option.filter_eq_some_iff.mp href
    obtain ⟨href, hmark⟩ := pendingRef?_eq_some hpending
    exact ensures_inlineExternal hw h hscope hroot hm (isExternalRef_iff.mpr ⟨ref, href, hexternal⟩)
      hmark hv hchain
  · next hnone =>
    have hnone : (pendingRef? r.store m).filter isExternal = none :=
      Option.eq_none_iff_forall_ne_some.mpr hnone
    split
    · next ref href =>
      -- The reference is internal, and it stays what it is while components are adopted.
      obtain ⟨hpending, -⟩ := Option.filter_eq_some_iff.mp href
      have hinternal : isExternalRef m = false := by
        rw [hpending, Option.filter_some_eq_none] at hnone
        simpa [isExternalRef, (pendingRef?_eq_some hpending).1] using hnone
      rw [ensures_bind]
      refine ((growsFrom_noteInternal hroot scope ref).ensures
        (ensures_noteInternal h hroot hscope)).mono (fun _ r₁ hend => ?_) fun _ _ h => h
      obtain ⟨hg₁, h₁⟩ := hend
      simp only [ensures_bind, ensures_visit, ensures_getStore]
      obtain ⟨m₁, hm₁⟩ := hg₁.store.exists_mapping? hm
      refine ensures_visitAll hw h₁ (hscope.mono hg₁) (hroot.mono hg₁) ?_ hchain
        fun m' hm' hext => ?_
      · rw [entries_of_mapping? hm₁, children_of_mapping? hm₁]
      · have hsame := hg₁.store.reference id m m' hm hm' hext
        rw [isExternalRef_congr hsame, hinternal] at hext
        cases hext
    · simp only [ensures_bind, ensures_visit, ensures_getStore]
      refine ensures_visitAll hw h hscope hroot ?_ hchain fun m' hm' hext => ?_
      · rw [entries_of_mapping? hm, children_of_mapping? hm]
      · obtain rfl : m = m' := Option.some.inj (hm.symm.trans hm')
        exact truthy_of_not_pending hext hnone

theorem ensures_expand (hw : Walks c P walk) {id : NodeId} {container : Container}
    (h : Holds c P chain (.node id :: T) r) (hscope : InFile r scope) (hroot : HasRoot c r)
    (hget : r.store.get? id = some container) (hleaf : ¬r.store.IsLeaf id) (hv : id ∉ r.visited)
    (hchain : chain.hasNode id = false) :
    Ensures (expand c walk scope chain id container) r
      (fun _ r' => Holds c P chain T r' ∧ (Clean r' → Settled chain r' (.node id)))
      fun _ _ => True := by
  cases container with
  | set _ => exact absurd (by simp [IsLeaf, mapping?, sequence?, hget]) hleaf
  | sequence items =>
      unfold expand
      rw [ensures_bind, ensures_visit]
      refine ensures_visitAll hw h hscope hroot ?_ hchain fun m hm => ?_
      · rw [children_of_get? hget]
        rfl
      · rw [mapping?_eq_some, hget] at hm
        cases hm
  | mapping m => exact ensures_walkMapping hw h hscope hroot (mapping?_eq_some.mpr hget) hv hchain

end Walk

theorem walks_walk (c : Context) (P : NodeId → Prop) (allowance : Nat) :
    Walks c P (walk c allowance) := by
  induction allowance with
  | zero => exact ⟨growsFrom_walk c 0, fun _ _ _ => ensures_throw.mpr trivial⟩
  | succ allowance ih =>
      refine ⟨growsFrom_walk c (allowance + 1), fun {scope chain T r v} hscope hroot h => ?_⟩
      refine ensures_walk (fun hskip => ⟨h.settle fun _ => hskip.settled, fun _ => hskip.settled⟩)
        fun id container hv hget hleaf hvisited hchain => ?_
      subst hv
      refine (ensures_countNode h).mono (fun counted r₁ ⟨hg₁, hs₁, hv₁, h₁, hlimit⟩ => ?_)
        fun _ _ h => h
      cases counted with
      | true =>
          exact ensures_expand ih h₁ (hscope.mono hg₁) (hroot.mono hg₁) (hs₁ ▸ hget) (hs₁ ▸ hleaf)
            (hv₁ ▸ hvisited) hchain
      | false => exact ⟨fun hc => absurd hc (hlimit rfl), fun hc => absurd hc (hlimit rfl)⟩

end ApiGraph.Resolve
