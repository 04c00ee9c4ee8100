import ApiGraph.Proofs.Resolve.Cover

namespace ApiGraph.Resolve

open Store Reference

variable {c : Context} {P : NodeId → Prop} {g : Stage}

theorem Chain.hasNode_cons {l : Link} {chain : Chain} {id : NodeId} :
    Chain.hasNode (l :: chain) id = true ↔ l.node = id ∨ chain.hasNode id = true := by
  simp [Chain.hasNode]

theorem Chain.hasNode_self (l : Link) (chain : Chain) : Chain.hasNode (l :: chain) l.node = true :=
  hasNode_cons.mpr (.inl rfl)

-- What was covered stays covered.
def Carries (g g' : Stage) : Prop :=
  ∀ id : Nat, id < g.store.nodes.size → g.Covered id → g'.Covered id

-- The innermost reference is held.
theorem Shaped.held_of_cons {l : Link} {chain : Chain} {T : List Value} {r : Run}
    {done : NodeId → Prop} (h : Shaped c ⟨r, l :: chain, T, done⟩) :
    Stage.Held ⟨r, l :: chain, T, done⟩ l.node :=
  ⟨.inl (Chain.hasNode_self l chain), h.active _ (Chain.hasNode_self l chain)⟩

section Frame

variable {g' : Stage}

-- What a step has to show for the coverage: only what is new.
theorem Covers.step (h : Covers c g) (hshape : Shaped c g) (hg : g.store.Grows g'.store)
    (carry : ∀ {id : Nat}, id < g.store.nodes.size → g.Covered id → g'.Covered id)
    (hloaded : ∀ d ∈ g'.run.loaded.values, d ∈ g.run.loaded.values ∨ g'.Covered d)
    (hclosed : ∀ id j, g'.done id → .node j ∈ g'.store.children id →
      (g.done id ∧ .node j ∈ g.store.children id) ∨ g'.Covered j)
    (hmark : ∀ id m j, g'.Held id → g'.store.mapping? id = some m →
      m.get? (.str circularRefKey) = some (.node j) → (g'.store.mapping? j).isSome →
      (g.Held id ∧ ∃ m₀, g.store.mapping? id = some m₀ ∧
        m₀.get? (.str circularRefKey) = some (.node j)) ∨ g'.Covered j) :
    Covers c g' where
  root := by
    obtain ⟨m, hm⟩ := Option.isSome_iff_exists.mp hshape.root
    exact carry (lt_size_of_mapping? hm) h.root
  loaded d hd := by
    rcases hloaded d hd with hd | hc
    · obtain ⟨m, hm⟩ := Option.isSome_iff_exists.mp (hshape.loaded d hd)
      exact carry (lt_size_of_mapping? hm) (h.loaded d hd)
    · exact hc
  closed id j hd hj := by
    rcases hclosed id j hd hj with ⟨hd, hj⟩ | hc
    · exact carry (hshape.wellFormed id j hj) (h.closed id j hd hj)
    · exact hc
  mark id m j hid hm hk hj := by
    rcases hmark id m j hid hm hk hj with ⟨hid, m₀, hm₀, hk₀⟩ | hc
    · have hlt := hshape.wellFormed id j ((mem_children_iff hm₀).mpr ⟨_, hk₀⟩)
      exact carry hlt (h.mark id m₀ j hid hm₀ hk₀ (hg.isSome_mapping? hlt hj))
    · exact hc

theorem Scoped.step (h : Scoped c P g) (hg : g.store.Grows g'.store)
    (hclosed : ∀ id j, P id → .node j ∈ g'.store.children id →
      .node j ∈ g.store.children id ∨ P j)
    (hagenda : ∀ id, .node id ∈ g'.agenda → .node id ∈ g.agenda ∨ P id)
    (hheld : ∀ id, g'.Held id → g.Held id ∨ P id)
    (hloaded : ∀ d ∈ g'.run.loaded.values, d ∈ g.run.loaded.values ∨ P d) : Scoped c P g' where
  new id hid := h.new id (Nat.le_trans hg.size hid)
  closed id j hp hj := (hclosed id j hp hj).elim (h.closed id j hp) fun hp => hp
  agenda id hid := (hagenda id hid).elim (h.agenda id) fun hp => hp
  held id hid := (hheld id hid).elim (h.held id) fun hp => hp
  root := h.root
  loaded d hd := (hloaded d hd).elim (h.loaded d) fun hp => hp

end Frame

section Move

-- What is asked of a node that is done only after the step. In a new mapping may stand what was covered
-- before.
structure Stage.Ends (g g' : Stage) (id : Nat) : Prop where
  range : id < g'.store.nodes.size
  made : id ∉ g'.run.visited → ∀ m, g'.store.mapping? id = some m → m.ref? = none
  resolved : ∀ m, g'.store.mapping? id = some m → isExternalRef m → g'.Passed m
  closed : ∀ j : Nat, .node j ∈ g'.store.children id →
    g'.Covered j ∨ (g.store.nodes.size ≤ id ∧ j < g.store.nodes.size ∧ g.Covered j)

-- What is asked of a reference that is held only after the step.
structure Stage.Takes (P : NodeId → Prop) (g' : Stage) (id : NodeId) : Prop where
  reference : ∃ m, g'.store.mapping? id = some m ∧ isExternalRef m ∧
    ∀ j, m.get? (.str circularRefKey) = some (.node j) → (g'.store.mapping? j).isSome → g'.Covered j
  within : P id

-- The new store has all containers as they were; in what is new stand nodes of `P` only.
structure Adds (P : NodeId → Prop) (s s' : Store) : Prop where
  size : s.nodes.size ≤ s'.nodes.size
  old : ∀ id < s.nodes.size, s'.get? id = s.get? id
  new : ∀ id : Nat, s.nodes.size ≤ id → ∀ j : Nat, .node j ∈ s'.children id →
    j < s'.nodes.size ∧ P j

namespace Adds

variable {s s' : Store} {id : Nat} {m : Entries}

theorem refl (s : Store) : Adds P s s :=
  ⟨Nat.le_refl _, fun _ _ => rfl, fun _ hid _ hj =>
    absurd (lt_size_of_mem_children hj) (Nat.not_lt_of_le hid)⟩

theorem mapping_of_lt (h : Adds P s s') (hid : id < s.nodes.size) :
    s'.mapping? id = s.mapping? id := by
  unfold mapping?
  rw [h.old id hid]

theorem mapping (h : Adds P s s') (hm : s.mapping? id = some m) : s'.mapping? id = some m :=
  (h.mapping_of_lt (lt_size_of_mapping? hm)).trans hm

theorem children_of_lt (h : Adds P s s') (hid : id < s.nodes.size) :
    s'.children id = s.children id := by
  unfold children
  rw [h.old id hid]

theorem grows (h : Adds P s s') : s.Grows s' where
  size := h.size
  mapping id hm := by
    obtain ⟨m, hm⟩ := Option.isSome_iff_exists.mp hm
    exact Option.isSome_iff_exists.mpr ⟨m, h.mapping hm⟩
  other id container hc _ := (h.old id (lt_size_of_get? hc)).trans hc

theorem wellFormed (h : Adds P s s') (hs : s.WellFormed) : s'.WellFormed := by
  intro id j hj
  rcases Nat.lt_or_ge id s.nodes.size with hid | hid
  · exact Nat.lt_of_lt_of_le (hs id j (h.children_of_lt hid ▸ hj)) h.size
  · exact (h.new id hid j hj).1

end Adds

-- A step that leaves all containers as they are. It may add some, and change what is said of them.
structure Move (c : Context) (P : NodeId → Prop) (g g' : Stage) : Prop where
  adds : Adds P g.store g'.store
  nodeLimitHit : g'.run.nodeLimitHit = g.run.nodeLimitHit
  inlined : ∀ id, g.Inlined id → g'.Inlined id
  keepsDone : ∀ id, g.done id → g'.done id
  keepsVisited : g.run.visited ⊆ g'.run.visited
  visited : ∀ id ∈ g'.run.visited, g'.done id
  active : ∀ id, g'.chain.hasNode id = true → id ∉ g'.run.visited
  -- What was still to be walked is covered after the step too.
  task : ∀ id, .node id ∈ g.agenda → g'.Covered id
  keepsHeld : ∀ id, g.Held id → g'.Covered id
  loaded : ∀ d ∈ g'.run.loaded.values, d ∈ g.run.loaded.values ∨
    ((g'.store.mapping? d).isSome ∧ g'.Covered d ∧ P d)
  agenda : ∀ id : Nat, .node id ∈ g'.agenda → .node id ∈ g.agenda ∨
    (id < g'.store.nodes.size ∧ P id)
  done : ∀ id : Nat, g'.done id → g.done id ∨ g.Ends g' id
  held : ∀ id, g'.Held id → g.Held id ∨ g'.Takes P id
  marked : ∀ id, g'.Marked id → g.Marked id ∨ ∃ m, g'.store.mapping? id = some m ∧ g'.Firm m

namespace Move

variable {g' : Stage} {m : Entries}

theorem passed (h : Move c P g g') (hm : g.Passed m) : g'.Passed m :=
  hm.transfer h.adds.grows h.inlined fun _ e he hne => .inl ⟨e, h.adds.mapping he, hne⟩

theorem firm (h : Move c P g g') (hm : g.Firm m) : g'.Firm m :=
  hm.transfer h.keepsDone fun _ e _ he hne => ⟨e, h.adds.mapping he, hne⟩

-- What was due for the sake of a mapping that is done now, or is held now, is covered on its own.
theorem carry (h : Move c P g g') : Carries g g' := by
  intro id hid hc
  refine Stage.Covered.transfer h.adds.grows h.task h.keepsHeld h.keepsDone ?_ hid hc
  intro id m k j hd hm hk hj hh hc
  have hm' := h.adds.mapping hm
  have hj' := h.adds.grows.mapping j hj
  by_cases hd' : g'.done id
  · have hends := (h.done id hd').resolve_left hd
    exact (hends.closed j ((mem_children_iff hm').mpr ⟨k, hk⟩)).resolve_right fun hnew =>
      Nat.not_lt_of_le hnew.1 (lt_size_of_mapping? hm)
  · by_cases hmark : g'.Held id ∧ (k == .str circularRefKey) = true
    · rcases h.held id hmark.1 with hold | ⟨⟨e, he, -, hcov⟩, -⟩
      · exact absurd hmark.2 (Bool.eq_false_iff.mp (hh hold))
      · obtain rfl : m = e := Option.some.inj (hm'.symm.trans he)
        exact hcov j ((OrderedMap.get?_congr hmark.2).symm.trans hk) hj'
    · exact hc.child hd' hm' hk hj' fun hheld =>
        Bool.eq_false_iff.mpr fun hkey => hmark ⟨hheld, hkey⟩

theorem shape (h : Move c P g g') (hs : Shaped c g) : Shaped c g' where
  wellFormed := h.adds.wellFormed hs.wellFormed
  root := h.adds.grows.mapping _ hs.root
  notHit := h.nodeLimitHit.trans hs.notHit
  loaded d hd := (h.loaded d hd).elim (fun hd => h.adds.grows.mapping d (hs.loaded d hd)) And.left
  agenda id hid :=
    (h.agenda id hid).elim (fun hid => Nat.lt_of_lt_of_le (hs.agenda id hid) h.adds.size) And.left
  done id hid :=
    (h.done id hid).elim (fun hid => Nat.lt_of_lt_of_le (hs.done id hid) h.adds.size) Stage.Ends.range
  visited := h.visited
  active := h.active
  made id m hd hid hm := by
    rcases h.done id hd with hd | hends
    · rw [h.adds.mapping_of_lt (hs.done id hd)] at hm
      exact hs.made id m hd (fun hv => hid (h.keepsVisited hv)) hm
    · exact hends.made hid m hm
  resolved id m hd hm hext := by
    rcases h.done id hd with hd | hends
    · rw [h.adds.mapping_of_lt (hs.done id hd)] at hm
      exact h.passed (hs.resolved id m hd hm hext)
    · exact hends.resolved m hm hext
  held id hid := by
    rcases h.held id hid with hid | ⟨⟨m, hm, hext, -⟩, -⟩
    · obtain ⟨m, hm, hext⟩ := hs.held id hid
      exact ⟨m, h.adds.mapping hm, hext⟩
    · exact ⟨m, hm, hext⟩
  marked id hid := by
    rcases h.marked id hid with hid | hfirm
    · obtain ⟨m, hm, hfirm⟩ := hs.marked id hid
      exact ⟨m, h.adds.mapping hm, h.firm hfirm⟩
    · exact hfirm

theorem cover (h : Move c P g g') (hs : Shaped c g) (hc : Covers c g) : Covers c g' := by
  refine hc.step hs h.adds.grows (h.carry _) (fun d hd => ?_) (fun id j hd hj => ?_)
    fun id m j hid hm hk hj => ?_
  · exact (h.loaded d hd).imp_right fun hnew => hnew.2.1
  · rcases h.done id hd with hd | hends
    · exact .inl ⟨hd, h.adds.children_of_lt (hs.done id hd) ▸ hj⟩
    · exact .inr ((hends.closed j hj).elim (fun hc => hc) fun ⟨_, hlt, hc⟩ => h.carry j hlt hc)
  · rcases h.held id hid with hid | ⟨⟨e, he, -, hmark⟩, -⟩
    · obtain ⟨e, he, -⟩ := hs.held id hid
      exact .inl ⟨hid, m, (h.adds.mapping_of_lt (lt_size_of_mapping? he)).symm.trans hm, hk⟩
    · obtain rfl : m = e := Option.some.inj (hm.symm.trans he)
      exact .inr (hmark j hk hj)

theorem scope (h : Move c P g g') (hs : Scoped c P g) : Scoped c P g' := by
  refine hs.step h.adds.grows (fun id j _ hj => ?_) (fun id hid => (h.agenda id hid).imp_right And.right)
    (fun id hid => (h.held id hid).imp_right Stage.Takes.within)
    fun d hd => (h.loaded d hd).imp_right fun hnew => hnew.2.2
  rcases Nat.lt_or_ge id g.store.nodes.size with hid | hid
  · exact .inl (h.adds.children_of_lt hid ▸ hj)
  · exact .inr (h.adds.new id hid j hj).2

end Move

theorem Inv.move (h : Inv c P g) {g' : Stage} (hm : Move c P g g') : Inv c P g' :=
  ⟨hm.shape h.shape, hm.cover h.shape h.cover, hm.scope h.scope⟩

section Store

variable {n : Entries}

theorem adds_alloc (hnodes : ∀ k j, n.get? k = some (.node j) → j < g.store.nodes.size ∧ P j) :
    Adds P g.store (g.store.alloc (.mapping n)).2 where
  size := (grows_alloc _ _).size
  old _ hid := get?_alloc_of_lt _ _ hid
  new id hid j hj := by
    have hlt := lt_size_of_mem_children hj
    rw [size_alloc] at hlt
    obtain rfl : id = g.store.nodes.size := Nat.le_antisymm (Nat.le_of_lt_succ hlt) hid
    obtain ⟨k, hk⟩ := (mem_children_iff mapping?_alloc_self).mp hj
    exact (hnodes k j hk).imp_left fun h => Nat.lt_of_lt_of_le h (grows_alloc _ _).size

theorem Scoped.adds (h : Scoped c P g) {s : Store} (hs : g.store.Extends s) : Adds P g.store s where
  size := hs.size
  old := hs.old
  new id hid j hj := (hs.new id hid _ hj j rfl).symm.imp_right (h.new j)

end Store

-- Counting, reporting and collecting change nothing that the invariant speaks of.
theorem Inv.congr (h : Inv c P g) {g' : Stage} (hs : g'.store = g.store)
    (hv : g'.run.visited = g.run.visited) (hl : g'.run.loaded = g.run.loaded)
    (hn : g'.run.nodeLimitHit = g.run.nodeLimitHit) (ha : g'.agenda = g.agenda)
    (hd : g'.done = g.done) (hchain : ∀ id, g'.chain.hasNode id = true → g.chain.hasNode id = true)
    (hheld : ∀ id, g'.Held id ↔ g.Held id) (hinlined : ∀ id, g.Inlined id → g'.Inlined id)
    (hmarked : ∀ id, g'.Marked id → ∃ m, g.store.mapping? id = some m ∧ g.Firm m) :
    Inv c P g' := by
  refine h.move
    { adds := hs ▸ .refl _
      nodeLimitHit := hn
      inlined := hinlined
      keepsDone := fun id hid => hd ▸ hid
      keepsVisited := hv ▸ List.Subset.refl _
      visited := fun id hid => hd ▸ h.shape.visited id (hv ▸ hid)
      active := fun id hid => hv ▸ h.shape.active id (hchain id hid)
      task := fun id hid => Stage.covered_of_task (ha ▸ hid)
      keepsHeld := fun id hid => Stage.covered_of_held ((hheld id).mpr hid)
      loaded := fun d hid => .inl (hl ▸ hid)
      agenda := fun id hid => .inl (ha ▸ hid)
      done := fun id hid => .inl (hd ▸ hid)
      held := fun id hid => .inl ((hheld id).mp hid)
      marked := fun id hid => .inr ?_ }
  obtain ⟨m, hm, hfirm⟩ := hmarked id hid
  refine ⟨m, hs ▸ hm, hfirm.transfer (fun id hid => hd ▸ hid) fun _ n _ hn hne => ⟨n, ?_, hne⟩⟩
  rwa [hs]

-- Tasks that are covered without being on the agenda may leave it; others may be put on it.
theorem Inv.retask (h : Inv c P g) {T : List Value}
    (ht : ∀ id, .node id ∈ g.agenda → Stage.Covered { g with agenda := T } id)
    (hn : ∀ id : Nat, .node id ∈ T → .node id ∈ g.agenda ∨ (id < g.store.nodes.size ∧ P id)) :
    Inv c P { g with agenda := T } :=
  h.move
    { adds := .refl _
      nodeLimitHit := rfl
      inlined := fun _ => id
      keepsDone := fun _ => id
      keepsVisited := List.Subset.refl _
      visited := h.shape.visited
      active := h.shape.active
      task := ht
      keepsHeld := fun _ hid => Stage.covered_of_held (g := { g with agenda := T }) hid
      loaded := fun _ => .inl
      agenda := hn
      done := fun _ => .inl
      held := fun _ => .inl
      marked := fun _ => .inl }

-- A new mapping, which nothing names yet and which is no reference.
theorem Inv.alloc (h : Inv c P g) {n : Entries} (href : n.ref? = none)
    (hnodes : ∀ k j, n.get? k = some (.node j) → g.Covered j ∧ P j ∧ j < g.store.nodes.size) :
    ∃ g' : Stage, g' = { g with
      run := { g.run with store := (g.store.alloc (.mapping n)).2 }
      done := fun id => g.done id ∨ id = g.store.nodes.size } ∧ Inv c P g' ∧ Carries g g' := by
  let g' : Stage := { g with
    run := { g.run with store := (g.store.alloc (.mapping n)).2 }
    done := fun id => g.done id ∨ id = g.store.nodes.size }
  have hself : g'.store.mapping? g.store.nodes.size = some n := mapping?_alloc_self
  have hends : g.Ends g' g.store.nodes.size :=
    { range := lt_size_of_mapping? hself
      made := fun _ m hm => Option.some.inj (hself.symm.trans hm) ▸ href
      resolved := fun m hm hext => by
        rw [← Option.some.inj (hself.symm.trans hm)] at hext
        exact absurd hext (not_isExternalRef href)
      closed := fun j hj => by
        obtain ⟨k, hk⟩ := (mem_children_iff hself).mp hj
        obtain ⟨hcov, -, hlt⟩ := hnodes k j hk
        exact .inr ⟨Nat.le_refl _, hlt, hcov⟩ }
  have hmove : Move c P g g' :=
    { adds := adds_alloc fun k j hk => (hnodes k j hk).2.symm
      nodeLimitHit := rfl
      inlined := fun _ => id
      keepsDone := fun _ => .inl
      keepsVisited := List.Subset.refl _
      visited := fun id hid => .inl (h.shape.visited id hid)
      active := h.shape.active
      task := fun _ hid => Stage.covered_of_task (g := g') hid
      keepsHeld := fun _ hid => Stage.covered_of_held (g := g') hid
      loaded := fun _ => .inl
      agenda := fun _ => .inl
      done := by
        rintro id (hid | rfl)
        · exact .inl hid
        · exact .inr hends
      held := fun _ => .inl
      marked := fun _ => .inl }
  exact ⟨g', rfl, h.move hmove, hmove.carry⟩

-- An empty mapping has nothing to walk.
theorem Inv.finish (h : Inv c P g) {e : NodeId} {m : Entries} (hm : g.store.mapping? e = some m)
    (hempty : m.isEmpty) : Inv c P { g with done := fun id => g.done id ∨ id = e } := by
  let g' : Stage := { g with done := fun id => g.done id ∨ id = e }
  have hnone (k : Key) : m.get? k = none := by
    have : m.entries = [] := by simpa [OrderedMap.isEmpty] using hempty
    simp [OrderedMap.get?, this]
  have href {m₀ : Entries} (hm₀ : g.store.mapping? e = some m₀) : m₀.ref? = none := by
    obtain rfl : m = m₀ := Option.some.inj (hm.symm.trans hm₀)
    exact ref?_eq_none (hnone _)
  have hends : g.Ends g' e :=
    { range := lt_size_of_mapping? hm
      made := fun _ m₀ hm₀ => href hm₀
      resolved := fun m₀ hm₀ hext => absurd hext (not_isExternalRef (href hm₀))
      closed := fun j hj => by
        obtain ⟨k, hk⟩ := (mem_children_iff hm).mp hj
        rw [hnone] at hk
        cases hk }
  exact h.move
    { adds := .refl _
      nodeLimitHit := rfl
      inlined := fun _ => id
      keepsDone := fun _ => .inl
      keepsVisited := List.Subset.refl _
      visited := fun id hid => .inl (h.shape.visited id hid)
      active := h.shape.active
      task := fun _ hid => Stage.covered_of_task (g := g') hid
      keepsHeld := fun _ hid => Stage.covered_of_held (g := g') hid
      loaded := fun _ => .inl
      agenda := fun _ => .inl
      done := by
        rintro id (hid | rfl)
        · exact .inl hid
        · exact .inr hends
      held := fun _ => .inl
      marked := fun _ => .inl }

-- A reference is being resolved from now on.
theorem Inv.push (h : Inv c P g) {l : Link} {m : Entries}
    (hm : g.store.mapping? l.node = some m) (hext : isExternalRef m) (hp : P l.node)
    (hv : l.node ∉ g.run.visited)
    (hmark : ∀ j, m.get? (.str circularRefKey) = some (.node j) →
      (g.store.mapping? j).isSome → g.done j) :
    Inv c P { g with chain := l :: g.chain } := by
  let g' : Stage := { g with chain := l :: g.chain }
  have htakes : g'.Takes P l.node :=
    ⟨⟨m, hm, hext, fun j hk hj => .inl (hmark j hk hj)⟩, hp⟩
  exact h.move
    { adds := .refl _
      nodeLimitHit := rfl
      inlined := fun _ => id
      keepsDone := fun _ => id
      keepsVisited := List.Subset.refl _
      visited := h.shape.visited
      active := fun id hid =>
        (Chain.hasNode_cons.mp hid).elim (fun heq => heq ▸ hv) (h.shape.active id)
      task := fun _ hid => Stage.covered_of_task (g := g') hid
      keepsHeld := fun _ hid =>
        Stage.covered_of_held (g := g')
          ⟨hid.1.imp_left fun hid => Chain.hasNode_cons.mpr (.inr hid), hid.2⟩
      loaded := fun _ => .inl
      agenda := fun _ => .inl
      done := fun _ => .inl
      held := fun id hid => by
        rcases hid with ⟨hactive | hmarked, hid⟩
        · rcases Chain.hasNode_cons.mp hactive with rfl | hactive
          · exact .inr htakes
          · exact .inl ⟨.inl hactive, hid⟩
        · exact .inl ⟨.inr hmarked, hid⟩
      marked := fun _ => .inl }

-- A container is visited with all that stands in it on the agenda.
theorem Inv.visit (h : Inv c P g) {id : Nat} (hid : id < g.store.nodes.size)
    (hchain : g.chain.hasNode id = false)
    (hchildren : ∀ v ∈ g.store.children id, v ∈ g.agenda)
    (hres : ∀ m, g.store.mapping? id = some m → isExternalRef m → g.Passed m) :
    Inv c P { g with
      run := { g.run with visited := id :: g.run.visited }
      done := fun i => g.done i ∨ i = id } := by
  let g' : Stage := { g with
    run := { g.run with visited := id :: g.run.visited }
    done := fun i => g.done i ∨ i = id }
  have hends : g.Ends g' id :=
    { range := hid
      made := fun hv => absurd List.mem_cons_self hv
      resolved := hres
      closed := fun j hj => .inl (Stage.covered_of_task (hchildren _ hj)) }
  exact h.move
    { adds := .refl _
      nodeLimitHit := rfl
      inlined := fun _ hi => hi
      keepsDone := fun _ => .inl
      keepsVisited := List.subset_cons_self _ _
      visited := fun i hi => (List.mem_cons.mp hi).symm.imp_left (h.shape.visited i)
      active := fun i hi hv => by
        rcases List.mem_cons.mp hv with rfl | hv
        · exact Bool.eq_false_iff.mp hchain hi
        · exact h.shape.active i hi hv
      task := fun _ hi => Stage.covered_of_task (g := g') hi
      keepsHeld := fun i hi => by
        by_cases heq : i = id
        · exact .inl (.inr heq)
        · exact Stage.covered_of_held (g := g')
            ⟨hi.1, fun hv => (List.mem_cons.mp hv).elim heq hi.2⟩
      loaded := fun _ => .inl
      agenda := fun _ => .inl
      done := by
        rintro i (hi | rfl)
        · exact .inl hi
        · exact .inr hends
      held := fun _ hi => .inl ⟨hi.1, fun hv => hi.2 (List.mem_cons_of_mem _ hv)⟩
      marked := fun _ => .inl }

-- A file is loaded, to be walked next.
theorem Inv.load (h : Inv c P g) {s : Store} {d : NodeId} {key : String}
    (hs : g.store.Extends s) (hnew : g.store.IsNew s (.node d)) (hd : (s.mapping? d).isSome) :
    Inv c P { g with
      run := { g.run with store := s, loaded := g.run.loaded.insert key d }
      agenda := .node d :: g.agenda } := by
  let g' : Stage := { g with
    run := { g.run with store := s, loaded := g.run.loaded.insert key d }
    agenda := .node d :: g.agenda }
  obtain ⟨hle, hlt⟩ := hnew d rfl
  have hpd : P d := h.scope.new d hle
  exact h.move
    { adds := h.scope.adds hs
      nodeLimitHit := rfl
      inlined := fun _ => id
      keepsDone := fun _ => id
      keepsVisited := List.Subset.refl _
      visited := h.shape.visited
      active := h.shape.active
      task := fun _ hid => Stage.covered_of_task (g := g') (List.mem_cons_of_mem _ hid)
      keepsHeld := fun _ hid => Stage.covered_of_held (g := g') hid
      loaded := fun d' hd' => by
        rcases OrderedMap.mem_values_insert hd' with rfl | hd'
        · exact .inr ⟨hd, Stage.covered_of_task (g := g') List.mem_cons_self, hpd⟩
        · exact .inl hd'
      agenda := fun id hid => by
        rcases List.mem_cons.mp hid with hid | hid
        · cases hid
          exact .inr ⟨hlt, hpd⟩
        · exact .inl hid
      done := fun _ => .inl
      held := fun _ => .inl
      marked := fun _ => .inl }

end Move

section Set

variable {g' : Stage} {n : NodeId} {m m' m₀ : Entries}

-- The mapping is not empty.
def Stage.Full (g : Stage) (id : NodeId) : Prop :=
  ∃ m, g.store.mapping? id = some m ∧ m.isEmpty = false

theorem Stage.Full.set {id : NodeId} (h : g.Full id) (hn : g.store.mapping? n = some m)
    (hs : g'.store = g.store.set n (.mapping m')) :
    g'.Full id ∨ (id = n ∧ m.isEmpty = false ∧ m'.isEmpty = true) := by
  obtain ⟨e, he, hne⟩ := h
  unfold Stage.Full
  rw [hs]
  by_cases hid : n = id
  · subst hid
    obtain rfl : m = e := Option.some.inj (hn.symm.trans he)
    cases hm' : m'.isEmpty with
    | true => exact .inr ⟨rfl, hne, rfl⟩
    | false => exact .inl ⟨m', mapping?_set_self hn, hm'⟩
  · exact .inl ⟨e, (mapping?_set_of_ne hid).trans he, hne⟩

theorem Stage.Passed.set (h : g.Passed m₀) (hn : g.store.mapping? n = some m)
    (hs : g'.store = g.store.set n (.mapping m')) (hinlined : ∀ id, g.Inlined id → g'.Inlined id)
    (hfull : m.isEmpty = false → m'.isEmpty = false ∨ g'.Inlined n) : g'.Passed m₀ := by
  refine h.transfer (hs ▸ grows_set m' hn) hinlined fun id e he hne => ?_
  refine (Stage.Full.set ⟨e, he, hne⟩ hn hs).imp_right ?_
  rintro ⟨rfl, hne, hempty⟩
  exact (hfull hne).resolve_left (by simp [hempty])

theorem Stage.Firm.set (h : g.Firm m₀) (hn : g.store.mapping? n = some m)
    (hs : g'.store = g.store.set n (.mapping m')) (hdone : ∀ id, g.done id → g'.done id)
    (hfull : m.isEmpty = false → m'.isEmpty = false ∨ ¬g.done n) : g'.Firm m₀ := by
  refine h.transfer hdone fun id e hd he hne => ?_
  refine (Stage.Full.set ⟨e, he, hne⟩ hn hs).resolve_right ?_
  rintro ⟨rfl, hne, hempty⟩
  exact (hfull hne).elim (by simp [hempty]) fun hnot => hnot hd

-- What is asked of new content for a mapping. With `D` the mapping is done from then on.
structure Content (c : Context) (P : NodeId → Prop) (g g' : Stage) (n : NodeId) (m m' : Entries)
    (D : Prop) : Prop where
  before : g.store.mapping? n = some m
  store : g'.store = g.store.set n (.mapping m')
  loaded : g'.run.loaded = g.run.loaded
  nodeLimitHit : g'.run.nodeLimitHit = g.run.nodeLimitHit
  agenda : g'.agenda = g.agenda
  done : ∀ id, g'.done id ↔ g.done id ∨ (id = n ∧ D)
  visited : ∀ id, id ∈ g'.run.visited ↔ id ∈ g.run.visited ∨ (id = n ∧ D)
  held : ∀ id, g'.Held id ↔ g.Held id ∧ ¬(id = n ∧ D)
  marked : ∀ id, g'.Marked id → g.Marked id
  inlined : ∀ id, g.Inlined id → g'.Inlined id
  full : m.isEmpty = false → m'.isEmpty = false ∨ (¬g.done n ∧ g'.Inlined n)
  -- What stands in the mapping stays there as long as it is not done, or else is to be walked.
  kept : ¬g'.done n → ∀ k j, m.get? k = some (.node j) → (g.store.mapping? j).isSome →
    (g.Held n → (k == .str circularRefKey) = false) → m'.get? k = some (.node j)
  walked : D → ∀ k j, m.get? k = some (.node j) → (g.store.mapping? j).isSome →
    .node j ∈ g.agenda
  new : ∀ k j, m'.get? k = some (.node j) →
    (∃ k', m.get? k' = some (.node j)) ∨ (j < g.store.nodes.size ∧ P j)
  covered : ∀ k j, m'.get? k = some (.node j) →
    (¬D ∧ ∃ k', m.get? k' = some (.node j)) ∨ g.Covered j
  active : ∀ id, g'.chain.hasNode id = true → id ∉ g'.run.visited
  made : g'.done n → n ∉ g'.run.visited → m'.ref? = none
  resolved : g'.done n → isExternalRef m' → g'.Passed m'
  external : g'.Held n → isExternalRef m'
  firm : g.Marked n → g'.Firm m'
  mark : g'.Held n → ∀ j, m'.get? (.str circularRefKey) = some (.node j) →
    m.get? (.str circularRefKey) = some (.node j) ∨ g.Covered j

namespace Content

variable {D : Prop} {id : NodeId}

theorem self (hc : Content c P g g' n m m' D) : g'.store.mapping? n = some m' := by
  rw [hc.store]
  exact mapping?_set_self hc.before

theorem other (hc : Content c P g g' n m m' D) (hid : n ≠ id) :
    g'.store.mapping? id = g.store.mapping? id := by
  rw [hc.store]
  exact mapping?_set_of_ne hid

theorem size (hc : Content c P g g' n m m' D) :
    g'.store.nodes.size = g.store.nodes.size := by
  rw [hc.store]
  exact size_set _ _ _

theorem grows (hc : Content c P g g' n m m' D) : g.store.Grows g'.store :=
  hc.store ▸ grows_set m' hc.before

theorem passed (hc : Content c P g g' n m m' D) (h : g.Passed m₀) : g'.Passed m₀ :=
  h.set hc.before hc.store hc.inlined fun hne => (hc.full hne).imp_right And.right

theorem stays (hc : Content c P g g' n m m' D) (h : g.Firm m₀) : g'.Firm m₀ :=
  h.set hc.before hc.store (fun id hd => (hc.done id).mpr (.inl hd))
    fun hne => (hc.full hne).imp_right And.left

-- What is found after the step is the new content, or was found before.
theorem mapping_cases (hc : Content c P g g' n m m' D) (hm : g'.store.mapping? id = some m₀) :
    (id = n ∧ m₀ = m') ∨ (id ≠ n ∧ g.store.mapping? id = some m₀) := by
  by_cases hid : n = id
  · subst hid
    exact .inl ⟨rfl, Option.some.inj (hm.symm.trans hc.self)⟩
  · exact .inr ⟨Ne.symm hid, (hc.other hid).symm.trans hm⟩

theorem children_cases (hc : Content c P g g' n m m' D) {j : NodeId}
    (hj : .node j ∈ g'.store.children id) :
    (id = n ∧ ∃ k, m'.get? k = some (.node j)) ∨ (id ≠ n ∧ .node j ∈ g.store.children id) := by
  by_cases hid : n = id
  · subst hid
    exact .inl ⟨rfl, (mem_children_iff hc.self).mp hj⟩
  · rw [hc.store, children_set_of_ne hid] at hj
    exact .inr ⟨Ne.symm hid, hj⟩

theorem done_of_ne (hc : Content c P g g' n m m' D) (hid : id ≠ n) (hd : g'.done id) :
    g.done id :=
  ((hc.done id).mp hd).resolve_right fun h => hid h.1

theorem lt_size (hc : Content c P g g' n m m' D) (h : Shaped c g) {k : Key} {j : NodeId}
    (hk : m'.get? k = some (.node j)) : j < g.store.nodes.size := by
  rcases hc.new k j hk with ⟨k', hk'⟩ | ⟨hlt, -⟩
  · exact h.wellFormed n j ((mem_children_iff hc.before).mpr ⟨k', hk'⟩)
  · exact hlt

theorem carry (hc : Content c P g g' n m m' D) : Carries g g' := by
  intro id hid hcov
  refine Stage.Covered.transfer hc.grows (fun _ ht => Stage.covered_of_task (hc.agenda ▸ ht))
    (fun id hid => ?_) (fun _ hd => (hc.done _).mpr (.inl hd)) ?_ hid hcov
  · by_cases hD : id = n ∧ D
    · exact .inl ((hc.done id).mpr (.inr hD))
    · exact Stage.covered_of_held ((hc.held id).mpr ⟨hid, hD⟩)
  · intro id m₀ k j hd hm hk hj hh hcov
    have hj' := hc.grows.mapping j hj
    have hh' (hheld : g'.Held id) : (k == .str circularRefKey) = false :=
      hh ((hc.held id).mp hheld).1
    by_cases hid : n = id
    · subst hid
      obtain rfl : m = m₀ := Option.some.inj (hc.before.symm.trans hm)
      by_cases hD : D
      · exact Stage.covered_of_task (hc.agenda ▸ hc.walked hD k j hk hj)
      · have hd' : ¬g'.done n := fun hd' => ((hc.done n).mp hd').elim hd fun h => hD h.2
        exact hcov.child hd' hc.self (hc.kept hd' k j hk hj hh) hj' hh'
    · exact hcov.child (fun hd' => hd (hc.done_of_ne (Ne.symm hid) hd'))
        ((hc.other hid).trans hm) hk hj' hh'

theorem shape (hc : Content c P g g' n m m' D) (h : Shaped c g) : Shaped c g' where
  wellFormed id j hj := by
    rw [hc.size]
    rcases hc.children_cases hj with ⟨-, k, hk⟩ | ⟨-, hj⟩
    · exact hc.lt_size h hk
    · exact h.wellFormed id j hj
  root := hc.grows.mapping _ h.root
  notHit := hc.nodeLimitHit.trans h.notHit
  loaded d hd := hc.grows.mapping d (h.loaded d (hc.loaded ▸ hd))
  agenda id hid := hc.size ▸ h.agenda id (hc.agenda ▸ hid)
  done id hid := by
    rw [hc.size]
    rcases (hc.done id).mp hid with hd | ⟨rfl, -⟩
    · exact h.done id hd
    · exact lt_size_of_mapping? hc.before
  visited id hid := (hc.done id).mpr (((hc.visited id).mp hid).imp_left (h.visited id))
  active := hc.active
  made id m₀ hd hid hm := by
    rcases hc.mapping_cases hm with ⟨rfl, rfl⟩ | ⟨hne, hm⟩
    · exact hc.made hd hid
    · exact h.made id m₀ (hc.done_of_ne hne hd) (fun hv => hid ((hc.visited id).mpr (.inl hv))) hm
  resolved id m₀ hd hm hext := by
    rcases hc.mapping_cases hm with ⟨rfl, rfl⟩ | ⟨hne, hm⟩
    · exact hc.resolved hd hext
    · exact hc.passed (h.resolved id m₀ (hc.done_of_ne hne hd) hm hext)
  held id hid := by
    by_cases hne : n = id
    · subst hne
      exact ⟨m', hc.self, hc.external hid⟩
    · rw [hc.other hne]
      exact h.held id ((hc.held id).mp hid).1
  marked id hid := by
    by_cases hne : n = id
    · subst hne
      exact ⟨m', hc.self, hc.firm (hc.marked _ hid)⟩
    · obtain ⟨m₀, hm, hf⟩ := h.marked id (hc.marked id hid)
      exact ⟨m₀, (hc.other hne).trans hm, hc.stays hf⟩

theorem cover (hc : Content c P g g' n m m' D) (hs : Shaped c g) (h : Covers c g) :
    Covers c g' := by
  refine h.step hs hc.grows (hc.carry _) (fun d hd => .inl (hc.loaded ▸ hd))
    (fun id j hd hj => ?_) fun id m₀ j hid hm hk _ => ?_
  · rcases hc.children_cases hj with ⟨rfl, k, hk⟩ | ⟨hne, hj⟩
    · rcases hc.covered k j hk with ⟨hD, k', hk'⟩ | hcov
      · refine .inl ⟨((hc.done id).mp hd).resolve_right fun h => hD h.2, ?_⟩
        exact (mem_children_iff hc.before).mpr ⟨k', hk'⟩
      · exact .inr (hc.carry j (hc.lt_size hs hk) hcov)
    · exact .inl ⟨hc.done_of_ne hne hd, hj⟩
  · have hheld := ((hc.held id).mp hid).1
    rcases hc.mapping_cases hm with ⟨rfl, rfl⟩ | ⟨hne, hm⟩
    · rcases hc.mark hid j hk with hold | hcov
      · exact .inl ⟨hheld, m, hc.before, hold⟩
      · exact .inr (hc.carry j (hc.lt_size hs hk) hcov)
    · exact .inl ⟨hheld, m₀, hm, hk⟩

theorem scope (hc : Content c P g g' n m m' D) (h : Scoped c P g) : Scoped c P g' := by
  refine h.step hc.grows (fun id j _ hj => ?_) (fun id hid => .inl (hc.agenda ▸ hid))
    (fun id hid => .inl ((hc.held id).mp hid).1) fun d hd => .inl (hc.loaded ▸ hd)
  rcases hc.children_cases hj with ⟨rfl, k, hk⟩ | ⟨-, hj⟩
  · rcases hc.new k j hk with ⟨k', hk'⟩ | ⟨-, hp⟩
    · exact .inl ((mem_children_iff hc.before).mpr ⟨k', hk'⟩)
    · exact .inr hp
  · exact .inl hj

end Content

theorem Inv.set (h : Inv c P g) {D : Prop} (hc : Content c P g g' n m m' D) : Inv c P g' :=
  ⟨hc.shape h.shape, hc.cover h.shape h.cover, hc.scope h.scope⟩

end Set

section Content

variable {n : NodeId} {m : Entries}

-- A node under the mark counts as what stood there did.
theorem Stage.Passed.insert {k : Key} {j : NodeId} (h : g.Passed m)
    (hmark : (k == .str circularRefKey) = true → m.get? k = none ∨ g.Full j) :
    g.Passed (m.insert k (.node j)) := by
  obtain ⟨v, hv, hcounts⟩ := h
  cases hkey : k == .str circularRefKey with
  | true =>
      obtain ⟨e, he, hfull⟩ := (hmark hkey).resolve_left (by
        rw [OrderedMap.get?_congr hkey, hv]
        exact Option.some_ne_none v)
      refine ⟨.node j, (OrderedMap.get?_insert _ _ _ _).trans (if_pos hkey), .inl ?_⟩
      simp [isTruthy_of_mapping? he, hfull]
  | false =>
      refine ⟨v, (OrderedMap.get?_insert _ _ _ _).trans ?_, hcounts⟩
      rw [hkey]
      exact hv

theorem Stage.Firm.insert {k : Key} {j : NodeId} (h : g.Firm m)
    (hmark : (k == .str circularRefKey) = true → m.get? k = none ∨ (g.done j ∧ g.Full j)) :
    g.Firm (m.insert k (.node j)) := by
  cases hkey : k == .str circularRefKey with
  | true =>
      have hsome : m.get? k ≠ none := by
        rw [OrderedMap.get?_congr hkey]
        rcases h with hv | ⟨_, _, hv, -⟩ <;> exact hv ▸ Option.some_ne_none _
      obtain ⟨hd, e, he, hfull⟩ := (hmark hkey).resolve_left hsome
      exact .inr ⟨j, e, (OrderedMap.get?_insert _ _ _ _).trans (if_pos hkey), hd, he, hfull⟩
  | false =>
      have hsame : (m.insert k (.node j)).get? (.str circularRefKey) =
          m.get? (.str circularRefKey) := by
        rw [OrderedMap.get?_insert, hkey]
        rfl
      unfold Stage.Firm
      rwa [hsame]

theorem Stage.Firm.inlined {content : Entries} {name : Option String} (h : g.Firm m) :
    g.Firm (inlinedContent content (m.erase (.str refKey)) name) :=
  h.imp (get?_inlinedContent_of_some (by decide)) fun ⟨i, e, hv, hrest⟩ =>
    ⟨i, e, get?_inlinedContent_of_some (by decide) hv, hrest⟩

-- A node is bound under a key of a mapping where no mapping stood, and no reference.
theorem Inv.put (h : Inv c P g) {k : Key} {j : NodeId} (hm : g.store.mapping? n = some m)
    (hj : (g.store.mapping? j).isSome) (hcov : g.Covered j) (hp : P j)
    (hold : ∀ i, m.get? k = some (.node i) → g.store.mapping? i = none)
    (href : (k == .str refKey) = true → m.ref? = none)
    (hmark : (k == .str circularRefKey) = true → m.get? k = none ∨
      (g.done j ∧ (g.store.entries j).isEmpty = false)) :
    ∃ g' : Stage, g' = { g with run := { g.run with store := g.store.put n k (.node j) } } ∧
      Inv c P g' ∧ Carries g g' := by
  let g' : Stage := { g with run := { g.run with store := g.store.put n k (.node j) } }
  obtain ⟨mj, hmj⟩ := Option.isSome_iff_exists.mp hj
  have hstore : g'.store = g.store.set n (.mapping (m.insert k (.node j))) :=
    put_of_mapping? hm _ _
  have hne : (m.insert k (.node j)).isEmpty = false :=
    OrderedMap.isEmpty_eq_false_of_get? ((OrderedMap.get?_insert _ _ _ _).trans (if_pos BEq.rfl))
  have hbound (hkey : (k == .str circularRefKey) = true) :
      m.get? k = none ∨ (g'.done j ∧ g'.Full j) := by
    refine (hmark hkey).imp_right fun ⟨hd, hfull⟩ => ⟨hd, ?_⟩
    rw [entries_of_mapping? hmj] at hfull
    refine (Stage.Full.set ⟨mj, hmj, hfull⟩ hm hstore).resolve_right fun hempty => ?_
    exact Bool.false_ne_true (hne.symm.trans hempty.2.2)
  suffices hc : Content c P g g' n m (m.insert k (.node j)) False from ⟨g', rfl, h.set hc, hc.carry⟩
  exact
    { before := hm
      store := hstore
      loaded := rfl
      nodeLimitHit := rfl
      agenda := rfl
      done := by simp [g']
      visited := by simp [g']
      held := by simp [g', Stage.Held, Stage.Marked]
      marked := fun _ => id
      inlined := fun _ => id
      full := fun _ => .inl hne
      kept := fun _ k' i hk hi _ => by
        rw [OrderedMap.get?_insert, if_neg, hk]
        intro hkey
        rw [hold i ((OrderedMap.get?_congr hkey).trans hk)] at hi
        cases hi
      walked := False.elim
      new := fun k' i hk => by
        rcases node_of_get?_insert hk with rfl | hk
        · exact .inr ⟨lt_size_of_mapping? hmj, hp⟩
        · exact .inl ⟨k', hk⟩
      covered := fun k' i hk => by
        rcases node_of_get?_insert hk with rfl | hk
        · exact .inr hcov
        · exact .inl ⟨not_false, k', hk⟩
      active := h.shape.active
      made := fun hd hv => by
        rw [ref?_insert_node, h.shape.made n m hd hv hm, ite_self]
      resolved := fun hd hext => by
        have hpassed := h.shape.resolved n m hd hm (isExternalRef_insert_node.mp hext).2
        exact Stage.Passed.insert (hpassed.set hm hstore (fun _ => id) fun _ => .inl hne)
          fun hkey => (hbound hkey).imp_right And.right
      external := fun hheld => by
        have hext := h.shape.isExternalRef_of_held hheld hm
        exact isExternalRef_insert_node.mpr
          ⟨Bool.eq_false_iff.mpr fun hkey => not_isExternalRef (href hkey) hext, hext⟩
      firm := fun hmarked => by
        have hfirm := h.shape.firm_of_marked hmarked hm
        exact Stage.Firm.insert (hfirm.set hm hstore (fun _ => id) fun _ => .inl hne) hbound
      mark := fun _ i hk => by
        rcases node_of_get?_insert hk with rfl | hk
        · exact .inr hcov
        · exact .inl hk }

-- A held reference is marked.
theorem Inv.setMark (h : Inv c P g) (hheld : g.Held n) (hm : g.store.mapping? n = some m)
    (name : Option String) :
    Inv c P { g with
      run := { g.run with store := g.store.set n (.mapping (markedContent m name)) } } := by
  have hext : isExternalRef (markedContent m name) :=
    (isExternalRef_congr (get?_markedContent_refKey name)).trans
      (h.shape.isExternalRef_of_held hheld hm)
  have hcirc := get?_markedContent_circularRefKey (m := m) name
  suffices hc : Content c P g _ n m (markedContent m name) False from h.set hc
  exact
    { before := hm
      store := rfl
      loaded := rfl
      nodeLimitHit := rfl
      agenda := rfl
      done := by simp
      visited := by simp
      held := by simp [Stage.Held, Stage.Marked]
      marked := fun _ => id
      inlined := fun _ => id
      full := fun _ => .inl (OrderedMap.isEmpty_eq_false_of_get? hcirc)
      kept := fun _ k j hk _ hh => get?_markedContent_node.mpr ⟨hk, BEq.comm.trans (hh hheld)⟩
      walked := False.elim
      new := fun k j hk => .inl ⟨k, (get?_markedContent_node.mp hk).1⟩
      covered := fun k j hk => .inl ⟨not_false, k, (get?_markedContent_node.mp hk).1⟩
      active := h.shape.active
      made := fun hd _ => absurd hd (h.shape.not_done hheld)
      resolved := fun _ _ => ⟨_, hcirc, .inl rfl⟩
      external := fun _ => hext
      firm := fun _ => .inl hcirc
      mark := fun _ j hk => by
        rw [hcirc] at hk
        cases hk }

-- The innermost reference takes the content of a target that is done; what it had besides is on the
-- agenda.
theorem Inv.inline (h : Inv c P g) {chain : Chain} {l : Link} {t : NodeId} {content : Entries}
    (ref : String) (hchain : g.chain = l :: chain) (houter : chain.hasNode l.node = false)
    (hheld : g.Held l.node)
    (hm : g.store.mapping? l.node = some m) (ht : g.done t) (hp : P t)
    (hcontent : g.store.mapping? t = some content)
    (hown : ∀ v ∈ (m.erase (.str refKey)).values, v ∈ g.agenda) (name : Option String) :
    Inv c P { g with
      run := { g.run with
        store := g.store.set l.node
          (.mapping (inlinedContent content (m.erase (.str refKey)) name))
        visited := l.node :: g.run.visited
        events := g.run.events ++ [.inlined l.node t ref] }
      chain
      done := fun id => g.done id ∨ id = l.node } := by
  let g' : Stage := { g with
    run := { g.run with
      store := g.store.set l.node (.mapping (inlinedContent content (m.erase (.str refKey)) name))
      visited := l.node :: g.run.visited
      events := g.run.events ++ [.inlined l.node t ref] }
    chain
    done := fun id => g.done id ∨ id = l.node }
  have hmarked (id : NodeId) : g'.Marked id ↔ g.Marked id := by simp [g', Stage.Marked]
  have hdue {k : Key} {j : NodeId} (hk : m.get? k = some (.node j)) : .node j ∈ g.agenda :=
    hown _ (mem_own_of_get? (h.shape.isExternalRef_of_held hheld hm) hk)
  have hnew {k : Key} {j : NodeId}
      (hk : (inlinedContent content (m.erase (.str refKey)) name).get? k = some (.node j)) :
      m.get? k = some (.node j) ∨ .node j ∈ g.store.children t :=
    (node_of_get?_inlinedContent hk).imp get?_of_get?_erase_refKey fun hk =>
      (mem_children_iff hcontent).mpr ⟨k, hk⟩
  have hvisited (hheld' : g'.Held l.node) : False := hheld'.2 List.mem_cons_self
  suffices hc : Content c P g g' l.node m (inlinedContent content (m.erase (.str refKey)) name) True
    from h.set hc
  refine
    { before := hm
      store := rfl
      loaded := rfl
      nodeLimitHit := rfl
      agenda := rfl
      done := by simp [g']
      visited := by simp [g', or_comm]
      held := fun id => ?_
      marked := fun id => (hmarked id).mp
      inlined := fun _ ⟨t, ref, hin⟩ => ⟨t, ref, List.mem_append_left _ hin⟩
      full := fun _ => .inr ⟨h.shape.not_done hheld, t, ref,
        List.mem_append_right _ List.mem_cons_self⟩
      kept := fun hd => absurd (.inr rfl) hd
      walked := fun _ _ _ hk _ => hdue hk
      new := fun k j hk => (hnew hk).imp (fun hk => ⟨k, hk⟩) fun hj =>
        ⟨h.shape.wellFormed t j hj, h.scope.closed t j hp hj⟩
      covered := fun k j hk => .inr ((hnew hk).elim (fun hk => Stage.covered_of_task (hdue hk))
        (h.cover.closed t j ht))
      active := fun id hid hv => ?_
      made := fun _ _ => ref?_inlinedContent
      resolved := fun _ hext => absurd hext (not_isExternalRef ref?_inlinedContent)
      external := fun hheld' => (hvisited hheld').elim
      firm := fun hm' => Stage.Firm.inlined ((h.shape.firm_of_marked hm' hm).set hm rfl
        (fun _ => .inl) fun _ => .inr (h.shape.not_done hheld))
      mark := fun hheld' => (hvisited hheld').elim }
  · have hactive : g.chain.hasNode id = true ↔ l.node = id ∨ chain.hasNode id = true := by
      rw [hchain, Chain.hasNode_cons]
    simp only [Stage.Held, hmarked, hactive]
    by_cases hid : id = l.node
    · simp [g', hid]
    · simp [g', hid, Ne.symm hid]
  · rcases List.mem_cons.mp hv with rfl | hv
    · exact Bool.eq_false_iff.mp houter hid
    · exact h.shape.active id (hchain ▸ Chain.hasNode_cons.mpr (.inr hid)) hv

end Content

end ApiGraph.Resolve
