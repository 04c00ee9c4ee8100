import ApiGraph.Proofs.Resolve.Growth

namespace ApiGraph.Resolve

open Store Reference

-- A state of the run between two steps.
structure Stage where
  run : Run
  chain : Chain
  agenda : List Value
  done : NodeId → Prop

namespace Stage

def store (g : Stage) : Store := g.run.store

-- The run marked the node as a reference that closes a cycle.
def Marked (g : Stage) (id : NodeId) : Prop := ∃ ref, .circular id ref ∈ g.run.events

-- A reference that is being resolved or that was marked: what stands beside it is not walked yet.
def Held (g : Stage) (id : NodeId) : Prop :=
  (g.chain.hasNode id = true ∨ g.Marked id) ∧ id ∉ g.run.visited

-- What the callers still have to walk, what a reference holds back, and what stands in something
-- that is due.
inductive Due (g : Stage) : NodeId → Prop
  | task {id : NodeId} (h : .node id ∈ g.agenda) : Due g id
  | held {id : NodeId} (h : g.Held id) : Due g id
  | child {id j : NodeId} {m : Entries} {k : Key} (h : Due g id) (hid : ¬g.done id)
      (hm : g.store.mapping? id = some m) (hk : m.get? k = some (.node j))
      (hj : (g.store.mapping? j).isSome)
      (hheld : g.Held id → (k == .str circularRefKey) = false) : Due g j

def Covered (g : Stage) (id : NodeId) : Prop := g.done id ∨ g.store.IsLeaf id ∨ g.Due id

def Inlined (g : Stage) (id : NodeId) : Prop := ∃ target ref, .inlined id target ref ∈ g.run.events

-- The walk passes a reference by for what stands under the mark: that still counts, or it is a mapping
-- that was a reference itself.
def Passed (g : Stage) (m : Entries) : Prop :=
  ∃ v, m.get? (.str circularRefKey) = some v ∧
    (g.store.isTruthy v = true ∨ ∃ id, v = .node id ∧ (g.store.mapping? id).isSome ∧ g.Inlined id)

-- What stands under the mark counts, and no reference can take it away.
def Firm (g : Stage) (m : Entries) : Prop :=
  m.get? (.str circularRefKey) = some (.scalar (.bool true)) ∨
    ∃ id n, m.get? (.str circularRefKey) = some (.node id) ∧ g.done id ∧
      g.store.mapping? id = some n ∧ n.isEmpty = false

theorem covered_of_task {g : Stage} {id : NodeId} (h : .node id ∈ g.agenda) : g.Covered id :=
  .inr (.inr (.task h))

theorem covered_of_held {g : Stage} {id : NodeId} (h : g.Held id) : g.Covered id :=
  .inr (.inr (.held h))

-- What stands in a mapping that is not done is due with it.
theorem Covered.child {g : Stage} {id j : NodeId} {m : Entries} {k : Key} (h : g.Covered id)
    (hid : ¬g.done id) (hm : g.store.mapping? id = some m) (hk : m.get? k = some (.node j))
    (hj : (g.store.mapping? j).isSome)
    (hheld : g.Held id → (k == .str circularRefKey) = false) : g.Covered j := by
  rcases h with hd | hleaf | hdue
  · exact absurd hd hid
  · rw [hleaf.1] at hm
    cases hm
  · exact .inr (.inr (.child hdue hid hm hk hj hheld))

-- A step keeps all covered if it keeps the reasons for it.
theorem Covered.transfer {g g' : Stage} (hg : g.store.Grows g'.store)
    (htask : ∀ id, .node id ∈ g.agenda → g'.Covered id)
    (hheld : ∀ id, g.Held id → g'.Covered id)
    (hdone : ∀ id, g.done id → g'.done id)
    (hedge : ∀ id m k j, ¬g.done id → g.store.mapping? id = some m → m.get? k = some (.node j) →
      (g.store.mapping? j).isSome → (g.Held id → (k == .str circularRefKey) = false) →
      g'.Covered id → g'.Covered j)
    {id : Nat} (hid : id < g.store.nodes.size) (h : g.Covered id) : g'.Covered id := by
  rcases h with hd | hleaf | hdue
  · exact .inl (hdone id hd)
  · exact .inr (.inl (hleaf.mono hid hg))
  · clear hid
    induction hdue with
    | task h => exact htask _ h
    | held h => exact hheld _ h
    | child _ hid hm hk hj hh ih => exact hedge _ _ _ _ hid hm hk hj hh ih

-- A mapping that counts does so as long as it is not inlined.
theorem Passed.transfer {g g' : Stage} {m : Entries} (h : g.Passed m)
    (hg : g.store.Grows g'.store) (hinlined : ∀ id, g.Inlined id → g'.Inlined id)
    (hfull : ∀ id n, g.store.mapping? id = some n → n.isEmpty = false →
      (∃ n', g'.store.mapping? id = some n' ∧ n'.isEmpty = false) ∨ g'.Inlined id) :
    g'.Passed m := by
  obtain ⟨v, hv, h⟩ := h
  refine ⟨v, hv, ?_⟩
  rcases h with htruthy | ⟨id, rfl, hm, hin⟩
  · cases v with
    | scalar x => exact .inl htruthy
    | pair a b => exact .inl htruthy
    | node id =>
        cases hm : g.store.mapping? id with
        | none => exact .inl (hg.isTruthy hm htruthy)
        | some n =>
            have hn : n.isEmpty = false := by simpa [isTruthy_of_mapping? hm] using htruthy
            rcases hfull id n hm hn with ⟨n', hm', hn'⟩ | hin
            · exact .inl (by simp [isTruthy_of_mapping? hm', hn'])
            · exact .inr ⟨id, rfl, hg.mapping id (by simp [hm]), hin⟩
  · exact .inr ⟨id, rfl, hg.mapping id hm, hinlined id hin⟩

theorem Firm.transfer {g g' : Stage} {m : Entries} (h : g.Firm m)
    (hdone : ∀ id, g.done id → g'.done id)
    (hfull : ∀ id n, g.done id → g.store.mapping? id = some n → n.isEmpty = false →
      ∃ n', g'.store.mapping? id = some n' ∧ n'.isEmpty = false) : g'.Firm m := by
  rcases h with h | ⟨id, n, hk, hd, hm, hn⟩
  · exact .inl h
  · obtain ⟨n', hm', hn'⟩ := hfull id n hd hm hn
    exact .inr ⟨id, n', hk, hdone id hd, hm', hn'⟩

end Stage

-- How the state is made up.
structure Shaped (c : Context) (g : Stage) : Prop where
  wellFormed : g.store.WellFormed
  root : HasRoot c g.run
  notHit : g.run.nodeLimitHit = false
  loaded : ∀ d ∈ g.run.loaded.values, (g.store.mapping? d).isSome
  agenda : ∀ id : Nat, .node id ∈ g.agenda → id < g.store.nodes.size
  done : ∀ id : Nat, g.done id → id < g.store.nodes.size
  visited : ∀ id ∈ g.run.visited, g.done id
  active : ∀ id, g.chain.hasNode id = true → id ∉ g.run.visited
  made : ∀ id m, g.done id → id ∉ g.run.visited → g.store.mapping? id = some m → m.ref? = none
  resolved : ∀ id m, g.done id → g.store.mapping? id = some m → isExternalRef m → g.Passed m
  held : ∀ id, g.Held id → ∃ m, g.store.mapping? id = some m ∧ isExternalRef m
  marked : ∀ id, g.Marked id → ∃ m, g.store.mapping? id = some m ∧ g.Firm m

-- A reference that is held back is not done.
theorem Shaped.not_done {c : Context} {g : Stage} (h : Shaped c g) {id : NodeId}
    (hid : g.Held id) : ¬g.done id := by
  intro hd
  obtain ⟨m, hm, hext⟩ := h.held id hid
  exact not_isExternalRef (h.made id m hd hid.2 hm) hext

theorem Shaped.isExternalRef_of_held {c : Context} {g : Stage} (h : Shaped c g) {id : NodeId}
    (hid : g.Held id) {m : Entries} (hm : g.store.mapping? id = some m) : isExternalRef m := by
  obtain ⟨m₀, hm₀, hext⟩ := h.held id hid
  obtain rfl : m = m₀ := Option.some.inj (hm.symm.trans hm₀)
  exact hext

theorem Shaped.firm_of_marked {c : Context} {g : Stage} (h : Shaped c g) {id : NodeId}
    (hid : g.Marked id) {m : Entries} (hm : g.store.mapping? id = some m) : g.Firm m := by
  obtain ⟨m₀, hm₀, hfirm⟩ := h.marked id hid
  obtain rfl : m = m₀ := Option.some.inj (hm.symm.trans hm₀)
  exact hfirm

-- What is covered. The value under the mark of a held reference is covered by another way.
structure Covers (c : Context) (g : Stage) : Prop where
  root : g.Covered c.document
  loaded : ∀ d ∈ g.run.loaded.values, g.Covered d
  closed : ∀ id j, g.done id → .node j ∈ g.store.children id → g.Covered j
  mark : ∀ id m j, g.Held id → g.store.mapping? id = some m →
    m.get? (.str circularRefKey) = some (.node j) → (g.store.mapping? j).isSome → g.Covered j

-- The run stays among the nodes of `P`: those of the root document, and all that it makes.
structure Scoped (c : Context) (P : NodeId → Prop) (g : Stage) : Prop where
  new : ∀ id : Nat, g.store.nodes.size ≤ id → P id
  closed : ∀ id j, P id → .node j ∈ g.store.children id → P j
  agenda : ∀ id, .node id ∈ g.agenda → P id
  held : ∀ id, g.Held id → P id
  root : P c.document
  loaded : ∀ d ∈ g.run.loaded.values, P d

theorem Scoped.reach {c : Context} {P : NodeId → Prop} {g : Stage} (h : Scoped c P g) {id : NodeId}
    (hid : g.store.Reach c.document id) : P id := by
  induction hid with
  | refl => exact h.root
  | step _ hj ih => exact h.closed _ _ ih hj

structure Inv (c : Context) (P : NodeId → Prop) (g : Stage) : Prop where
  shape : Shaped c g
  cover : Covers c g
  scope : Scoped c P g

section Lookup

-- A component stands under three keys in mappings.
theorem componentIn?_eq_some_iff {s : Store} {document id : NodeId} {kind name : String} :
    componentIn? s document kind name = some id ↔
      ∃ p mp q mq mi, s.fieldMapping? document "components" = some (p, mp) ∧
        s.fieldMapping? p kind = some (q, mq) ∧ s.fieldMapping? q name = some (id, mi) := by
  unfold componentIn?
  simp only [Option.bind_eq_bind, Option.bind_eq_some_iff, Option.pure_def, Prod.exists,
    Option.some.injEq, components?_eq_some]
  constructor
  · rintro ⟨q, mq, ⟨p, mp, hp, hq⟩, v, hv, i, mi, hi, rfl⟩
    obtain ⟨rfl, hmi⟩ := asMapping?_eq_some.mp hi
    refine ⟨p, mp, q, mq, mi, hp, hq, fieldMapping?_eq_some.mpr ⟨?_, hmi⟩⟩
    rw [entries_of_mapping? (fieldMapping?_eq_some.mp hq).2]
    exact hv
  · rintro ⟨p, mp, q, mq, mi, hp, hq, hi⟩
    obtain ⟨hv, hmi⟩ := fieldMapping?_eq_some.mp hi
    rw [entries_of_mapping? (fieldMapping?_eq_some.mp hq).2] at hv
    exact ⟨q, mq, ⟨p, mp, hp, hq⟩, _, hv, id, mi, asMapping?_eq_some.mpr ⟨rfl, hmi⟩, rfl⟩

theorem componentIn?_eq_some {s : Store} {d id : NodeId} {kind name : String}
    (h : componentIn? s d kind name = some id) :
    ∃ p q md mp mq mi, s.mapping? d = some md ∧ md.get? (.str "components") = some (.node p) ∧
      s.mapping? p = some mp ∧ mp.get? (.str kind) = some (.node q) ∧
      s.mapping? q = some mq ∧ mq.get? (.str name) = some (.node id) ∧
      s.mapping? id = some mi := by
  obtain ⟨p, mp, q, mq, mi, hp, hq, hi⟩ := componentIn?_eq_some_iff.mp h
  obtain ⟨md, hmd, hp'⟩ := mapping?_of_fieldMapping? hp
  obtain ⟨mp', hmp, hq'⟩ := mapping?_of_fieldMapping? hq
  obtain ⟨mq', hmq, hi'⟩ := mapping?_of_fieldMapping? hi
  exact ⟨p, q, md, mp', mq', mi, hmd, hp', hmp, hq', hmq, hi', (fieldMapping?_eq_some.mp hi).2⟩

theorem reach_of_componentIn? {s : Store} {d id : NodeId} {kind name : String}
    (h : componentIn? s d kind name = some id) : s.Reach d id := by
  obtain ⟨p, q, md, mp, mq, mi, hmd, hp, hmp, hq, hmq, hid, -⟩ := componentIn?_eq_some h
  have hfirst : s.Reach d p := .step .refl ((mem_children_iff hmd).mpr ⟨_, hp⟩)
  have hsecond : s.Reach d q := hfirst.step ((mem_children_iff hmp).mpr ⟨_, hq⟩)
  exact hsecond.step ((mem_children_iff hmq).mpr ⟨_, hid⟩)

variable {c : Context} {P : NodeId → Prop} {g : Stage}

-- The nodes that a covered mapping holds are covered.
theorem Covers.child (h : Covers c g) {id j : NodeId} {m : Entries} {k : Key}
    (hid : g.Covered id) (hm : g.store.mapping? id = some m) (hk : m.get? k = some (.node j))
    (hj : (g.store.mapping? j).isSome) : g.Covered j := by
  by_cases hd : g.done id
  · exact h.closed id j hd ((mem_children_iff hm).mpr ⟨k, hk⟩)
  · by_cases hheld : g.Held id ∧ (k == .str circularRefKey) = true
    · refine h.mark id m j hheld.1 hm ?_ hj
      rw [← hk]
      exact (OrderedMap.get?_congr hheld.2).symm
    · refine hid.child hd hm hk hj fun hh => ?_
      cases hkey : k == .str circularRefKey with
      | false => rfl
      | true => exact absurd ⟨hh, hkey⟩ hheld

-- So are the components of a document that is covered.
theorem Covers.component (h : Covers c g) {d id : NodeId} {kind name : String}
    (hd : g.Covered d) (hid : componentIn? g.store d kind name = some id) :
    g.Covered id ∧ (g.store.mapping? id).isSome := by
  obtain ⟨p, q, md, mp, mq, mi, hmd, hp, hmp, hq, hmq, hi, hmi⟩ := componentIn?_eq_some hid
  have hcp := h.child hd hmd hp (by simp [hmp])
  have hcq := h.child hcp hmp hq (by simp [hmq])
  exact ⟨h.child hcq hmq hi (by simp [hmi]), by simp [hmi]⟩

theorem Scoped.component (h : Scoped c P g) {d id : NodeId} {kind name : String}
    (hd : P d) (hid : componentIn? g.store d kind name = some id) : P id := by
  obtain ⟨p, q, md, mp, mq, mi, hmd, hp, hmp, hq, hmq, hi, -⟩ := componentIn?_eq_some hid
  have hpp := h.closed d p hd ((mem_children_iff hmd).mpr ⟨_, hp⟩)
  have hpq := h.closed p q hpp ((mem_children_iff hmp).mpr ⟨_, hq⟩)
  exact h.closed q id hpq ((mem_children_iff hmq).mpr ⟨_, hi⟩)

end Lookup

end ApiGraph.Resolve
