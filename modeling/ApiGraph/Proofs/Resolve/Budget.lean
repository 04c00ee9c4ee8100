import ApiGraph.Proofs.Resolve.Invariant

namespace ApiGraph.Resolve

-- What is held and what is visited are different containers, and together they were counted within
-- the bound.
structure InBudget (c : Context) (held : List NodeId) (r : Run) : Prop where
  nodup : (held ++ r.visited).Nodup
  length : held.length + r.visited.length ≤ min r.walked c.settings.maxNodes.toNat
  inlined : (inlinedNodes r.events).Sublist r.visited.reverse
  limits : nodeLimits r.limits ≤ if r.nodeLimitHit then 1 else 0

section Steps

variable {c : Context} {held : List NodeId} {id : NodeId} {r r' : Run}

theorem InBudget.uneventful (h : InBudget c held r) (hq : Uneventful r r') : InBudget c held r' := by
  refine ⟨?_, ?_, ?_, ?_⟩
  · rw [hq.visited]
    exact h.nodup
  · rw [hq.visited, hq.walked]
    exact h.length
  · rw [hq.visited, hq.inlined]
    exact h.inlined
  · rw [hq.limits, hq.hit]
    exact h.limits

theorem InBudget.drop (h : InBudget c (id :: held) r) : InBudget c held r where
  nodup := (List.nodup_cons.mp h.nodup).2
  length := by
    have hlength := h.length
    simp only [List.length_cons] at hlength
    omega
  inlined := h.inlined
  limits := h.limits

-- One more container is counted, and is held from then on.
theorem InBudget.count (h : InBudget c held r) (hheld : id ∉ held) (hvisited : id ∉ r.visited)
    (hbound : ((r.walked + 1 : Nat) : Int) ≤ c.settings.maxNodes) :
    InBudget c (id :: held) { r with walked := r.walked + 1 } where
  nodup := by simpa [hheld, hvisited] using h.nodup
  length := by
    have hlength := h.length
    simp only [List.length_cons]
    omega
  inlined := h.inlined
  limits := h.limits

theorem InBudget.countMore (h : InBudget c held r) :
    InBudget c held { r with walked := r.walked + 1 } where
  nodup := h.nodup
  length := by
    have hlength := h.length
    dsimp only
    omega
  inlined := h.inlined
  limits := h.limits

-- The first container too many is reported, and no other one is.
theorem InBudget.hitLimit (h : InBudget c held r) (hhit : r.nodeLimitHit = false) (l : SoftLimit) :
    InBudget c held { r with
      nodeLimitHit := true, limits := r.limits ++ [l],
      events := r.events ++ [.resolutionLimit l] } where
  nodup := h.nodup
  length := h.length
  inlined := by
    have hnone : inlinedNodes [.resolutionLimit l] = [] := rfl
    rw [inlinedNodes_append, hnone, List.append_nil]
    exact h.inlined
  limits := by
    have hlimits := h.limits
    have hone : nodeLimits [l] ≤ 1 := List.countP_le_length
    simp only [hhit, Bool.false_eq_true, if_false] at hlimits
    simp only [nodeLimits_append, if_true]
    omega

theorem InBudget.nodup_visit (h : InBudget c (id :: held) r) : (held ++ id :: r.visited).Nodup :=
  List.perm_middle.nodup_iff.mpr h.nodup

theorem InBudget.visit (h : InBudget c (id :: held) r) :
    InBudget c held { r with visited := id :: r.visited } where
  nodup := h.nodup_visit
  length := by
    have hlength := h.length
    simp only [List.length_cons] at hlength ⊢
    omega
  inlined := by
    rw [List.reverse_cons]
    exact h.inlined.trans (List.sublist_append_left _ _)
  limits := h.limits

-- An inlined container is logged and visited at the same time.
theorem InBudget.inline (h : InBudget c (id :: held) r) (target : NodeId) (ref : String) :
    InBudget c held { r with
      events := r.events ++ [.inlined id target ref], visited := id :: r.visited } where
  nodup := h.nodup_visit
  length := h.visit.length
  inlined := by
    rw [inlinedNodes_append, List.reverse_cons]
    exact h.inlined.append (.refl _)
  limits := h.limits

-- The log tells of something else.
theorem InBudget.log (h : InBudget c held r) {e : Event} (he : inlining? e = none) :
    InBudget c held { r with events := r.events ++ [e] } where
  nodup := h.nodup
  length := h.length
  inlined := by
    have hnone : inlinedNodes [e] = [] := by simp [inlinedNodes, he]
    rw [inlinedNodes_append, hnone, List.append_nil]
    exact h.inlined
  limits := h.limits

theorem InBudget.load (h : InBudget c held r) (s : Store) (loaded : OrderedMap String NodeId)
    (path : String) :
    InBudget c held { r with store := s, loaded, events := r.events ++ [.loaded path] } where
  nodup := h.nodup
  length := h.length
  inlined := (h.log rfl).inlined
  limits := h.limits

end Steps

theorem invariant_inBudget (c : Context) : Invariant c (InBudget c) where
  steady _ _ _ hq h := h.uneventful hq
  drop h := h.drop
  onCount hheld hvisited hbound h := h.count hheld hvisited hbound
  onCountMore h := h.countMore
  onLimit hhit h := h.hitLimit hhit _
  onMark h := h.log rfl
  onVisit h := h.visit
  onInline h := h.inline _ _
  onLoad _ _ _ h := h.load _ _ _

theorem inBudget_startRun (c : Context) (s : Store) (document : NodeId) (scope : Scope) :
    InBudget c [] (startRun s document scope) where
  nodup := .nil
  length := by simp [startRun]
  inlined := by simp [startRun, inlinedNodes]
  limits := by simp [startRun, nodeLimits]

end ApiGraph.Resolve
