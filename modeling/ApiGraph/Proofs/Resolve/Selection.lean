import ApiGraph.Proofs.Reference.Segments
import ApiGraph.Proofs.Resolve.Growth

namespace ApiGraph.Resolve

open Reference

-- Where the pointer of the reference names a value of the file, this value is the target.
def Selects (ref : String) : Prop :=
  ∀ (c : Context) (r : Run) (external : NodeId) (t : Value),
    Reference.resolve r.store (.node external) (pointerPart ref) = .ok t →
      Ensures (targetOf c external (segments (pointerPart ref)) ref) r
        (fun v r' => v = t ∧ r' = r) fun _ _ => False

theorem selects_of_isPlain {ref : String}
    (h : ∀ segment ∈ segments (pointerPart ref), IsPlain segment) : Selects ref := by
  intro c r external t ht
  unfold targetOf
  unfold Reference.resolve at ht
  split
  next hempty =>
    rw [List.isEmpty_iff.mp hempty] at ht
    obtain rfl : Value.node external = t := Except.ok.inj ht
    exact ensures_pure.mpr ⟨rfl, rfl⟩
  next =>
    rw [ensures_bind, ensures_get]
    unfold Reference.resolve
    rw [segments_joinSegments h, ht]
    exact ensures_pure.mpr ⟨rfl, rfl⟩

section Ladder

variable {path rest : List String} {v : Value}

-- The mapping at the top of a ladder: it holds the next lower one under the first segment.
def rung : List String → Container
  | [] => .ofFields []
  | segment :: rest => .ofFields [(segment, .node rest.length)]

-- A mapping for each end of the path, the shorter ones first.
def ladder : List String → List Container
  | [] => [rung []]
  | segment :: rest => ladder rest ++ [rung (segment :: rest)]

theorem length_ladder (path : List String) : (ladder path).length = path.length + 1 := by
  induction path with
  | nil => rfl
  | cons segment rest ih => simp [ladder, ih]

theorem getElem?_ladder (h : rest <:+ path) : (ladder path)[rest.length]? = some (rung rest) := by
  have hself (l : List String) : (ladder l)[l.length]? = some (rung l) := by
    cases l with
    | nil => rfl
    | cons segment tail =>
        rw [ladder, List.getElem?_append_right (by simp [length_ladder])]
        simp [length_ladder]
  induction path with
  | nil =>
      obtain rfl := List.suffix_nil.mp h
      exact hself []
  | cons segment tail ih =>
      rcases List.suffix_cons_iff.mp h with rfl | htail
      · exact hself _
      · have hlength := htail.length_le
        rw [ladder, List.getElem?_append_left (by simp only [length_ladder]; omega)]
        exact ih htail

-- The document whose only values are those on the path.
def ladderStore (path : List String) : Store := ⟨(ladder path).toArray⟩

theorem step_ladderStore {segment : String} (h : rest <:+ path) :
    step (ladderStore path) (.node rest.length) segment = .ok v ↔
      ∃ tail, rest = segment :: tail ∧ v = .node tail.length := by
  have hget : (ladderStore path).get? rest.length = some (rung rest) := by
    simpa [ladderStore, Store.get?] using getElem?_ladder h
  cases rest with
  | nil =>
      have hget : (ladderStore path).get? 0 = some (.mapping .empty) := hget
      simp [step, hget, OrderedMap.get?]
  | cons first tail =>
      have hget : (ladderStore path).get? (first :: tail).length =
          some (.mapping (OrderedMap.empty.insert (.str first) (.node tail.length))) := hget
      simp only [step, hget, OrderedMap.get?_insert]
      by_cases hsegment : first = segment
      · rw [if_pos (Key.str_beq.mpr hsegment)]
        simp [hsegment, eq_comm]
      · rw [if_neg fun h => hsegment (Key.str_beq.mp h)]
        simp [hsegment, OrderedMap.get?]

-- Only the starts of the path lead anywhere.
theorem follow_ladderStore {start : List String} (h : rest <:+ path) :
    follow (ladderStore path) (.node rest.length) start = .ok v ↔
      ∃ tail, rest = start ++ tail ∧ v = .node tail.length := by
  induction start generalizing rest with
  | nil =>
      simp only [follow, List.foldlM_nil, List.nil_append]
      constructor
      · intro hv
        exact ⟨rest, rfl, (Except.ok.inj hv).symm⟩
      · rintro ⟨tail, rfl, rfl⟩
        rfl
  | cons segment start ih =>
      have hcons : follow (ladderStore path) (.node rest.length) (segment :: start) =
          step (ladderStore path) (.node rest.length) segment >>= fun v =>
            follow (ladderStore path) v start := by
        simp [follow]
      rw [hcons]
      constructor
      · intro hv
        cases hstep : step (ladderStore path) (.node rest.length) segment with
        | error e =>
            rw [hstep] at hv
            cases hv
        | ok w =>
            obtain ⟨tail, rfl, rfl⟩ := (step_ladderStore h).mp hstep
            rw [hstep] at hv
            obtain ⟨tail', rfl, rfl⟩ := (ih ((List.suffix_cons _ _).trans h)).mp hv
            exact ⟨tail', rfl, rfl⟩
      · rintro ⟨tail, rfl, rfl⟩
        rw [(step_ladderStore h).mpr ⟨start ++ tail, rfl, rfl⟩]
        exact (ih ((List.suffix_cons _ _).trans h)).mpr ⟨tail, rfl, rfl⟩

end Ladder

-- A run that has loaded nothing, so that no other file answers for the one that is asked.
def soleRun (s : Store) : Run := ⟨s, .empty, [], [], 0, false, [], []⟩

theorem findLoaded?_soleRun (c : Context) (s : Store) (excluded : Option NodeId)
    (path : List String) : findLoaded? c (soleRun s) excluded path = none := by
  unfold findLoaded?
  cases component? path with
  | none => rfl
  | some e => rfl

-- The joined segments have to select the value at the end of the path, so they are the path.
theorem segments_joinSegments_of_selects {ref : String} (h : Selects ref) :
    segments (joinSegments (segments (pointerPart ref))) = segments (pointerPart ref) := by
  generalize hpath : segments (pointerPart ref) = path
  have hend : Reference.resolve (ladderStore path) (.node path.length) (pointerPart ref) =
      .ok (.node 0) := by
    unfold Reference.resolve
    rw [hpath]
    exact (follow_ladderStore (List.suffix_refl path)).mpr ⟨[], by simp, rfl⟩
  have hselects := h ⟨0, ⟨default, none, [], 0, 0⟩, {}⟩ (soleRun (ladderStore path)) path.length
    (.node 0) hend
  rw [hpath] at hselects
  unfold targetOf at hselects
  split at hselects
  next hempty =>
    rw [List.isEmpty_iff.mp hempty]
    rfl
  next =>
    rw [ensures_bind, ensures_get] at hselects
    split at hselects
    next v hv =>
      obtain ⟨rfl, -⟩ := ensures_pure.mp hselects
      obtain ⟨tail, htail, hlength⟩ := (follow_ladderStore (List.suffix_refl path)).mp hv
      obtain rfl : tail = [] := List.length_eq_zero_iff.mp (Value.node.inj hlength).symm
      rw [List.append_nil] at htail
      exact htail.symm
    next e he =>
      rw [findLoaded?_soleRun] at hselects
      exact (ensures_throw.mp hselects).elim

-- The target is what the pointer names just as long as every segment stands for itself. So a key with
-- a slash in it is never selected, however it is written in the pointer.
theorem selects_iff {ref : String} :
    Selects ref ↔ ∀ segment ∈ segments (pointerPart ref), IsPlain segment :=
  ⟨fun h => isPlain_of_segments_joinSegments (segments_joinSegments_of_selects h),
    selects_of_isPlain⟩

end ApiGraph.Resolve
