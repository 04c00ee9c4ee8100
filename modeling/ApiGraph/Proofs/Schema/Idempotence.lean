import ApiGraph.Proofs.Schema.Declarations

namespace ApiGraph.Composition

section Depth

variable {s : Store} {document : Option NodeId} {maxDepth depth depth' : Int} {allowance r r' : Nat}
  {n m : NodeId} {branches : List NodeId} {d : Draft} {form form' : NodeId → Except Fault Form}

theorem not_lt_of_below (h : below s document (room maxDepth depth) n = true) : ¬maxDepth < depth := by
  intro hlt
  rw [room_eq_zero hlt] at h
  cases h

-- What holds of a call holds of the calls for its branches.
theorem below_branch (h : below s document (room maxDepth depth) n = true) {b : NodeId}
    (hb : b ∈ (kindOf s n).branches) :
    below s document (room maxDepth (depth + 1)) (followRef s document b) = true := by
  rw [room_succ (not_lt_of_below h)] at h
  exact List.all_eq_true.mp h b hb

theorem below_mono (h : below s document r n = true) (hle : r ≤ r') : below s document r' n = true := by
  induction r generalizing r' n with
  | zero => cases h
  | succ r ih =>
      obtain ⟨r', rfl⟩ : ∃ k, r' = k + 1 := ⟨r' - 1, by omega⟩
      exact List.all_eq_true.mpr fun b hb => ih (List.all_eq_true.mp h b hb) (by omega)

theorem mergeForms_congr (h : ∀ b ∈ branches, form' b = form b) :
    mergeForms s form' branches d = mergeForms s form branches d := by
  induction branches generalizing d with
  | nil => rfl
  | cons b rest ih =>
      have hrest (d : Draft) : mergeForms s form' rest d = mergeForms s form rest d :=
        ih fun b' hb' => h b' (List.mem_cons_of_mem _ hb')
      rw [mergeForms_cons, mergeForms_cons, h b List.mem_cons_self]
      simp only [hrest]

-- Below the ceiling, the depth of a call makes no difference.
theorem formAt_of_below (h : below s document (room maxDepth depth) n = true) (hle : depth' ≤ depth) :
    formAt s document maxDepth allowance depth' n = formAt s document maxDepth allowance depth n := by
  induction allowance generalizing depth depth' n with
  | zero => rfl
  | succ allowance ih =>
      have hdepth := not_lt_of_below h
      have hbranch : ∀ b ∈ (kindOf s n).branches,
          formAt s document maxDepth allowance (depth' + 1) (followRef s document b) =
            formAt s document maxDepth allowance (depth + 1) (followRef s document b) :=
        fun b hb => ih (below_branch h hb) (by omega)
      rw [formAt, formAt, if_neg hdepth, if_neg (show ¬maxDepth < depth' by omega)]
      cases hkind : kindOf s n with
      | all branches =>
          rw [hkind] at hbranch
          exact congrArg (Except.map _) (mergeForms_congr hbranch)
      | first b =>
          rw [hkind] at hbranch
          exact hbranch b (List.mem_singleton_self b)
      | plain => rfl

-- A schema that is the answer to a call below the ceiling is the answer to the call for itself.
theorem below_and_formAt_of_kept (hbelow : below s document (room maxDepth depth) n = true)
    (h : formAt s document maxDepth allowance depth n = .ok (.kept m)) :
    below s document (room maxDepth depth) m = true ∧
      formAt s document maxDepth allowance depth m = .ok (.kept m) := by
  induction allowance generalizing depth n with
  | zero => cases h
  | succ allowance ih =>
      have hdepth := not_lt_of_below hbelow
      have hform := h
      rw [formAt, if_neg hdepth] at h
      cases hkind : kindOf s n with
      | all branches =>
          rw [hkind] at h
          obtain ⟨d, -, hd⟩ := map_eq_ok.mp h
          split at hd
          · cases hd
            exact ⟨hbelow, hform⟩
          · cases hd
      | first b =>
          -- The branch was asked for one call further down.
          rw [hkind] at h
          have hb : b ∈ (kindOf s n).branches := by
            rw [hkind]
            exact List.mem_singleton_self b
          obtain ⟨hbelow', hform'⟩ := ih (below_branch hbelow hb) h
          rw [← formAt_of_below hbelow' (show depth ≤ depth + 1 by omega)] at hform'
          rw [room_succ hdepth]
          exact ⟨below_mono hbelow' (Nat.le_succ _), formAt_mono hform' (Nat.le_succ _)⟩
      | plain =>
          rw [hkind] at h
          cases h
          exact ⟨hbelow, hform⟩

end Depth

section Plain

variable {s : Store} {document : Option NodeId} {settings : CompositionSettings} {depth : Int} {size : Nat}
  {n p q r : NodeId} {d : Draft}

-- No keyword of composition is among the entries that are written for a draft.
theorem Draft.Written.has_eq_false (hd : d.Sound) (h : d.Written size s p q r) {key : String}
    (hkey : key ∈ compositionKeys) : (s.entries r).has key = false := by
  have hslot : d.declared.slot? key = none := by
    simp only [compositionKeys, List.mem_cons, List.not_mem_nil, or_false] at hkey
    rcases hkey with rfl | rfl | rfl <;> simp [Declared.slot?, givenKeys, facets]
  have hfield : (s.entries r).get? (.str key) = none := by
    have hwritten := h.field? hd key
    rw [hslot] at hwritten
    exact hwritten
  rw [Entries.has, OrderedMap.contains_eq_isSome_get?, hfield]
  rfl

theorem run_of_has_eq_false (h : ∀ key ∈ compositionKeys, (s.entries n).has key = false) :
    run s document settings depth n = (.ok n, s) := by
  have hall : ¬(s.entries n).has "allOf" = true := by
    rw [h "allOf" (by decide)]
    exact Bool.false_ne_true
  have hchoice : choice? (s.entries n) = none := by
    refine List.find?_eq_none.mpr fun key hkey => ?_
    rw [h key (List.mem_cons_of_mem _ hkey)]
    exact Bool.false_ne_true
  have hkind : kindOf s n = .plain := by
    unfold kindOf
    rw [if_neg hall, hchoice]
  unfold run
  by_cases hdepth : settings.maxDepth < depth
  · rw [show nestingAllowance = 899 + 1 from rfl, effectiveAt, if_pos hdepth]
    rfl
  · rw [show nestingAllowance = 899 + 1 from rfl, run_effectiveAt_of_not_has hdepth hall, hkind]
    rfl

end Plain

section Idempotence

variable {s : Store} {document : Option NodeId} {settings : CompositionSettings} {depth : Int} {n : NodeId}

-- Where no call gets beyond the ceiling, the call for the answer returns the answer itself.
theorem run_answer_eq (hs : s.Closed) (hdoc : ∀ d ∈ document, d < s.nodes.size) (hn : n < s.nodes.size)
    (hbelow : depth ≤ settings.maxDepth → below s document (room settings.maxDepth depth) n = true) :
    Answers s document settings depth n fun r s₁ =>
      ∃ s₂, run s₁ document settings depth r = (.ok r, s₂) := by
  refine answers_of_shows hs hdoc hn fun r s₁ F hr hshows hF => ?_
  cases hshows with
  | merged hd h => exact ⟨s₁, run_of_has_eq_false fun key hkey => h.has_eq_false hd.sound hkey⟩
  | kept hlt =>
      have hself : formAt s document settings.maxDepth nestingAllowance depth r = .ok (.kept r) := by
        by_cases hdepth : settings.maxDepth < depth
        · cases eq_kept_of_lt hdepth hF
          exact hF
        · exact (below_and_formAt_of_kept (hbelow (by omega)) hF).2
      rcases run_cases hs hdoc hlt hr with ⟨f, s₂, -, -, hf⟩ | ⟨r', s₂, F', hrun, -, hF', hshows'⟩
      · rw [hself] at hf
        cases hf
      · rw [hself] at hF'
        cases hF'
        cases hshows'
        exact ⟨s₂, hrun⟩

end Idempotence

-- The first branch refers to a component whose first branch is a composition of a branch that says nothing.
def nestedChoice : Store :=
  ⟨#[
    .ofFields [("components", .node 1)],
    .ofFields [("schemas", .node 2)],
    .ofFields [("A", .node 3)],
    .ofFields [("anyOf", .node 4)],
    .sequence [.node 5],
    .ofFields [("allOf", .node 6)],
    .sequence [.node 7],
    .ofFields [],
    .ofFields [("oneOf", .node 9)],
    .sequence [.node 10],
    .ofFields [("$ref", .str "#/components/schemas/A")]]⟩

-- The inner composition is the answer, and it is the answer to the call for itself.
theorem nestedChoice_answer : ∃ s₁ s₂, run nestedChoice (some 0) {} 0 8 = (.ok 5, s₁) ∧
    run s₁ (some 0) {} 0 5 = (.ok 5, s₂) := by
  have hanswer : (run nestedChoice (some 0) {} 0 8).1.toOption = some 5 := by decide +kernel
  have h : Answers nestedChoice (some 0) {} 0 8 fun r s₁ =>
      ∃ s₂, run s₁ (some 0) {} 0 r = (.ok r, s₂) :=
    run_answer_eq (by decide) (by decide) (by decide) fun _ => by decide +kernel
  unfold Answers at h
  rcases hrun : run nestedChoice (some 0) {} 0 8 with ⟨f | r, s₁⟩
  · rw [hrun] at hanswer
    cases hanswer
  · rw [hrun] at hanswer h
    obtain rfl := Option.some.inj hanswer
    obtain ⟨s₂, hsecond⟩ := h
    exact ⟨s₁, s₂, rfl, hsecond⟩

end ApiGraph.Composition
