import ApiGraph.Proofs.Schema.Writing

namespace ApiGraph.Composition

-- How many calls within each other the ceiling leaves room for.
def room (maxDepth depth : Int) : Nat := (maxDepth + 1 - depth).toNat

def contributes (s : Store) (schema : NodeId) : Bool := !(declared s schema).isEmpty

-- What counts in place of the schema when it is merged.
def leaves (s : Store) (document : Option NodeId) : (room : Nat) → NodeId → List NodeId
  | 0, schema => [schema]
  | room + 1, schema =>
      match kindOf s schema with
      | .all branches =>
          let inner := branches.flatMap fun b => leaves s document room (followRef s document b)
          if inner.any (contributes s) then inner else [schema]
      | .first b => leaves s document room (followRef s document b)
      | .plain => [schema]

-- No call exceeds the ceiling.
def below (s : Store) (document : Option NodeId) : (room : Nat) → NodeId → Bool
  | 0, _ => false
  | room + 1, schema => (kindOf s schema).branches.all fun b => below s document room (followRef s document b)

-- The form of a schema with these leaves.
inductive Flat (s : Store) : Form → List NodeId → Prop
  | kept (schema : NodeId) : Flat s (.kept schema) [schema]
  | merged {d : Draft} {ls : List NodeId} (hany : ls.any (contributes s) = true)
      (h : d.declared.Merges s (ls.map (declared s))) : Flat s (.merged d) ls

-- All required names of the schemas.
def names (s : Store) (ls : List NodeId) : List Value := (ls.map (declared s)).flatMap (·.required)

-- What there is not enough room for.
inductive Overload (s : Store) (document : Option NodeId) (allowance room : Nat) (schema : NodeId) : Prop
  | nesting (hroom : allowance ≤ room) (h : below s document allowance schema = false)
  | comparison {v w : Value} (hv : v ∈ names s (leaves s document room schema))
      (hw : w ∈ names s (leaves s document room schema))
      (h : s.equal nestingAllowance v w = .error .stackExhausted)

section Room

variable {maxDepth depth : Int}

theorem room_eq_zero (h : maxDepth < depth) : room maxDepth depth = 0 := by
  unfold room
  omega

theorem room_succ (h : ¬maxDepth < depth) : room maxDepth depth = room maxDepth (depth + 1) + 1 := by
  unfold room
  omega

end Room

section Flat

variable {s : Store} {document : Option NodeId} {maxDepth depth : Int} {allowance r r' : Nat} {n : NodeId}
  {F : Form} {d d' : Draft} {ls branches : List NodeId} {cs : List Declared} {f : Fault}
  {form : NodeId → Except Fault Form} {leavesOf : NodeId → List NodeId}

theorem Flat.standsFor (h : Flat s F ls) : (F.declared s).StandsFor s (ls.map (declared s)) := by
  cases h with
  | kept n => exact Declared.standsFor_self (declared s n)
  | merged _ h => exact h.standsFor

theorem Flat.mem_required (h : Flat s F ls) {v : Value} (hv : v ∈ (F.declared s).required) :
    v ∈ names s ls := by
  cases h with
  | kept n => exact List.mem_flatMap_of_mem (List.mem_singleton_self _) hv
  | merged _ h => exact h.required.subset v hv

theorem contributes_of_required {l : NodeId} {v : Value} (h : v ∈ (declared s l).required) :
    contributes s l = true := by
  unfold contributes
  rw [Bool.not_eq_true', Bool.eq_false_iff]
  intro hempty
  rw [Declared.isEmpty_iff.mp hempty] at h
  cases h

theorem any_contributes_eq_false :
    ls.any (contributes s) = false ↔ ∀ l ∈ ls, (declared s l).isEmpty = true := by
  simp [contributes]

-- A step of the merge adds the leaves of one branch.
theorem merges_mergeForms (hform : ∀ b ∈ branches, ∀ F, form b = .ok F → Flat s F (leavesOf b))
    (hd : d.Sound) (hcs : d.declared.Merges s cs) (h : mergeForms s form branches d = .ok d') :
    d'.Sound ∧ d'.declared.Merges s (cs ++ (branches.flatMap leavesOf).map (declared s)) := by
  induction branches generalizing d cs with
  | nil =>
      cases h
      exact ⟨hd, by simpa using hcs⟩
  | cons b rest ih =>
      obtain ⟨F, taken, hF, htaken, hrest⟩ := exists_of_mergeForms_cons h
      obtain ⟨hsound, habsorbs⟩ := hd.take htaken
      have hmerges := hcs.absorb (hform b List.mem_cons_self F hF).standsFor habsorbs
      have hlast := ih (fun b' hb' => hform b' (List.mem_cons_of_mem _ hb')) hsound hmerges hrest
      rwa [List.append_assoc, ← List.map_append, ← List.flatMap_cons] at hlast

-- A merge fails in a branch or at two names.
theorem of_mergeForms_error (hform : ∀ b ∈ branches, ∀ F, form b = .ok F → Flat s F (leavesOf b))
    (hd : d.Sound) (hcs : d.declared.Merges s cs) (h : mergeForms s form branches d = .error f) :
    (∃ b ∈ branches, form b = .error f) ∨
      ∃ v ∈ (cs ++ (branches.flatMap leavesOf).map (declared s)).flatMap (·.required),
        ∃ w ∈ (cs ++ (branches.flatMap leavesOf).map (declared s)).flatMap (·.required),
          s.equal nestingAllowance v w = .error f := by
  induction branches generalizing d cs with
  | nil => cases h
  | cons b rest ih =>
      cases hF : form b with
      | error f' =>
          rw [mergeForms_cons, hF] at h
          cases h
          exact .inl ⟨b, List.mem_cons_self, hF⟩
      | ok F =>
          have hflat := hform b List.mem_cons_self F hF
          cases ht : d.take s (F.declared s) with
          | error f' =>
              rw [mergeForms_cons, hF] at h
              replace h : (d.take s (F.declared s) >>= fun d => mergeForms s form rest d) = .error f := h
              rw [ht] at h
              cases h
              obtain ⟨v, hv, w, hw, herror⟩ := Draft.exists_error_of_take ht
              rw [List.flatMap_cons, List.map_append, ← List.append_assoc, List.flatMap_append]
              have hbranch {u : Value} (hu : u ∈ (F.declared s).required) :
                  u ∈ (cs ++ (leavesOf b).map (declared s)).flatMap (·.required) := by
                rw [List.flatMap_append]
                exact List.mem_append_right _ (hflat.mem_required hu)
              have hbefore {u : Value} (hu : u ∈ d.required) :
                  u ∈ (cs ++ (leavesOf b).map (declared s)).flatMap (·.required) := by
                rw [List.flatMap_append]
                exact List.mem_append_left _ (hcs.required.subset u hu)
              exact .inr ⟨v, List.mem_append_left _ ((List.mem_append.mp hv).elim hbefore hbranch), w,
                List.mem_append_left _ (hbranch hw), herror⟩
          | ok taken =>
              rw [mergeForms_cons_of_take hF ht] at h
              obtain ⟨hsound, habsorbs⟩ := hd.take ht
              rcases ih (fun b' hb' => hform b' (List.mem_cons_of_mem _ hb')) hsound
                (hcs.absorb hflat.standsFor habsorbs) h with ⟨b', hb', herror⟩ | hnames
              · exact .inl ⟨b', List.mem_cons_of_mem _ hb', herror⟩
              · rw [List.append_assoc, ← List.map_append, ← List.flatMap_cons] at hnames
                exact .inr hnames

-- Where a leaf contributes, there is something to write down.
theorem flat_of_mergeForms (hform : ∀ b ∈ branches, ∀ F, form b = .ok F → Flat s F (leavesOf b))
    (h : mergeForms s form branches .empty = .ok d) :
    if (branches.flatMap leavesOf).any (contributes s) = true
    then d.slots.isEmpty = false ∧ Flat s (.merged d) (branches.flatMap leavesOf)
    else d.slots.isEmpty = true := by
  obtain ⟨hsound, hmerges⟩ := merges_mergeForms hform Draft.sound_empty
    (Draft.declared_empty ▸ Declared.merges_nil) h
  rw [List.nil_append] at hmerges
  have hempty := hsound.isEmpty_iff.trans hmerges.isEmpty_iff
  rw [List.forall_mem_map, ← any_contributes_eq_false] at hempty
  split
  · next hany => exact ⟨by rw [← Bool.not_eq_true, hempty, hany]; simp, .merged hany hmerges⟩
  · next hnone => exact hempty.mpr (Bool.eq_false_iff.mpr hnone)

-- What a schema stands for is the merge of its leaves.
theorem flat_formAt (h : formAt s document maxDepth allowance depth n = .ok F) :
    Flat s F (leaves s document (room maxDepth depth) n) := by
  induction allowance generalizing depth n F with
  | zero => cases h
  | succ allowance ih =>
      rw [formAt] at h
      by_cases hdepth : maxDepth < depth
      · rw [if_pos hdepth] at h
        cases h
        rw [room_eq_zero hdepth]
        exact .kept n
      rw [if_neg hdepth] at h
      rw [room_succ hdepth, leaves]
      cases hkind : kindOf s n with
      | all branches =>
          rw [hkind] at h
          obtain ⟨d, hd, rfl⟩ := map_eq_ok.mp h
          dsimp only
          have hflat := flat_of_mergeForms (fun b _ F hF => ih hF) hd
          split at hflat
          · next hany =>
            rw [if_pos hany, hflat.1]
            exact hflat.2
          · next hnone =>
            rw [if_neg hnone, hflat]
            exact .kept n
      | first b =>
          rw [hkind] at h
          exact ih h
      | plain =>
          rw [hkind] at h
          cases h
          exact .kept n

-- The form of a composition of all its branches.
theorem of_formAt_all (hdepth : ¬maxDepth < depth) (hkind : kindOf s n = .all branches)
    (hls : ls = branches.flatMap fun b => leaves s document (room maxDepth (depth + 1)) (followRef s document b))
    (h : formAt s document maxDepth allowance depth n = .ok F) :
    if ls.any (contributes s) = true then ∃ d, F = .merged d ∧ Flat s F ls else F = .kept n := by
  subst hls
  cases allowance with
  | zero => cases h
  | succ allowance =>
      rw [formAt, if_neg hdepth, hkind] at h
      obtain ⟨d, hd, rfl⟩ := map_eq_ok.mp h
      have hflat := flat_of_mergeForms (fun b _ F hF => flat_formAt hF) hd
      split at hflat
      · next hany =>
        rw [if_pos hany, hflat.1]
        exact ⟨d, rfl, hflat.2⟩
      · next hnone =>
        rw [if_neg hnone, hflat]
        rfl

theorem leaves_of_all (hkind : kindOf s n = .all branches)
    (hany : (branches.flatMap fun b => leaves s document r (followRef s document b)).any (contributes s) = true) :
    leaves s document (r + 1) n = branches.flatMap fun b => leaves s document r (followRef s document b) := by
  rw [leaves, hkind]
  exact if_pos hany

-- A schema that requires names contributes.
theorem any_contributes_of_mem_names {v : Value} (h : v ∈ names s ls) : ls.any (contributes s) = true := by
  obtain ⟨c, hc, hv⟩ := List.mem_flatMap.mp h
  obtain ⟨l, hl, rfl⟩ := List.mem_map.mp hc
  exact List.any_eq_true.mpr ⟨l, hl, contributes_of_required hv⟩

theorem mem_names_of_branch {b : NodeId} {v : Value} (hb : b ∈ (kindOf s n).branches)
    (h : v ∈ names s (leaves s document r (followRef s document b))) :
    v ∈ names s (leaves s document (r + 1) n) := by
  cases hkind : kindOf s n with
  | all branches =>
      rw [hkind] at hb
      have hall : v ∈ names s (branches.flatMap fun b => leaves s document r (followRef s document b)) := by
        unfold names at h ⊢
        rw [List.map_flatMap, List.flatMap_assoc]
        exact List.mem_flatMap_of_mem hb h
      rwa [leaves_of_all hkind (any_contributes_of_mem_names hall)]
  | first b' =>
      rw [hkind] at hb
      obtain rfl := List.mem_singleton.mp hb
      rwa [leaves, hkind]
  | plain =>
      rw [hkind] at hb
      cases hb

theorem Overload.of_branch {b : NodeId} (hb : b ∈ (kindOf s n).branches)
    (h : Overload s document allowance r (followRef s document b)) :
    Overload s document (allowance + 1) (r + 1) n := by
  cases h with
  | nesting hroom h =>
      refine .nesting (by omega) ?_
      rw [below, Bool.eq_false_iff]
      intro hall
      rw [List.all_eq_true.mp hall b hb] at h
      cases h
  | comparison hv hw h => exact .comparison (mem_names_of_branch hb hv) (mem_names_of_branch hb hw) h

-- A pass fails only where there is not enough room.
theorem overload_of_formAt (h : formAt s document maxDepth allowance depth n = .error f) :
    f = .stackExhausted ∧ Overload s document allowance (room maxDepth depth) n := by
  induction allowance generalizing depth n f with
  | zero =>
      cases h
      exact ⟨rfl, .nesting (Nat.zero_le _) rfl⟩
  | succ allowance ih =>
      rw [formAt] at h
      by_cases hdepth : maxDepth < depth
      · rw [if_pos hdepth] at h
        cases h
      rw [if_neg hdepth] at h
      rw [room_succ hdepth]
      split at h
      · next branches hkind =>
        rcases of_mergeForms_error (fun b _ F hF => flat_formAt hF) Draft.sound_empty
          (Draft.declared_empty ▸ Declared.merges_nil) (map_eq_error.mp h) with
          ⟨b, hb, hf⟩ | ⟨v, hv, w, hw, herror⟩
        · obtain ⟨rfl, hoverload⟩ := ih hf
          exact ⟨rfl, hoverload.of_branch (by rwa [hkind])⟩
        · obtain rfl := Store.eq_stackExhausted_of_equal herror
          rw [List.nil_append] at hv hw
          have hleaves := leaves_of_all hkind (any_contributes_of_mem_names hv)
          exact ⟨rfl, .comparison (by rwa [hleaves]) (by rwa [hleaves]) herror⟩
      · next b hkind =>
        obtain ⟨rfl, hoverload⟩ := ih h
        exact ⟨rfl, hoverload.of_branch (by rw [hkind]; exact List.mem_singleton_self b)⟩
      · cases h

-- Room that is not used makes no difference.
theorem leaves_of_below (h : below s document r n = true) (hle : r ≤ r') :
    leaves s document r' n = leaves s document r n := by
  induction r generalizing r' n with
  | zero => cases h
  | succ r ih =>
      obtain ⟨r', rfl⟩ : ∃ k, r' = k + 1 := ⟨r' - 1, by omega⟩
      have hbranch : ∀ b ∈ (kindOf s n).branches,
          leaves s document r' (followRef s document b) = leaves s document r (followRef s document b) :=
        fun b hb => ih (List.all_eq_true.mp h b hb) (by omega)
      rw [leaves, leaves]
      split
      · next branches hkind =>
        rw [hkind] at hbranch
        dsimp only
        rw [show branches.flatMap (fun b => leaves s document r' (followRef s document b)) = _ from
          List.flatMap_congr hbranch]
      · next b hkind => exact hbranch b (hkind ▸ List.mem_singleton_self b)
      · rfl

end Flat

-- The call returns what is asked for, unless there is not enough room for it.
def Answers (s : Store) (document : Option NodeId) (settings : CompositionSettings) (depth : Int)
    (schema : NodeId) (Q : NodeId → Store → Prop) : Prop :=
  match run s document settings depth schema with
  | (.ok r, s') => Q r s'
  | (.error f, _) => f = .stackExhausted ∧
      Overload s document nestingAllowance (room settings.maxDepth depth) schema

-- The same for a call that comes after others, for a schema that was there before them.
def AnswersAfter (s s₁ : Store) (document : Option NodeId) (settings : CompositionSettings) (depth : Int)
    (schema : NodeId) (Q : NodeId → Store → Prop) : Prop :=
  match run s₁ document settings depth schema with
  | (.ok r, s₂) => Q r s₂
  | (.error f, _) => f = .stackExhausted ∧
      Overload s document nestingAllowance (room settings.maxDepth depth) schema

-- A new mapping with the merge of the schemas and no other key.
structure IsMerge (s : Store) (ls : List NodeId) (s' : Store) (r : NodeId) : Prop where
  fresh : s.nodes.size ≤ r
  merges : (declared s' r).Merges s (ls.map (declared s))
  keys : ∀ k, (s'.entries r).contains k = (k.string?.bind (declared s' r).slot?).isSome

section Answers

variable {s s₁ : Store} {document : Option NodeId} {settings : CompositionSettings} {depth : Int}
  {n r : NodeId} {Q Q' : NodeId → Store → Prop} {F : Form} {ls : List NodeId} {d : Draft} {l : List Value}

theorem Answers.mono (h : Answers s document settings depth n Q) (hQ : ∀ r s', Q r s' → Q' r s') :
    Answers s document settings depth n Q' := by
  unfold Answers at h ⊢
  rcases hrun : run s document settings depth n with ⟨f | r, s'⟩
  · rw [hrun] at h
    exact h
  · rw [hrun] at h
    exact hQ r s' h

-- Whatever is returned shows the form of the schema.
theorem answersAfter_of_shows (hs : s.Closed) (hdoc : ∀ d ∈ document, d < s.nodes.size)
    (hn : n < s.nodes.size) (hr : s.Retains s₁)
    (h : ∀ r s₂ F, run s₁ document settings depth n = (.ok r, s₂) → s₁.Retains s₂ →
      Shows s.nodes.size s₂ F r →
      formAt s document settings.maxDepth nestingAllowance depth n = .ok F → Q r s₂) :
    AnswersAfter s s₁ document settings depth n Q := by
  unfold AnswersAfter
  rcases run_cases hs hdoc hn hr with ⟨f, s₂, hrun, -, hf⟩ | ⟨r, s₂, F, hrun, hr₂, hF, hshows⟩
  · rw [hrun]
    exact overload_of_formAt hf
  · rw [hrun]
    exact h r s₂ F hrun hr₂ hshows hF

theorem answers_of_shows (hs : s.Closed) (hdoc : ∀ d ∈ document, d < s.nodes.size) (hn : n < s.nodes.size)
    (h : ∀ r s' F, s.Retains s' → Shows s.nodes.size s' F r →
      formAt s document settings.maxDepth nestingAllowance depth n = .ok F → Q r s') :
    Answers s document settings depth n Q :=
  answersAfter_of_shows hs hdoc hn (.refl s) fun r s' F _ => h r s' F

theorem Shows.isMerge (hs : s.Closed) (hr : s.Retains s₁) (h : Shows s.nodes.size s₁ (.merged d) r)
    (hflat : Flat s (.merged d) ls) : IsMerge s ls s₁ r := by
  have hdeclared := h.declared hs hr
  cases h with
  | merged hd h =>
      cases hflat with
      | merged _ hmerges =>
          refine ⟨h.fresh, by rw [hdeclared]; exact hmerges, fun k => ?_⟩
          rw [hdeclared, OrderedMap.contains_eq_isSome_get?, Store.entries_of_mapping? h.mapping,
            OrderedMap.get?_mapValues, Option.isSome_map, hd.sound]
          rfl

end Answers

end ApiGraph.Composition
