import ApiGraph.Proofs.Schema.Leaves

namespace ApiGraph.Composition

-- The leaves of the listed branches, from left to right.
def branchLeaves (s : Store) (document : Option NodeId) (room : Nat) (l : List Value) : List NodeId :=
  (mappingsIn s l).flatMap fun b => leaves s document room (followRef s document b)

-- A mapping with a list of branches and nothing else.
def IsGroup (s : Store) (g : NodeId) (mid : List Value) : Prop :=
  ∃ m v, s.mapping? g = some m ∧ m.entries = [(.str "allOf", v)] ∧ s.asSequence? v = some mid

-- The second list has some of the branches of the first one in a group.
inductive Regroups (s : Store) : List Value → List Value → Prop
  | intro {pre mid post : List Value} {g : NodeId} (hg : IsGroup s g mid) :
      Regroups s (pre ++ mid ++ post) (pre ++ .node g :: post)

section Regroups

variable {s : Store} {document : Option NodeId} {r : Nat} {g : NodeId} {l l' mid : List Value}
  {ls ls' : List NodeId} {c c' : Declared}

theorem has_of_listed {n : NodeId} {key : String} (hl : ((s.entries n).field? key).bind s.asSequence? = some l) :
    (s.entries n).has key = true := by
  obtain ⟨v, hv, -⟩ := Option.bind_eq_some_iff.mp hl
  show (s.entries n).contains (.str key) = true
  rw [OrderedMap.contains_eq_isSome_get?]
  exact Option.isSome_iff_exists.mpr ⟨v, hv⟩

theorem kindOf_of_allOf {n : NodeId} (hl : ((s.entries n).field? "allOf").bind s.asSequence? = some l) :
    kindOf s n = .all (mappingsIn s l) := by
  rw [kindOf_of_has_allOf (has_of_listed hl), hl]
  rfl

theorem mappingsIn_append : mappingsIn s (l ++ l') = mappingsIn s l ++ mappingsIn s l' :=
  List.filterMap_append

theorem branchLeaves_append :
    branchLeaves s document r (l ++ l') = branchLeaves s document r l ++ branchLeaves s document r l' := by
  unfold branchLeaves
  rw [mappingsIn_append, List.flatMap_append]

theorem IsGroup.field? (hg : IsGroup s g mid) {key : String} (h : key ≠ "allOf") :
    (s.entries g).field? key = none := by
  obtain ⟨m, v, hm, hentries, -⟩ := hg
  have hne : (Key.str "allOf" == Key.str key) = false :=
    Bool.eq_false_iff.mpr fun heq => h (Key.str_beq.mp heq).symm
  rw [Store.entries_of_mapping? hm]
  show m.get? (.str key) = none
  simp [OrderedMap.get?, hentries, hne]

theorem IsGroup.kindOf (hg : IsGroup s g mid) : kindOf s g = .all (mappingsIn s mid) := by
  obtain ⟨m, v, hm, hentries, hv⟩ := hg
  have hfield : (s.entries g).field? "allOf" = some v := by
    rw [Store.entries_of_mapping? hm]
    exact OrderedMap.get?_of_mem (by rw [hentries]; exact List.mem_singleton_self _)
  exact kindOf_of_allOf (by rw [hfield, Option.bind_some, hv])

theorem IsGroup.followRef (hg : IsGroup s g mid) : followRef s document g = g := by
  have href : (s.entries g).ref? = none := by
    show ((s.entries g).field? refKey).bind Value.string? = none
    rw [hg.field? (by decide)]
    rfl
  rw [followRef_eq]
  unfold component?
  rw [href]
  rfl

theorem IsGroup.isEmpty_declared (hg : IsGroup s g mid) : (declared s g).isEmpty = true := by
  rw [Declared.isEmpty_iff]
  refine Declared.ext (funext fun key => ?_) ?_ ?_
  · by_cases hkey : key ∈ givenKeys
    · have hne : key ≠ "allOf" := fun h => absurd (h ▸ hkey) (by decide)
      exact (if_pos hkey).trans (hg.field? hne)
    · exact if_neg hkey
  · unfold declared declaredIn
    dsimp only
    rw [hg.field? (by decide)]
    rfl
  · unfold declared declaredIn
    dsimp only
    rw [hg.field? (by decide)]
    rfl

-- The leaves of a group are those of its branches, if one of them contributes.
theorem IsGroup.filter_leaves (hg : IsGroup s g mid) (hbelow : below s document r g = true) :
    (leaves s document r g).filter (contributes s) =
      (branchLeaves s document r mid).filter (contributes s) := by
  cases r with
  | zero => cases hbelow
  | succ r =>
      rw [below, hg.kindOf] at hbelow
      have hleaves : branchLeaves s document (r + 1) mid = branchLeaves s document r mid :=
        List.flatMap_congr fun b hb => leaves_of_below (List.all_eq_true.mp hbelow b hb) (Nat.le_succ r)
      rw [leaves, hg.kindOf, hleaves]
      show List.filter _ (if (branchLeaves s document r mid).any (contributes s) = true
        then branchLeaves s document r mid else [g]) = _
      split
      · rfl
      · next hnone =>
        have hg' : contributes s g = false := by
          unfold contributes
          rw [hg.isEmpty_declared]
          rfl
        rw [List.filter_cons_of_neg (by simp [hg']), List.filter_nil, eq_comm, List.filter_eq_nil_iff]
        exact fun l hl hcontributes => hnone (List.any_eq_true.mpr ⟨l, hl, hcontributes⟩)

-- Grouping changes nothing but schemas that contribute nothing.
theorem Regroups.filter_branchLeaves (h : Regroups s l l')
    (hbelow : ∀ b ∈ mappingsIn s l', below s document r (Composition.followRef s document b) = true) :
    (branchLeaves s document r l').filter (contributes s) =
      (branchLeaves s document r l).filter (contributes s) := by
  cases h with
  | @intro pre mid post g hg =>
      have hmapping : mappingsIn s [.node g] = [g] := by
        obtain ⟨m, v, hm, -⟩ := hg
        rw [mappingsIn_cons, Store.asMapping?_eq_some.mpr ⟨rfl, hm⟩]
        rfl
      have hgroup : branchLeaves s document r [.node g] = leaves s document r g := by
        unfold branchLeaves
        rw [hmapping, List.flatMap_singleton, hg.followRef]
      have hg' : below s document r g = true := by
        have hmem : g ∈ mappingsIn s (pre ++ .node g :: post) := by
          rw [List.append_cons, mappingsIn_append, mappingsIn_append, hmapping]
          exact List.mem_append_left _ (List.mem_append_right _ (List.mem_singleton_self g))
        have hfollow := hbelow g hmem
        rwa [hg.followRef] at hfollow
      rw [List.append_cons]
      simp only [branchLeaves_append, List.filter_append, hgroup, hg.filter_leaves hg']

theorem any_contributes_filter : ls.any (contributes s) = (ls.filter (contributes s)).any (contributes s) := by
  simp [List.any_filter]

theorem merges_of_filter (h : ls.filter (contributes s) = ls'.filter (contributes s))
    (hc : c.Merges s (ls.map (declared s))) : c.Merges s (ls'.map (declared s)) := by
  have hfilter (ls : List NodeId) : (ls.map (declared s)).filter (fun c => !c.isEmpty) =
      (ls.filter (contributes s)).map (declared s) := List.filter_map
  rw [← Declared.merges_filter, hfilter] at hc ⊢
  rwa [← h]

end Regroups

section Flattening

variable {s : Store} {document : Option NodeId} {settings : CompositionSettings} {depth : Int}
  {n : NodeId} {l : List Value}

theorem answers_allOf (hs : s.Closed) (hdoc : ∀ d ∈ document, d < s.nodes.size) (hn : n < s.nodes.size)
    (hdepth : depth ≤ settings.maxDepth)
    (hl : ((s.entries n).field? "allOf").bind s.asSequence? = some l) :
    Answers s document settings depth n fun r s' =>
      let ls := branchLeaves s document (room settings.maxDepth (depth + 1)) l
      if ls.any (contributes s) = true then IsMerge s ls s' r else r = n := by
  refine answers_of_shows hs hdoc hn fun r s' F hr hshows hF => ?_
  have hform := of_formAt_all (by omega) (kindOf_of_allOf hl) rfl hF
  dsimp only
  split at hform
  · next hany =>
    obtain ⟨d, rfl, hflat⟩ := hform
    rw [branchLeaves, if_pos hany]
    exact hshows.isMerge hs hr hflat
  · next hnone =>
    subst hform
    rw [branchLeaves, if_neg hnone]
    cases hshows
    rfl

-- A call for a composition of all its branches returns the merge of their leaves, or the schema itself if
-- no leaf contributes. Another one that has some of the branches in a group returns the same.
theorem answers_merge_of_leaves (hs : s.Closed) (hdoc : ∀ d ∈ document, d < s.nodes.size)
    (hn : n < s.nodes.size) (hdepth : depth ≤ settings.maxDepth)
    (hl : ((s.entries n).field? "allOf").bind s.asSequence? = some l) :
    Answers s document settings depth n fun r s₁ =>
      let ls := branchLeaves s document (room settings.maxDepth (depth + 1)) l
      (if ls.any (contributes s) = true then IsMerge s ls s₁ r else r = n) ∧
      ∀ n' l', n' < s.nodes.size → ((s.entries n').field? "allOf").bind s.asSequence? = some l' →
        Regroups s l l' → below s document (room settings.maxDepth depth) n' = true →
        Answers s document settings depth n' fun r' s₂ =>
          if ls.any (contributes s) = true
          then declared s₂ r' = declared s₁ r ∧ ∀ k, (s₂.entries r').contains k = (s₁.entries r).contains k
          else r' = n' := by
  refine (answers_allOf hs hdoc hn hdepth hl).mono fun r s₁ hr => ⟨hr, fun n' l' hn' hl' hgroup hbelow => ?_⟩
  rw [room_succ (by omega), below, kindOf_of_allOf hl'] at hbelow
  have hfilter := hgroup.filter_branchLeaves (List.all_eq_true.mp hbelow)
  refine (answers_allOf hs hdoc hn' hdepth hl').mono fun r' s₂ hr' => ?_
  have hany := congrArg (fun ls => ls.any (contributes s)) hfilter
  dsimp only at hr hr' hany ⊢
  rw [← any_contributes_filter, ← any_contributes_filter] at hany
  rw [hany] at hr'
  split
  · next hcontributes =>
    rw [if_pos hcontributes] at hr hr'
    have hdeclared := (merges_of_filter hfilter hr'.merges).unique hr.merges
    exact ⟨hdeclared, fun k => by rw [hr'.keys, hr.keys, hdeclared]⟩
  · next hnone => rwa [if_neg hnone] at hr'

end Flattening

-- Two schemas with the same branches, in the second one in a group. The first branch is a reference.
def grouped : Store :=
  ⟨#[
    .ofFields [("type", .str "object")],
    .ofFields [("required", .node 2), ("type", .str "string")],
    .sequence [.str "x", .str "x"],
    .ofFields [("allOf", .node 4)],
    .sequence [.node 7, .node 1],
    .ofFields [("allOf", .node 6)],
    .sequence [.node 3],
    .ofFields [("$ref", .str "#/components/schemas/Base")],
    .ofFields [("components", .node 9)],
    .ofFields [("schemas", .node 10)],
    .ofFields [("Base", .node 0)]]⟩

-- The reference gives way to its target before the merge.
theorem grouped_merge :
    followRef grouped (some 8) 7 = 0 ∧
      Answers grouped (some 8) {} 0 3 fun r s₁ => IsMerge grouped [0, 1] s₁ r ∧
        Answers grouped (some 8) {} 0 5 fun r' s₂ => declared s₂ r' = declared s₁ r := by
  have hgroup : Regroups grouped [.node 7, .node 1] [.node 3] :=
    @Regroups.intro _ [] [.node 7, .node 1] [] 3 ⟨_, .node 4, rfl, rfl, rfl⟩
  have hleaves : branchLeaves grouped (some 8) (room ({} : CompositionSettings).maxDepth (0 + 1))
      [.node 7, .node 1] = [0, 1] := by decide +kernel
  have hbelow : below grouped (some 8) (room ({} : CompositionSettings).maxDepth 0) 5 = true := by
    decide +kernel
  have hlisted : ((grouped.entries 3).field? "allOf").bind grouped.asSequence? =
      some [.node 7, .node 1] := rfl
  have hmerges := @answers_merge_of_leaves grouped (some 8) {} 0 3 _ (by decide) (by decide) (by decide)
    (by decide) hlisted
  refine ⟨by decide +kernel, hmerges.mono fun r s₁ h => ?_⟩
  obtain ⟨hmerge, hgroups⟩ := h
  rw [hleaves] at hmerge hgroups
  rw [if_pos (by decide)] at hmerge
  refine ⟨hmerge, (hgroups 5 [.node 3] (by decide) rfl hgroup hbelow).mono fun r' s₂ h => ?_⟩
  rw [if_pos (by decide)] at h
  exact h.1

end ApiGraph.Composition
