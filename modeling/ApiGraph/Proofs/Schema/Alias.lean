import ApiGraph.Proofs.Schema.Exchange
import ApiGraph.Proofs.Schema.Flattening
import Mathlib.Logic.Relation

namespace ApiGraph.Composition

-- The keyword that the schema is composed by.
def deciding? (s : Store) (schema : NodeId) : Option String := compositionKeys.find? (s.entries schema).has

-- How a schema is composed by this keyword.
def kindBy (s : Store) (schema : NodeId) (key : String) : Kind :=
  let listed := ((s.entries schema).field? key).bind s.asSequence?
  if key = "allOf" then .all (mappingsIn s (listed.getD []))
  else match (listed.bind List.head?).bind s.asMapping? with
    | none => .plain
    | some (branch, _) => .first branch

def RefersTo (s : Store) (document : Option NodeId) (schema target : NodeId) : Prop :=
  component? s document schema = some target

-- The branches refer to the two ends of a chain of references.
structure ChainEnds (s : Store) (document : Option NodeId) (b b' first last : NodeId) : Prop where
  starts : RefersTo s document b first
  chain : Relation.ReflTransGen (RefersTo s document) first last
  ends : RefersTo s document b' last

-- The second schema is the first one with another mapping as one of the listed branches.
structure OtherBranch (s : Store) (keyword : String) (pre post : List Value) (b b' n n' : NodeId) : Prop where
  composed : keyword ∈ compositionKeys
  listed : ((s.entries n).field? keyword).bind s.asSequence? = some (pre ++ .node b :: post)
  listed' : ((s.entries n').field? keyword).bind s.asSequence? = some (pre ++ .node b' :: post)
  other : ∀ key, key ≠ keyword → (s.entries n').field? key = (s.entries n).field? key

-- Both calls return what they are called for, or what they return is equal.
def SameResult (s : Store) (n n' r r' : NodeId) : Prop := r = n ∧ r' = n' ∨ s.Same (.node r) (.node r')

section Kinds

variable {s : Store} {document : Option NodeId} {keyword : String} {pre post l : List Value}
  {b b' n n' a : NodeId}

theorem exists_mapping_of_refersTo (h : RefersTo s document b a) : ∃ m, s.mapping? b = some m := by
  obtain ⟨name, href, -⟩ := Option.bind_eq_some_iff.mp h
  obtain ⟨ref, href, -⟩ := Option.bind_eq_some_iff.mp href
  obtain ⟨v, hv, -⟩ := Option.bind_eq_some_iff.mp href
  exact ⟨_, Store.mapping?_of_field? hv⟩

theorem lt_size_of_refersTo (h : RefersTo s document b a) : b < s.nodes.size := by
  obtain ⟨m, hm⟩ := exists_mapping_of_refersTo h
  exact Store.lt_size_of_mapping? hm

theorem followRef_of_refersTo (h : RefersTo s document b a) : followRef s document b = a := by
  rw [followRef_eq, h]
  rfl

theorem kindOf_eq : kindOf s n = (deciding? s n).elim .plain (kindBy s n) := by
  by_cases hall : (s.entries n).has "allOf" = true
  · have hdeciding : deciding? s n = some "allOf" := List.find?_cons_of_pos hall
    rw [hdeciding, kindOf_of_has_allOf hall]
    rfl
  · have hdeciding : deciding? s n = choice? (s.entries n) := List.find?_cons_of_neg hall
    rw [hdeciding, show kindOf s n = _ from if_neg hall]
    cases hchoice : choice? (s.entries n) with
    | none => rfl
    | some key =>
        have hmem : key ∈ ["oneOf", "anyOf"] := List.mem_of_find?_eq_some hchoice
        have hne : key ≠ "allOf" := fun h => absurd (h ▸ hmem) (by decide)
        exact (if_neg hne).symm

theorem kindOf_of_deciding (hdeciding : deciding? s n = some keyword) (hkeyword : keyword ≠ "allOf")
    (hl : ((s.entries n).field? keyword).bind s.asSequence? = some (.node b :: post))
    (hb : ∃ m, s.mapping? b = some m) : kindOf s n = .first b := by
  obtain ⟨m, hm⟩ := hb
  rw [kindOf_eq, hdeciding, Option.elim_some, kindBy, if_neg hkeyword, hl, Option.bind_some,
    List.head?_cons, Option.bind_some, Store.asMapping?_eq_some.mpr ⟨rfl, hm⟩]

variable (h : OtherBranch s keyword pre post b b' n n')

include h

theorem OtherBranch.deciding?_eq : deciding? s n' = deciding? s n := by
  have hhas : (s.entries n').has = (s.entries n).has := by
    funext key
    by_cases hkey : key = keyword
    · subst hkey
      rw [has_of_listed h.listed, has_of_listed h.listed']
    · show (s.entries n').contains (.str key) = (s.entries n).contains (.str key)
      rw [OrderedMap.contains_eq_isSome_get?, OrderedMap.contains_eq_isSome_get?]
      exact congrArg Option.isSome (h.other key hkey)
  unfold deciding?
  rw [hhas]

-- The branch is looked at only as one of all or as the first.
theorem OtherBranch.kindOf_eq_of_unseen (hkeyword : keyword ≠ "allOf")
    (hunseen : ¬(pre = [] ∧ deciding? s n = some keyword)) : kindOf s n' = kindOf s n := by
  rw [kindOf_eq, kindOf_eq, h.deciding?_eq]
  cases hdeciding : deciding? s n with
  | none => rfl
  | some key =>
      rw [Option.elim_some, Option.elim_some, kindBy, kindBy]
      by_cases hkey : key = keyword
      · subst hkey
        obtain ⟨v, rest, rfl⟩ := List.exists_cons_of_ne_nil fun hpre => hunseen ⟨hpre, hdeciding⟩
        rw [if_neg hkeyword, if_neg hkeyword, h.listed, h.listed']
        rfl
      · rw [h.other key hkey]

end Kinds

section Runs

variable {s s₁ : Store} {document : Option NodeId} {settings : CompositionSettings} {maxDepth depth : Int}
  {allowance allowance' : Nat} {n b r : NodeId} {l : List Value} {d : Draft}
  {form form' : NodeId → Compose NodeId}

theorem returnsAs_merge (hform : ∀ b, ReturnsAs (form b) (form' b)) :
    ReturnsAs (merge form l d) (merge form' l d) := by
  induction l generalizing d with
  | nil => exact .refl _
  | cons v rest ih =>
      rw [merge, merge]
      refine ReturnsAs.bind (.refl _) fun s => ?_
      split
      · exact ih
      · exact (hform _).bind fun _ => ReturnsAs.bind (.refl _) fun _ => ReturnsAs.bind (.refl _) fun _ => ih

-- A greater allowance changes nothing that is returned.
theorem returnsAs_effectiveAt (hle : allowance ≤ allowance') :
    ReturnsAs (effectiveAt document maxDepth allowance depth n)
      (effectiveAt document maxDepth allowance' depth n) := by
  induction allowance generalizing depth n allowance' with
  | zero =>
      intro s r s' h
      cases h
  | succ allowance ih =>
      obtain ⟨allowance', rfl⟩ : ∃ k, allowance' = k + 1 := ⟨allowance' - 1, by omega⟩
      have hbranch (depth : Int) (n : NodeId) :
          ReturnsAs (effectiveAt document maxDepth allowance depth n)
            (effectiveAt document maxDepth allowance' depth n) := ih (by omega)
      rw [effectiveAt, effectiveAt]
      split
      · exact .refl _
      refine ReturnsAs.bind (.refl _) fun s => ?_
      dsimp only
      split
      · split
        · exact .refl _
        · exact (returnsAs_merge fun b => hbranch _ _).bind fun _ => .refl _
      · split
        · exact .refl _
        split
        · exact .refl _
        split
        · exact .refl _
        · exact hbranch _ _

theorem run_effectiveAt_of_first (hdepth : ¬maxDepth < depth) (hkind : kindOf s n = .first b) :
    (effectiveAt document maxDepth (allowance + 1) depth n).run.run s =
      (effectiveAt document maxDepth allowance (depth + 1) (followRef s document b)).run.run s := by
  have hall : ¬(s.entries n).has "allOf" = true := by
    intro hall
    rw [kindOf_of_has_allOf hall] at hkind
    cases hkind
  rw [run_effectiveAt_of_not_has hdepth hall, hkind]
  rfl

-- Where a schema stands for its first branch, a call for the branch returns the same.
theorem run_of_first (hdepth : depth ≤ settings.maxDepth) (hkind : kindOf s n = .first b)
    (h : run s document settings depth n = (.ok r, s₁)) :
    run s document settings (depth + 1) (followRef s document b) = (.ok r, s₁) := by
  obtain ⟨allowance, hallowance⟩ : ∃ k, nestingAllowance = k + 1 := ⟨899, rfl⟩
  unfold run at h ⊢
  refine returnsAs_effectiveAt (show allowance ≤ nestingAllowance by omega) s r s₁ ?_
  rw [← run_effectiveAt_of_first (by omega) hkind, ← hallowance]
  exact h

end Runs

-- The form of a schema whose branches declare this together.
inductive Composed (n : NodeId) : Declared → Form → Prop
  | kept : Composed n .empty (.kept n)
  | merged {d : Draft} (h : d.declared.isEmpty = false) : Composed n d.declared (.merged d)

section Results

variable {s t : Store} {document : Option NodeId} {maxDepth depth : Int} {allowance size : Nat}
  {l : List Value} {n n' r r' p q : NodeId} {v v' : Value} {F F' : Form}
  {c c' : Declared} {d : Draft}

theorem exists_composed_of_formAt (hdepth : ¬maxDepth < depth) (hkind : kindOf s n = .all (mappingsIn s l))
    (h : formAt s document maxDepth allowance depth n = .ok F) :
    ∃ c : Declared, c.Merges s ((branchLeaves s document (room maxDepth (depth + 1)) l).map (declared s)) ∧
      Composed n c F := by
  have hform := of_formAt_all hdepth hkind rfl h
  split at hform
  · next hany =>
    obtain ⟨d, rfl, hflat⟩ := hform
    cases hflat with
    | merged _ hmerges =>
        refine ⟨d.declared, hmerges, .merged ?_⟩
        rw [← Bool.not_eq_true, hmerges.isEmpty_iff, List.forall_mem_map, ← any_contributes_eq_false, hany]
        simp
  · next hnone =>
    subst hform
    rw [Bool.not_eq_true, any_contributes_eq_false] at hnone
    have hempty : ∀ c ∈ (branchLeaves s document (room maxDepth (depth + 1)) l).map (declared s),
        c.isEmpty = true := List.forall_mem_map.mpr hnone
    refine ⟨.empty, Declared.merges_filter.mp ?_, .kept⟩
    rw [List.filter_eq_nil_iff.mpr fun c hc => by simp [hempty c hc]]
    exact Declared.merges_nil

-- Two schemas that are composed in the same way of the same branches have one form, unless it is their own.
theorem forms_of_kindOf_eq (hkind : kindOf s n' = kindOf s n)
    (hF : formAt s document maxDepth allowance depth n = .ok F)
    (hF' : formAt s document maxDepth allowance depth n' = .ok F') :
    F = .kept n ∧ F' = .kept n' ∨ F = F' := by
  cases allowance with
  | zero => cases hF
  | succ allowance =>
      rw [formAt] at hF hF'
      by_cases hdepth : maxDepth < depth
      · rw [if_pos hdepth] at hF hF'
        cases hF
        cases hF'
        exact .inl ⟨rfl, rfl⟩
      rw [if_neg hdepth] at hF hF'
      rw [hkind] at hF'
      cases hk : kindOf s n with
      | all branches =>
          rw [hk] at hF hF'
          obtain ⟨d, hd, rfl⟩ := map_eq_ok.mp hF
          obtain ⟨d', hd', rfl⟩ := map_eq_ok.mp hF'
          obtain rfl := Except.ok.inj (hd.symm.trans hd')
          by_cases hempty : d.slots.isEmpty = true
          · exact .inl ⟨if_pos hempty, if_pos hempty⟩
          · exact .inr ((if_neg hempty).trans (if_neg hempty).symm)
      | first b =>
          rw [hk] at hF hF'
          exact .inr (Except.ok.inj (hF.symm.trans hF'))
      | plain =>
          rw [hk] at hF hF'
          cases hF
          cases hF'
          exact .inl ⟨rfl, rfl⟩

-- A new schema is not composed of anything.
theorem Draft.Written.not_same (hd : d.Sound) (h : d.Written size t p q r)
    (hall : (t.entries n).field? "allOf" = some v) :
    ¬t.Same (.node n) (.node r) ∧ ¬t.Same (.node r) (.node n) := by
  have hnone : (d.slots.mapValues (Slot.value p q)).get? (.str "allOf") = none := by
    have hfield := h.field? hd "allOf"
    rw [Store.entries_of_mapping? h.mapping] at hfield
    exact hfield.trans (by simp [Declared.slot?, givenKeys, facets])
  have hm := Store.mapping?_of_field? hall
  replace hall : (t.entries n).get? (.str "allOf") = some v := hall
  rw [Store.same_mapping_iff hm h.mapping, Store.same_mapping_iff h.mapping hm]
  constructor
  all_goals
    intro hrel
    have hallOf := hrel (.str "allOf")
    rw [hnone, hall] at hallOf
    cases hallOf

variable (hs : s.Closed) (hr : s.Retains t) (h : Shows s.nodes.size t F r) (h' : Shows s.nodes.size t F' r')

include hs hr h h'

-- Two compositions of all their branches are the same if the branches of each declare the same together.
theorem sameResult_iff_alike (hn : n < s.nodes.size) (hn' : n' < s.nodes.size)
    (hall : (s.entries n).field? "allOf" = some v) (hall' : (s.entries n').field? "allOf" = some v')
    (hF : Composed n c F) (hF' : Composed n' c' F') :
    SameResult t n n' r r' ↔ c.Alike s c' := by
  rw [← hr.entries hn] at hall
  rw [← hr.entries hn'] at hall'
  cases hF with
  | kept =>
      cases h
      cases hF' with
      | kept =>
          cases h'
          exact iff_of_true (.inl ⟨rfl, rfl⟩) (.refl s _)
      | merged hne =>
          cases h' with
          | merged hd hwritten =>
              refine iff_of_false ?_ fun halike => ?_
              · rintro (⟨-, rfl⟩ | hsame)
                · exact absurd hwritten.fresh (Nat.not_le_of_lt hn')
                · exact (hwritten.not_same hd.sound hall).1 hsame
              · rw [halike.isEmpty_iff.mp (Declared.isEmpty_iff.mpr rfl)] at hne
                cases hne
  | merged hne =>
      cases h with
      | merged hd hwritten =>
          cases hF' with
          | kept =>
              cases h'
              refine iff_of_false ?_ fun halike => ?_
              · rintro (⟨rfl, -⟩ | hsame)
                · exact absurd hwritten.fresh (Nat.not_le_of_lt hn)
                · exact (hwritten.not_same hd.sound hall').2 hsame
              · rw [halike.isEmpty_iff.mpr (Declared.isEmpty_iff.mpr rfl)] at hne
                cases hne
          | merged hne' =>
              cases h' with
              | merged hd' hwritten' =>
                  rw [← hwritten.same_iff hs hr hd hd' hwritten']
                  refine or_iff_right ?_
                  rintro ⟨rfl, -⟩
                  exact absurd hwritten.fresh (Nat.not_le_of_lt hn)

theorem sameResult_of_kindOf_eq (hkind : kindOf s n' = kindOf s n)
    (hF : formAt s document maxDepth allowance depth n = .ok F)
    (hF' : formAt s document maxDepth allowance depth n' = .ok F') : SameResult t n n' r r' := by
  rcases forms_of_kindOf_eq hkind hF hF' with ⟨rfl, rfl⟩ | rfl
  · cases h
    cases h'
    exact .inl ⟨rfl, rfl⟩
  · cases h with
    | kept =>
        cases h'
        exact .inr (.refl t _)
    | merged hd hwritten =>
        cases h' with
        | merged _ hwritten' => exact .inr ((hwritten.same_iff hs hr hd hd hwritten').mpr (.refl s _))

end Results

section Transparent

variable {s : Store} {document : Option NodeId} {settings : CompositionSettings} {depth : Int} {room : Nat}
  {keyword : String} {pre post : List Value} {a b b' z n n' : NodeId}

theorem branchLeaves_of_refersTo (h : RefersTo s document b a) :
    branchLeaves s document room (pre ++ .node b :: post) =
      branchLeaves s document room pre ++ (leaves s document room a ++ branchLeaves s document room post) := by
  obtain ⟨m, hm⟩ := exists_mapping_of_refersTo h
  rw [branchLeaves_append]
  congr 1
  unfold branchLeaves
  rw [mappingsIn_cons, Store.asMapping?_eq_some.mpr ⟨rfl, hm⟩]
  dsimp only
  rw [List.flatMap_cons, followRef_of_refersTo h]

-- One schema has a branch that refers to the first component of a chain, the other one has a branch in its
-- place that refers to the last one. Merged are what the first and what the last component contribute; where
-- the branch stands for the schema, the answers are those for the first and for the last component.
theorem alias_transparent_iff (hs : s.Closed) (hdoc : ∀ d ∈ document, d < s.nodes.size)
    (hn : n < s.nodes.size) (hn' : n' < s.nodes.size) (hdepth : depth ≤ settings.maxDepth)
    (hother : OtherBranch s keyword pre post b b' n n') (hends : ChainEnds s document b b' a z) :
    Answers s document settings depth n fun r s₁ =>
      AnswersAfter s s₁ document settings depth n' fun r' s₂ =>
        if keyword = "allOf" then
          let room := Composition.room settings.maxDepth (depth + 1)
          let after := branchLeaves s document room post
          SameResult s₂ n n' r r' ↔ Declared.Exchangeable s
            ((branchLeaves s document room pre).map (declared s))
            ((leaves s document room a ++ after).map (declared s))
            ((leaves s document room z ++ after).map (declared s))
        else if pre = [] ∧ deciding? s n = some keyword then
          run s document settings (depth + 1) a = (.ok r, s₁) ∧
            run s₁ document settings (depth + 1) z = (.ok r', s₂)
        else SameResult s₂ n n' r r' := by
  refine answersAfter_of_shows hs hdoc hn (.refl s) fun r s₁ F hrun hr hshows hF => ?_
  refine answersAfter_of_shows hs hdoc hn' hr fun r' s₂ F' hrun' hr' hshows' hF' => ?_
  have hretains := hr.trans hr'
  have hshows₂ := hshows.retains hr'
  split
  · next hkeyword =>
    subst hkeyword
    obtain ⟨c, hc, hF⟩ := exists_composed_of_formAt (by omega) (kindOf_of_allOf hother.listed) hF
    obtain ⟨c', hc', hF'⟩ := exists_composed_of_formAt (by omega) (kindOf_of_allOf hother.listed') hF'
    rw [branchLeaves_of_refersTo hends.starts, List.map_append] at hc
    rw [branchLeaves_of_refersTo hends.ends, List.map_append] at hc'
    dsimp only
    rw [← hc.alike_iff hc']
    obtain ⟨v, hv, -⟩ := Option.bind_eq_some_iff.mp hother.listed
    obtain ⟨v', hv', -⟩ := Option.bind_eq_some_iff.mp hother.listed'
    exact sameResult_iff_alike hs hretains hshows₂ hshows' hn hn' hv hv' hF hF'
  next hkeyword =>
  split
  · next hdecides =>
    obtain ⟨rfl, hdeciding⟩ := hdecides
    have hkind := kindOf_of_deciding hdeciding hkeyword hother.listed (exists_mapping_of_refersTo hends.starts)
    have hkind' := kindOf_of_deciding (hother.deciding?_eq.trans hdeciding) hkeyword hother.listed'
      (exists_mapping_of_refersTo hends.ends)
    have hcall := run_of_first hdepth hkind hrun
    have hcall' := run_of_first hdepth ((kindOf_congr hs hr hn').trans hkind') hrun'
    have hb' : b' < s.nodes.size := lt_size_of_refersTo hends.ends
    rw [followRef_of_refersTo hends.starts] at hcall
    rw [followRef_congr hs hr hdoc hb', followRef_of_refersTo hends.ends] at hcall'
    exact ⟨hcall, hcall'⟩
  · next hunseen =>
    exact sameResult_of_kindOf_eq hs hretains hshows₂ hshows'
      (hother.kindOf_eq_of_unseen hkeyword hunseen) hF hF'

end Transparent

-- The component `A` refers to `B`. The only branch of one schema refers to `A`, that of another one to `B`.
def aliased : Store :=
  ⟨#[
    .ofFields [("components", .node 1)],
    .ofFields [("schemas", .node 2)],
    .ofFields [("A", .node 3), ("B", .node 4)],
    .ofFields [("$ref", .str "#/components/schemas/B")],
    .ofFields [("type", .str "string")],
    .ofFields [("allOf", .node 6)],
    .sequence [.node 7],
    .ofFields [("$ref", .str "#/components/schemas/A")],
    .ofFields [("allOf", .node 9)],
    .sequence [.node 10],
    .ofFields [("$ref", .str "#/components/schemas/B")]]⟩

theorem refersTo_aliased : RefersTo aliased (some 0) 7 3 ∧ RefersTo aliased (some 0) 3 4 ∧
    RefersTo aliased (some 0) 10 4 := by
  unfold RefersTo
  decide +kernel

theorem otherBranch_aliased : OtherBranch aliased "allOf" [] [] 7 10 5 8 where
  composed := by decide
  listed := rfl
  listed' := rfl
  other key hkey := by
    have hgroup : IsGroup aliased 5 [.node 7] := ⟨_, .node 6, rfl, rfl, rfl⟩
    have hgroup' : IsGroup aliased 8 [.node 10] := ⟨_, .node 9, rfl, rfl, rfl⟩
    rw [hgroup.field? hkey, hgroup'.field? hkey]

-- Of the two schemas, the second one is a string, the first one is only itself.
theorem aliased_not_transparent :
    ∃ r s₁ r' s₂, run aliased (some 0) {} 0 5 = (.ok r, s₁) ∧ run s₁ (some 0) {} 0 8 = (.ok r', s₂) ∧
      ¬SameResult s₂ 5 8 r r' := by
  obtain ⟨hstart, hnext, hend⟩ := refersTo_aliased
  have h := alias_transparent_iff (by decide) (by decide) (by decide) (by decide)
    (show (0 : Int) ≤ ({} : CompositionSettings).maxDepth by decide) otherBranch_aliased
    ⟨hstart, .single hnext, hend⟩
  have hreturns : (run aliased (some 0) {} 0 5).1.toOption.isSome = true ∧
      (run (run aliased (some 0) {} 0 5).2 (some 0) {} 0 8).1.toOption.isSome = true := by decide +kernel
  rcases hrun : run aliased (some 0) {} 0 5 with ⟨f | r, s₁⟩
  · rw [hrun] at hreturns
    cases hreturns.1
  rcases hrun' : run s₁ (some 0) {} 0 8 with ⟨f | r', s₂⟩
  · rw [hrun, hrun'] at hreturns
    cases hreturns.2
  unfold Answers AnswersAfter at h
  rw [hrun] at h
  dsimp only at h
  rw [hrun'] at h
  dsimp only at h
  rw [if_pos rfl] at h
  refine ⟨r, s₁, r', s₂, rfl, hrun', fun hsame => ?_⟩
  -- The reference at the start of the chain has no type, the component at its end has one.
  have htype := (h.mp hsame).given "type" fun c hc => absurd hc List.not_mem_nil
  have hleaves : leaves aliased (some 0) (room 10 (0 + 1)) 3 = [3] ∧
      leaves aliased (some 0) (room 10 (0 + 1)) 4 = [4] := by
    decide +kernel
  rw [hleaves.1, hleaves.2] at htype
  cases (Declared.rel_none_iff htype).mp rfl

end ApiGraph.Composition
