import ApiGraph.Proofs.Schema.Flattening

namespace ApiGraph.Composition

-- One thing that a schema can declare: a facet or the items, a property or a required name.
inductive Declaration where
  | given (key : String)
  | property (name : Key)
  | required (name : Value)

namespace Declared

def Has (s : Store) (c : Declared) : Declaration → Prop
  | .given key => (c.given key).isSome = true
  | .property name => ∃ e ∈ c.properties, (e.1 == name) = true
  | .required name => Covers s.Same c.required name

variable {s : Store} {c : Declared} {cs : List Declared} {x : Declaration}

theorem Merges.has_iff (h : c.Merges s cs) : c.Has s x ↔ ∃ c' ∈ cs, c'.Has s x := by
  cases x with
  | given key =>
      show (c.given key).isSome = true ↔ _
      rw [h.given, List.findSome?_isSome_iff]
      rfl
  | property name =>
      show Covers SameKey c.properties (name, .null) ↔ _
      rw [h.properties.covers SameKey.trans, covers_flatMap]
      rfl
  | required name =>
      show Covers s.Same c.required name ↔ _
      rw [h.required.covers s.same_trans, covers_flatMap]
      rfl

theorem isEmpty_iff_has : c.isEmpty = true ↔ ∀ x, ¬c.Has s x := by
  rw [isEmpty_iff]
  refine ⟨?_, fun h => Declared.ext (funext fun key => ?_) ?_ ?_⟩
  · rintro rfl (key | name | name)
    · exact Bool.false_ne_true
    · rintro ⟨e, he, -⟩
      cases he
    · rintro ⟨v, hv, -⟩
      cases hv
  · exact Option.not_isSome_iff_eq_none.mp (h (.given key))
  · refine List.eq_nil_iff_forall_not_mem.mpr fun e he => h (.property e.1) ⟨e, he, ?_⟩
    exact BEq.rfl
  · exact List.eq_nil_iff_forall_not_mem.mpr fun v hv => h (.required v) ⟨v, hv, .refl s v⟩

end Declared

-- What the schema stands for declares this, if the call for it returns.
def FormDeclares (s : Store) (document : Option NodeId) (settings : CompositionSettings) (depth : Int)
    (schema : NodeId) (x : Declaration) : Prop :=
  ∃ r s', run s document settings depth schema = (.ok r, s') ∧ (declared s' r).Has s x

section Forms

variable {s s₁ : Store} {document : Option NodeId} {settings : CompositionSettings} {depth : Int}
  {allowance : Nat} {n r : NodeId} {branches ls : List NodeId} {l : List Value} {F : Form} {x : Declaration}

theorem Flat.has_iff (h : Flat s F ls) : (F.declared s).Has s x ↔ ∃ l ∈ ls, (declared s l).Has s x := by
  cases h with
  | kept n =>
      simp only [List.mem_singleton, exists_eq_left]
      rfl
  | merged _ h =>
      refine h.has_iff.trans ?_
      simp only [List.mem_map, exists_exists_and_eq_and]

theorem contributes_iff : contributes s n = true ↔ ∃ x, (declared s n).Has s x := by
  unfold contributes
  rw [Bool.not_eq_true', ← Bool.not_eq_true, Declared.isEmpty_iff_has (s := s)]
  simp only [not_forall, not_not]

-- What a run returns shows the form.
theorem formDeclares_iff (hs : s.Closed) (hdoc : ∀ d ∈ document, d < s.nodes.size) (hn : n < s.nodes.size) :
    FormDeclares s document settings depth n x ↔
      ∃ F, formAt s document settings.maxDepth nestingAllowance depth n = .ok F ∧ (F.declared s).Has s x := by
  unfold FormDeclares
  rcases run_cases hs hdoc hn (.refl s) with ⟨f, s', hrun, -, hf⟩ | ⟨r, s', F, hrun, hr, hF, hshows⟩
  · rw [hrun, hf]
    simp
  · rw [hrun, hF]
    simp [hshows.declared hs hr]

theorem exists_form_of_mergeForms {form : NodeId → Except Fault Form} {d d' : Draft}
    (h : mergeForms s form branches d = .ok d') : ∀ b ∈ branches, ∃ F, form b = .ok F := by
  induction branches generalizing d with
  | nil => simp
  | cons b rest ih =>
      obtain ⟨F, taken, hF, -, hrest⟩ := exists_of_mergeForms_cons h
      exact List.forall_mem_cons.mpr ⟨⟨F, hF⟩, ih hrest⟩

-- A call that returns has returned from all its branches.
theorem exists_form_of_branch {maxDepth : Int} (hdepth : ¬maxDepth < depth)
    (h : formAt s document maxDepth allowance depth n = .ok F) :
    ∀ b ∈ (kindOf s n).branches,
      ∃ G, formAt s document maxDepth allowance (depth + 1) (followRef s document b) = .ok G := by
  cases allowance with
  | zero => cases h
  | succ allowance =>
      rw [formAt, if_neg hdepth] at h
      intro b hb
      suffices hform : ∃ G, formAt s document maxDepth allowance (depth + 1) (followRef s document b) = .ok G by
        obtain ⟨G, hG⟩ := hform
        exact ⟨G, formAt_mono hG (Nat.le_succ _)⟩
      split at h
      · next branches hkind =>
        rw [hkind] at hb
        obtain ⟨d, hd, -⟩ := map_eq_ok.mp h
        exact exists_form_of_mergeForms hd b hb
      · next b' hkind =>
        rw [hkind] at hb
        obtain rfl := List.mem_singleton.mp hb
        exact ⟨F, h⟩
      · next hkind =>
        rw [hkind] at hb
        cases hb

variable (hs : s.Closed) (hdoc : ∀ d ∈ document, d < s.nodes.size)

include hs hdoc

theorem formDeclares_iff_has (hn : n < s.nodes.size)
    (h : formAt s document settings.maxDepth nestingAllowance depth n = .ok F) :
    FormDeclares s document settings depth n x ↔ (F.declared s).Has s x := by
  rw [formDeclares_iff hs hdoc hn]
  simp [h]

theorem has_iff_of_all (hdepth : ¬settings.maxDepth < depth) (hkind : kindOf s n = .all branches)
    (h : formAt s document settings.maxDepth nestingAllowance depth n = .ok F) :
    (F.declared s).Has s x ↔
      (∃ b ∈ branches, FormDeclares s document settings (depth + 1) (followRef s document b) x) ∨
      (∀ b ∈ branches, ∀ y, ¬FormDeclares s document settings (depth + 1) (followRef s document b) y) ∧
        (declared s n).Has s x := by
  have hbranch (y : Declaration) :
      (∃ b ∈ branches, FormDeclares s document settings (depth + 1) (followRef s document b) y) ↔
      ∃ l ∈ branches.flatMap fun b =>
        leaves s document (room settings.maxDepth (depth + 1)) (followRef s document b),
          (declared s l).Has s y := by
    have hiff (b : NodeId) (hb : b ∈ branches) :
        FormDeclares s document settings (depth + 1) (followRef s document b) y ↔
          ∃ l ∈ leaves s document (room settings.maxDepth (depth + 1)) (followRef s document b),
            (declared s l).Has s y := by
      have hb' : b ∈ (kindOf s n).branches := by rwa [hkind]
      obtain ⟨G, hG⟩ := exists_form_of_branch hdepth h b hb'
      have hlt : followRef s document b < s.nodes.size :=
        lt_size_of_followRef (lt_size_of_mem_branches hb')
      exact (formDeclares_iff_has hs hdoc hlt hG).trans (flat_formAt hG).has_iff
    constructor
    · rintro ⟨b, hb, hy⟩
      obtain ⟨l, hl, hy⟩ := (hiff b hb).mp hy
      exact ⟨l, List.mem_flatMap_of_mem hb hl, hy⟩
    · rintro ⟨l, hl, hy⟩
      obtain ⟨b, hb, hl⟩ := List.mem_flatMap.mp hl
      exact ⟨b, hb, (hiff b hb).mpr ⟨l, hl, hy⟩⟩
  have hform := of_formAt_all hdepth hkind rfl h
  split at hform
  · next hany =>
    obtain ⟨d, rfl, hflat⟩ := hform
    rw [hflat.has_iff, hbranch]
    refine ⟨.inl, fun hx => hx.elim id fun hnone => ?_⟩
    obtain ⟨l, hl, hcontributes⟩ := List.any_eq_true.mp hany
    obtain ⟨y, hy⟩ := contributes_iff.mp hcontributes
    obtain ⟨b, hb, hy⟩ := (hbranch y).mpr ⟨l, hl, hy⟩
    exact absurd hy (hnone.1 b hb y)
  · next hnone =>
    subst hform
    rw [Bool.not_eq_true, any_contributes_eq_false] at hnone
    constructor
    · intro hx
      refine .inr ⟨?_, hx⟩
      intro b hb y hy
      obtain ⟨l, hl, hy⟩ := (hbranch y).mp ⟨b, hb, hy⟩
      exact Declared.isEmpty_iff_has.mp (hnone l hl) y hy
    · rintro (hx | ⟨-, hx⟩)
      · obtain ⟨l, hl, hx⟩ := (hbranch x).mp hx
        exact absurd hx (Declared.isEmpty_iff_has.mp (hnone l hl) x)
      · exact hx

end Forms

section Widened

variable (s : Store) (document document' : Option NodeId) (settings : CompositionSettings)

-- The second schema is the first one where some branches declare more, or where there are more of them: the
-- schema itself, its branches or those within them.
inductive Widened : Int → NodeId → NodeId → Prop
  | more {depth : Int} {n n' : NodeId}
      (h : ∀ x, FormDeclares s document settings depth n x → FormDeclares s document' settings depth n' x) :
      Widened depth n n'
  | all {depth : Int} {n n' : NodeId} {bs bs' : List NodeId} (hkind : kindOf s n = .all bs)
      (hkind' : kindOf s n' = .all bs') (hown : ∀ x, (declared s n).Has s x → (declared s n').Has s x)
      (hlength : bs.length ≤ bs'.length)
      (h : ∀ e ∈ bs.zip bs', Widened (depth + 1) (followRef s document e.1) (followRef s document' e.2)) :
      Widened depth n n'
  | first {depth : Int} {n n' b b' : NodeId} (hkind : kindOf s n = .first b)
      (hkind' : kindOf s n' = .first b') (hown : ∀ x, (declared s n).Has s x → (declared s n').Has s x)
      (h : Widened (depth + 1) (followRef s document b) (followRef s document' b')) : Widened depth n n'

-- Stands beside branches none of which declared anything, and of which one does so now.
inductive Displaced : Int → NodeId → NodeId → Declaration → Prop
  | here {depth : Int} {n n' : NodeId} {bs bs' : List NodeId} {x : Declaration}
      (hkind : kindOf s n = .all bs) (hkind' : kindOf s n' = .all bs')
      (hsilent : ∀ b ∈ bs, ∀ y, ¬FormDeclares s document settings (depth + 1) (followRef s document b) y)
      (hnow : ∃ b ∈ bs', ∃ y, FormDeclares s document' settings (depth + 1) (followRef s document' b) y)
      (hown : (declared s n).Has s x) : Displaced depth n n' x
  | all {depth : Int} {n n' : NodeId} {bs bs' : List NodeId} {e : NodeId × NodeId} {x : Declaration}
      (hkind : kindOf s n = .all bs) (hkind' : kindOf s n' = .all bs') (he : e ∈ bs.zip bs')
      (h : Displaced (depth + 1) (followRef s document e.1) (followRef s document' e.2) x) :
      Displaced depth n n' x
  | first {depth : Int} {n n' b b' : NodeId} {x : Declaration} (hkind : kindOf s n = .first b)
      (hkind' : kindOf s n' = .first b')
      (h : Displaced (depth + 1) (followRef s document b) (followRef s document' b') x) :
      Displaced depth n n' x

variable {s document document' settings}
variable {depth : Int} {n n' : NodeId} {F F' : Form} {x : Declaration}

theorem eq_kept_of_lt {maxDepth : Int} {allowance : Nat} (hdepth : maxDepth < depth)
    (h : formAt s document maxDepth allowance depth n = .ok F) : F = .kept n := by
  cases allowance with
  | zero => cases h
  | succ allowance =>
      rw [formAt, if_pos hdepth] at h
      cases h
      rfl

-- The first branch gives the form of the schema.
theorem formAt_of_first {maxDepth : Int} {allowance : Nat} {b : NodeId} (hdepth : ¬maxDepth < depth)
    (hkind : kindOf s n = .first b) (h : formAt s document maxDepth allowance depth n = .ok F) :
    formAt s document maxDepth allowance (depth + 1) (followRef s document b) = .ok F := by
  cases allowance with
  | zero => cases h
  | succ allowance =>
      rw [formAt, if_neg hdepth, hkind] at h
      exact formAt_mono h (Nat.le_succ _)

theorem exists_mem_zip {α β : Type} {as : List α} {bs : List β} (hlength : as.length ≤ bs.length) {a : α}
    (ha : a ∈ as) : ∃ b ∈ bs, (a, b) ∈ as.zip bs := by
  obtain ⟨i, hi, rfl⟩ := List.getElem_of_mem ha
  have hi' : i < bs.length := Nat.lt_of_lt_of_le hi hlength
  refine ⟨bs[i], List.getElem_mem hi', List.mem_iff_getElem.mpr ⟨i, ?_, List.getElem_zip⟩⟩
  rw [List.length_zip]
  omega

theorem Widened.has (h : Widened s document document' settings depth n n') (hs : s.Closed)
    (hdoc : ∀ d ∈ document, d < s.nodes.size) (hdoc' : ∀ d ∈ document', d < s.nodes.size)
    (hn : n < s.nodes.size) (hn' : n' < s.nodes.size)
    (hF : formAt s document settings.maxDepth nestingAllowance depth n = .ok F)
    (hF' : formAt s document' settings.maxDepth nestingAllowance depth n' = .ok F')
    (hx : (F.declared s).Has s x) :
    (F'.declared s).Has s x ∨ Displaced s document document' settings depth n n' x := by
  induction h generalizing F F' with
  | @more depth n n' h =>
      have hdeclares := h x ((formDeclares_iff_has hs hdoc hn hF).mpr hx)
      exact .inl ((formDeclares_iff_has hs hdoc' hn' hF').mp hdeclares)
  | @all depth n n' bs bs' hkind hkind' hown hlength h ih =>
      by_cases hdepth : settings.maxDepth < depth
      · rw [eq_kept_of_lt hdepth hF] at hx
        rw [eq_kept_of_lt hdepth hF']
        exact .inl (hown x hx)
      rw [has_iff_of_all hs hdoc hdepth hkind hF] at hx
      rw [has_iff_of_all hs hdoc' hdepth hkind' hF']
      rcases hx with ⟨b, hb, hx⟩ | ⟨hsilent, hx⟩
      · obtain ⟨b', hb', he⟩ := exists_mem_zip hlength hb
        have hbranch : b ∈ (kindOf s n).branches := by rwa [hkind]
        have hbranch' : b' ∈ (kindOf s n').branches := by rwa [hkind']
        have hlt : followRef s document b < s.nodes.size := lt_size_of_followRef (lt_size_of_mem_branches hbranch)
        have hlt' : followRef s document' b' < s.nodes.size :=
          lt_size_of_followRef (lt_size_of_mem_branches hbranch')
        obtain ⟨G, hG⟩ := exists_form_of_branch hdepth hF b hbranch
        obtain ⟨G', hG'⟩ := exists_form_of_branch hdepth hF' b' hbranch'
        rcases ih _ he hlt hlt' hG hG' ((formDeclares_iff_has hs hdoc hlt hG).mp hx) with hx' | hx'
        · exact .inl (.inl ⟨b', hb', (formDeclares_iff_has hs hdoc' hlt' hG').mpr hx'⟩)
        · exact .inr (.all hkind hkind' he hx')
      · by_cases hnow : ∃ b ∈ bs', ∃ y, FormDeclares s document' settings (depth + 1) (followRef s document' b) y
        · exact .inr (.here hkind hkind' hsilent hnow hx)
        · refine .inl (.inr ⟨fun b hb y hy => hnow ⟨b, hb, y, hy⟩, hown x hx⟩)
  | @first depth n n' b b' hkind hkind' hown h ih =>
      by_cases hdepth : settings.maxDepth < depth
      · rw [eq_kept_of_lt hdepth hF] at hx
        rw [eq_kept_of_lt hdepth hF']
        exact .inl (hown x hx)
      have hlt : followRef s document b < s.nodes.size :=
        lt_size_of_followRef (lt_size_of_mem_branches (by rw [hkind]; exact List.mem_singleton_self b))
      have hlt' : followRef s document' b' < s.nodes.size :=
        lt_size_of_followRef (lt_size_of_mem_branches (by rw [hkind']; exact List.mem_singleton_self b'))
      rcases ih hlt hlt' (formAt_of_first hdepth hkind hF) (formAt_of_first hdepth hkind' hF') hx with hx | hx
      · exact .inl hx
      · exact .inr (.first hkind hkind' hx)

variable {l : List Value}

-- A composition of all its branches declares what a branch declares in the end, and what stands beside the
-- branches if no branch declares anything. Where branches come to declare more, all that was declared still
-- is, but for what is displaced.
theorem answers_declarations (hs : s.Closed) (hdoc : ∀ d ∈ document, d < s.nodes.size)
    (hn : n < s.nodes.size) (hdepth : depth ≤ settings.maxDepth)
    (hl : ((s.entries n).field? "allOf").bind s.asSequence? = some l) :
    Answers s document settings depth n fun r s₁ =>
      (∀ x, (declared s₁ r).Has s x ↔
        (∃ b ∈ mappingsIn s l, FormDeclares s document settings (depth + 1) (followRef s document b) x) ∨
        (∀ b ∈ mappingsIn s l, ∀ y,
          ¬FormDeclares s document settings (depth + 1) (followRef s document b) y) ∧ (declared s n).Has s x) ∧
      ∀ document' n', (∀ d ∈ document', d < s.nodes.size) → n' < s.nodes.size →
        Widened s document document' settings depth n n' →
        Answers s document' settings depth n' fun r' s₂ => ∀ x, (declared s₁ r).Has s x →
          (declared s₂ r').Has s x ∨ Displaced s document document' settings depth n n' x := by
  refine answers_of_shows hs hdoc hn fun r s₁ F hr hshows hF => ?_
  rw [hshows.declared hs hr]
  refine ⟨fun x => has_iff_of_all hs hdoc (by omega) (kindOf_of_allOf hl) hF, fun document' n' hdoc' hn' hwide => ?_⟩
  refine answers_of_shows hs hdoc' hn' fun r' s₂ F' hr' hshows' hF' x hx => ?_
  rw [hshows'.declared hs hr']
  exact hwide.has hs hdoc hdoc' hn hn' hF hF' hx

end Widened

-- Two schemas with a type beside their branches. The branch of the first one declares nothing, that of the
-- second one a property.
def typeBeside : Store :=
  ⟨#[
    .ofFields [("type", .str "object"), ("allOf", .node 1)],
    .sequence [.node 2],
    .ofFields [],
    .ofFields [("type", .str "object"), ("allOf", .node 4)],
    .sequence [.node 5],
    .ofFields [("properties", .node 6)],
    .ofFields [("x", .node 2)]]⟩

theorem formDeclares_given_iff {s : Store} {document : Option NodeId} {settings : CompositionSettings}
    {depth : Int} {n : NodeId} {key : String} :
    FormDeclares s document settings depth n (.given key) ↔
      let p := run s document settings depth n
      p.1.toOption.any (fun r => ((declared p.2 r).given key).isSome) = true := by
  unfold FormDeclares
  rcases run s document settings depth n with ⟨f | r, s'⟩
  · simp [Except.toOption]
  · simp [Except.toOption, Declared.Has]

theorem silent_typeBeside : ∀ x, ¬FormDeclares typeBeside none {} 1 2 x := by
  intro x hx
  obtain ⟨F, hF, hx⟩ := (formDeclares_iff (by decide) (by decide) (by decide)).mp hx
  obtain rfl : F = .kept 2 := (Except.ok.inj hF).symm
  exact Declared.isEmpty_iff_has.mp (by decide) x hx

theorem widened_typeBeside : Widened typeBeside none none {} 0 0 3 := by
  have hown : declared typeBeside 0 = declared typeBeside 3 := by
    have hfield : ∀ key ∈ givenKeys,
        (typeBeside.entries 0).field? key = (typeBeside.entries 3).field? key := by decide
    refine Declared.ext (funext fun key => ?_) rfl rfl
    by_cases hkey : key ∈ givenKeys
    · exact (if_pos hkey).trans ((hfield key hkey).trans (if_pos hkey).symm)
    · exact (if_neg hkey).trans (if_neg hkey).symm
  have hkind : kindOf typeBeside 0 = .all [2] := by decide
  have hkind' : kindOf typeBeside 3 = .all [5] := by decide
  refine .all hkind hkind' (fun x hx => hown ▸ hx) (Nat.le_refl 1) fun e he => ?_
  obtain rfl := List.mem_singleton.mp he
  exact .more fun x hx => absurd hx (silent_typeBeside x)

-- The type beside the branches is lost, also where it was kept before the branch declared anything.
theorem typeBeside_lost :
    typeBeside.Closed ∧ below typeBeside none (room 10 0) 3 = true ∧
      (run typeBeside none {} 0 3).1.toOption.isSome = true ∧
      (declared typeBeside 3).Has typeBeside (.given "type") ∧
      ¬FormDeclares typeBeside none {} 0 3 (.given "type") ∧
      FormDeclares typeBeside none {} 0 0 (.given "type") ∧ Widened typeBeside none none {} 0 0 3 := by
  refine ⟨by decide, by decide, by decide, rfl, ?_, ?_, widened_typeBeside⟩
  · rw [formDeclares_given_iff]
    decide
  · rw [formDeclares_given_iff]
    decide

theorem typeBeside_displaced :
    Answers typeBeside none {} 0 0 fun r s₁ => (declared s₁ r).Has typeBeside (.given "type") ∧
      Answers typeBeside none {} 0 3 fun r' s₂ => (declared s₂ r').Has typeBeside (.given "type") ∨
        Displaced typeBeside none none {} 0 0 3 (.given "type") := by
  refine (answers_declarations (by decide) (by decide) (by decide) (by decide)
    (show _ = some [.node 2] from rfl)).mono fun r s₁ ⟨hiff, hwide⟩ => ?_
  have hkept : (declared s₁ r).Has typeBeside (.given "type") := by
    refine (hiff _).mpr (.inr ⟨fun b hb y => ?_, rfl⟩)
    obtain rfl := List.mem_singleton.mp hb
    exact silent_typeBeside y
  exact ⟨hkept, (hwide none 3 (by decide) (by decide) widened_typeBeside).mono fun r' s₂ h => h _ hkept⟩

end ApiGraph.Composition
