import ApiGraph.Proofs.Alike
import ApiGraph.Proofs.Schema.Forms

namespace ApiGraph.Composition

def Slot.value (properties required : NodeId) : Slot → Value
  | .given v => v
  | .properties => .node properties
  | .required => .node required

-- The draft stands in the store, in containers that come after the first ones.
structure Draft.Written (d : Draft) (size : Nat) (s : Store) (properties required r : NodeId) : Prop where
  fresh : size ≤ r
  mapping : s.mapping? r = some (d.slots.mapValues (Slot.value properties required))
  properties : d.slots.contains (.str "properties") = true →
    size ≤ properties ∧ properties ≠ r ∧ s.mapping? properties = some d.properties
  required : d.slots.contains (.str "required") = true →
    size ≤ required ∧ required ≠ r ∧ s.sequence? required = some d.required

-- The container stands for the form.
inductive Shows (size : Nat) (s : Store) : Form → NodeId → Prop
  | kept {schema : NodeId} (h : schema < size) : Shows size s (.kept schema) schema
  | merged {d : Draft} {properties required r : NodeId} (hd : d.Fit size)
      (h : d.Written size s properties required r) : Shows size s (.merged d) r

section Finish

variable {s s₁ s₂ : Store} {d : Draft} {size : Nat} {p q r : NodeId} {F : Form}

theorem Draft.Written.retains (h : d.Written size s₁ p q r) (hr : s₁.Retains s₂) :
    d.Written size s₂ p q r where
  fresh := h.fresh
  mapping := by rw [hr.mapping? (Store.lt_size_of_mapping? h.mapping), h.mapping]
  properties hc := by
    obtain ⟨hfresh, hne, hp⟩ := h.properties hc
    exact ⟨hfresh, hne, by rw [hr.mapping? (Store.lt_size_of_mapping? hp), hp]⟩
  required hc := by
    obtain ⟨hfresh, hne, hq⟩ := h.required hc
    exact ⟨hfresh, hne, by rw [hr.sequence? (Store.lt_size_of_get? (Store.sequence?_eq_some.mp hq)), hq]⟩

theorem Shows.retains (h : Shows size s₁ F r) (hr : s₁.Retains s₂) : Shows size s₂ F r := by
  cases h with
  | kept h => exact .kept h
  | merged hd h => exact .merged hd (h.retains hr)

-- A container that is added only where it is needed.
theorem alloc_of {b : Bool} {c : Container} {id : NodeId}
    (h : (if b = true then s.alloc c else (0, s)) = (id, s₁)) :
    s.Retains s₁ ∧ (b = true → s.nodes.size ≤ id ∧ s₁.get? id = some c) := by
  cases b with
  | true =>
      obtain ⟨rfl, rfl⟩ := Prod.mk.inj (h : s.alloc c = (id, s₁))
      exact ⟨(Store.Retains.refl s).alloc c, fun _ => ⟨Nat.le_refl _, Store.get?_alloc_self s c⟩⟩
  | false =>
      obtain ⟨rfl, rfl⟩ := Prod.mk.inj (h : (0, s) = (id, s₁))
      exact ⟨.refl s, fun hb => absurd hb (by simp)⟩

theorem written_finish (hsize : size ≤ s.nodes.size) (h : d.finish s = (r, s₁)) :
    s.Retains s₁ ∧ ∃ p q, d.Written size s₁ p q r := by
  unfold Draft.finish at h
  generalize hp : (if d.slots.contains (.str "properties") = true then s.alloc (.mapping d.properties)
    else (0, s)) = first at h
  obtain ⟨p, s₂⟩ := first
  dsimp only at h
  generalize hq : (if d.slots.contains (.str "required") = true then s₂.alloc (.sequence d.required)
    else (0, s₂)) = second at h
  obtain ⟨q, s₃⟩ := second
  obtain ⟨hretains, hproperties⟩ := alloc_of hp
  obtain ⟨hretains', hrequired⟩ := alloc_of hq
  replace h : s₃.alloc (.mapping (d.slots.mapValues (Slot.value p q))) = (r, s₁) := h
  have hlast := (Store.Retains.refl s₃).alloc (.mapping (d.slots.mapValues (Slot.value p q)))
  have hmapping : (s₃.alloc _).2.mapping? s₃.nodes.size = some (d.slots.mapValues (Slot.value p q)) :=
    Store.mapping?_alloc_self
  obtain rfl : s₃.nodes.size = r := congrArg Prod.fst h
  rw [h] at hlast hmapping
  have hle := hretains.size
  have hle' := hretains'.size
  refine ⟨(hretains.trans hretains').trans hlast, p, q, Nat.le_trans hsize (Nat.le_trans hle hle'),
    hmapping, ?_, ?_⟩
  · intro hc
    obtain ⟨hfresh, hget⟩ := hproperties hc
    have hlt := Store.lt_size_of_get? hget
    have hlt' : p < s₃.nodes.size := Nat.lt_of_lt_of_le hlt hle'
    refine ⟨Nat.le_trans hsize hfresh, Nat.ne_of_lt hlt', ?_⟩
    rw [hlast.mapping? hlt', hretains'.mapping? hlt]
    exact Store.mapping?_eq_some.mpr hget
  · intro hc
    obtain ⟨hfresh, hget⟩ := hrequired hc
    have hlt := Store.lt_size_of_get? hget
    refine ⟨Nat.le_trans hsize (Nat.le_trans hle hfresh), Nat.ne_of_lt hlt, ?_⟩
    rw [hlast.sequence? hlt]
    exact Store.sequence?_eq_some.mpr hget

theorem Draft.Written.field? (hd : d.Sound) (h : d.Written size s₁ p q r) (key : String) :
    (s₁.entries r).field? key = (d.declared.slot? key).map (Slot.value p q) := by
  rw [Store.entries_of_mapping? h.mapping]
  show (d.slots.mapValues _).get? (.str key) = _
  rw [OrderedMap.get?_mapValues, hd, Key.string?_eq_some.mpr rfl]
  rfl

theorem Draft.Sound.contains (hd : d.Sound) (key : String) :
    d.slots.contains (.str key) = (d.declared.slot? key).isSome := by
  rw [OrderedMap.contains_eq_isSome_get?, hd, Key.string?_eq_some.mpr rfl]
  rfl

theorem Draft.map_slot?_properties : (d.declared.slot? "properties").map (Slot.value p q) =
    if d.properties.isEmpty = true then none else some (.node p) := by
  show Option.map _ (if d.properties.isEmpty = true then none else some Slot.properties) = _
  split <;> rfl

theorem Draft.map_slot?_required : (d.declared.slot? "required").map (Slot.value p q) =
    if d.required.isEmpty = true then none else some (.node q) := by
  show Option.map _ (if d.required.isEmpty = true then none else some Slot.required) = _
  split <;> rfl

theorem Draft.Written.mapping?_properties (hd : d.Sound) (h : d.Written size s₁ p q r)
    (he : d.properties.isEmpty = false) : s₁.mapping? p = some d.properties := by
  refine (h.properties ?_).2.2
  rw [hd.contains]
  show (if d.properties.isEmpty = true then none else some Slot.properties).isSome = true
  rw [he]
  rfl

theorem Draft.Written.sequence?_required (hd : d.Sound) (h : d.Written size s₁ p q r)
    (he : d.required.isEmpty = false) : s₁.sequence? q = some d.required := by
  refine (h.required ?_).2.2
  rw [hd.contains]
  show (if d.required.isEmpty = true then none else some Slot.required).isSome = true
  rw [he]
  rfl

-- The new mapping declares what was collected.
theorem Draft.Written.declared (hd : d.Sound) (h : d.Written size s₁ p q r) :
    Composition.declared s₁ r = d.declared := by
  refine Declared.ext (funext fun key => ?_) ?_ ?_
  · by_cases hkey : key ∈ givenKeys
    · have hgiven : (Composition.declared s₁ r).given key = (s₁.entries r).field? key := if_pos hkey
      rw [hgiven, h.field? hd, Declared.slot?_of_mem hkey, Option.map_map]
      exact Option.map_id'
    · rw [(Composition.declared s₁ r).confined key hkey, d.declared.confined key hkey]
  · show ((((s₁.entries r).field? "properties").bind s₁.asMapping?).map fun e => e.2.entries).getD [] = _
    rw [h.field? hd, map_slot?_properties]
    cases he : d.properties.isEmpty with
    | true => exact (List.isEmpty_iff.mp he).symm
    | false =>
        show ((s₁.asMapping? (.node p)).map fun e => e.2.entries).getD [] = _
        rw [Store.asMapping?_eq_some.mpr ⟨rfl, h.mapping?_properties hd he⟩]
        rfl
  · show (((s₁.entries r).field? "required").bind s₁.asSequence?).getD [] = _
    rw [h.field? hd, map_slot?_required]
    cases he : d.required.isEmpty with
    | true => exact (List.isEmpty_iff.mp he).symm
    | false =>
        show (s₁.sequence? q).getD [] = _
        rw [h.sequence?_required hd he]
        rfl

theorem Shows.declared (hs : s.Closed) (hr : s.Retains s₁) (h : Shows s.nodes.size s₁ F r) :
    Composition.declared s₁ r = F.declared s := by
  cases h with
  | kept h => exact declared_congr hs hr h
  | merged hd h => exact h.declared hd.sound

end Finish

section Run

variable {s s₁ : Store} {document : Option NodeId} {settings : CompositionSettings} {maxDepth depth : Int}
  {allowance : Nat} {n : NodeId}
  {d : Draft} {l : List Value} {form : NodeId → Compose NodeId} {formOf : NodeId → Except Fault Form}

-- The program does nothing to what was there and answers as the form does.
def Follows (s : Store) (x : Compose NodeId) (F : Except Fault Form) : Prop :=
  ∀ s₁, s.Retains s₁ → Ensures x s₁
    (fun r s₂ => s₁.Retains s₂ ∧ ∃ G, F = .ok G ∧ Shows s.nodes.size s₂ G r)
    (fun f s₂ => s₁.Retains s₂ ∧ F = .error f)

theorem follows_pure (hn : n < s.nodes.size) : Follows s (pure n) (.ok (.kept n)) := by
  intro s₁ _
  rw [ensures_pure]
  exact ⟨.refl s₁, _, rfl, .kept hn⟩

theorem mappingsIn_cons {v : Value} : mappingsIn s (v :: l) =
    match s.asMapping? v with
    | some (b, _) => b :: mappingsIn s l
    | none => mappingsIn s l := by
  unfold mappingsIn
  rw [List.filterMap_cons]
  cases s.asMapping? v <;> rfl

-- What shows a form is taken into a draft as the form is.
theorem Draft.absorb_of_shows {F : Form} {r : NodeId} (hs : s.Closed) (hr : s.Retains s₁)
    (hd : d.Fit s.nodes.size) (hF : F.Fit s.nodes.size) (hshows : Shows s.nodes.size s₁ F r) :
    d.absorb s₁ (s₁.entries r) = d.take s (F.declared s) := by
  have hwithin : ∀ v ∈ d.required ++ (F.declared s).required, v.within s.nodes.size = true := by
    intro v hv
    rcases List.mem_append.mp hv with hv | hv
    · exact hd.within.required v hv
    · exact (hF.within hs).required v hv
  rw [Draft.absorb_eq]
  show d.take s₁ (Composition.declared s₁ r) = _
  rw [hshows.declared hs hr, Draft.take_congr hs hr hwithin]

-- The branches are merged as their forms are.
theorem ensures_merge (hs : s.Closed) (hform : ∀ b ∈ mappingsIn s l, Follows s (form b) (formOf b))
    (hfit : ∀ b ∈ mappingsIn s l, ∀ F, formOf b = .ok F → F.Fit s.nodes.size)
    (hl : ∀ v ∈ l, v.within s.nodes.size = true) (hd : d.Fit s.nodes.size) (hr : s.Retains s₁) :
    Ensures (merge form l d) s₁
      (fun d' s₂ => s₁.Retains s₂ ∧ mergeForms s formOf (mappingsIn s l) d = .ok d')
      (fun f s₂ => s₁.Retains s₂ ∧ mergeForms s formOf (mappingsIn s l) d = .error f) := by
  induction l generalizing d s₁ with
  | nil =>
      rw [merge, ensures_pure]
      exact ⟨.refl s₁, rfl⟩
  | cons v rest ih =>
      have hrest : ∀ w ∈ rest, w.within s.nodes.size = true := fun w hw => hl w (List.mem_cons_of_mem _ hw)
      rw [mappingsIn_cons] at hform hfit ⊢
      rw [merge]
      simp only [ensures_bind, ensures_get]
      rw [hr.asMapping? (hl v List.mem_cons_self)]
      cases hv : s.asMapping? v with
      | none =>
          rw [hv] at hform hfit
          exact ih hform hfit hrest hd hr
      | some e =>
          obtain ⟨b, m⟩ := e
          rw [hv] at hform hfit
          simp only [ensures_bind, ensures_get]
          refine (hform b List.mem_cons_self s₁ hr).mono ?_ ?_
          · rintro r s₂ ⟨hr₂, F, hF, hshows⟩
            have hr' := hr.trans hr₂
            have hfitF := hfit b List.mem_cons_self F hF
            rw [Draft.absorb_of_shows hs hr' hd hfitF hshows]
            refine ensures_lift ?_ ?_
            · intro taken htaken
              refine (ih (fun b' hb' => hform b' (List.mem_cons_of_mem _ hb'))
                (fun b' hb' => hfit b' (List.mem_cons_of_mem _ hb')) hrest
                (hd.take (hfitF.within hs) htaken) hr').mono ?_ ?_
              · rintro d' s₃ ⟨hr₃, hmerge⟩
                exact ⟨hr₂.trans hr₃, (mergeForms_cons_of_take hF htaken).trans hmerge⟩
              · rintro f s₃ ⟨hr₃, hmerge⟩
                exact ⟨hr₂.trans hr₃, (mergeForms_cons_of_take hF htaken).trans hmerge⟩
            · intro f hf
              refine ⟨hr₂, ?_⟩
              rw [mergeForms_cons, hF]
              show (d.take s (F.declared s) >>= fun d => mergeForms s formOf _ d) = _
              rw [hf]
              rfl
          · rintro f s₂ ⟨hr₂, hf⟩
            refine ⟨hr₂, ?_⟩
            rw [mergeForms_cons, hf]
            rfl

theorem kindOf_of_has_allOf (h : (s.entries n).has "allOf" = true) :
    kindOf s n = .all (mappingsIn s ((((s.entries n).field? "allOf").bind s.asSequence?).getD [])) :=
  if_pos h

theorem has_allOf_of_kindOf {branches : List NodeId} (h : kindOf s n = .all branches) :
    (s.entries n).has "allOf" = true := by
  unfold kindOf at h
  dsimp only at h
  split at h
  · assumption
  split at h
  · cases h
  split at h <;> cases h

-- A schema that is not composed of all its branches stands for its first branch or for itself.
theorem run_effectiveAt_of_not_has (hdepth : ¬maxDepth < depth) (hall : ¬(s.entries n).has "allOf" = true) :
    (effectiveAt document maxDepth (allowance + 1) depth n).run.run s =
      ((kindOf s n).branches.head?.elim (pure n) fun b =>
        effectiveAt document maxDepth allowance (depth + 1) (followRef s document b)).run.run s := by
  rw [show kindOf s n = _ from if_neg hall, effectiveAt, if_neg hdepth, run_get_bind]
  dsimp only
  rw [if_neg hall]
  cases choice? (s.entries n) with
  | none => rfl
  | some keyword =>
      dsimp only
      cases (((s.entries n).field? keyword).bind s.asSequence?).bind List.head? with
      | none => rfl
      | some v =>
          rw [Option.bind_some]
          dsimp only
          cases s.asMapping? v <;> rfl

theorem follows_effectiveAt (hs : s.Closed) (hdoc : ∀ d ∈ document, d < s.nodes.size)
    (hn : n < s.nodes.size) : Follows s (effectiveAt document maxDepth allowance depth n)
      (formAt s document maxDepth allowance depth n) := by
  induction allowance generalizing depth n with
  | zero =>
      intro s₁ _
      exact ensures_throw.mpr ⟨.refl s₁, rfl⟩
  | succ allowance ih =>
      intro s₁ hr
      have hbranch (b : NodeId) (hb : b < s.nodes.size) :
          Follows s (effectiveAt document maxDepth allowance (depth + 1) (followRef s₁ document b))
            (formAt s document maxDepth allowance (depth + 1) (followRef s document b)) := by
        rw [followRef_congr hs hr hdoc hb]
        exact ih (lt_size_of_followRef hb)
      rw [formAt]
      by_cases hdepth : maxDepth < depth
      · rw [effectiveAt, if_pos hdepth, if_pos hdepth]
        exact follows_pure hn s₁ hr
      rw [if_neg hdepth]
      by_cases hall : (s.entries n).has "allOf" = true
      · rw [effectiveAt, if_neg hdepth]
        simp only [ensures_bind, ensures_get, hr.entries hn]
        have hseq := hr.listed hs hn "allOf"
        rw [hr.entries hn] at hseq
        rw [if_pos hall, kindOf_of_has_allOf hall, hseq]
        cases hl : ((s.entries n).field? "allOf").bind s.asSequence? with
        | none => exact follows_pure hn s₁ hr
        | some l =>
            dsimp only
            rw [ensures_bind]
            have hform : ∀ b ∈ mappingsIn s l, _ := fun b hb => hbranch b (lt_size_of_mem_mappingsIn hb)
            refine (ensures_merge hs hform (fun b hb F hF => fit_formAt hs
              (lt_size_of_followRef (lt_size_of_mem_mappingsIn hb)) hF)
              (Store.within_of_listed hs hl) Draft.fit_empty hr).mono ?_ ?_
            · rintro d s₂ ⟨hr₂, hmerge⟩
              rw [Option.getD_some, hmerge]
              have hfit : d.Fit s.nodes.size := fit_mergeForms hs (fun b hb F hF => fit_formAt hs
                (lt_size_of_followRef (lt_size_of_mem_mappingsIn hb)) hF) Draft.fit_empty hmerge
              by_cases hempty : d.slots.isEmpty = true
              · rw [if_pos hempty, ensures_pure]
                exact ⟨hr₂, _, congrArg Except.ok (if_pos hempty), .kept hn⟩
              · rw [if_neg hempty]
                obtain ⟨hr₃, p, q, hwritten⟩ := written_finish (hr.trans hr₂).size
                  (Prod.eta (d.finish s₂)).symm
                simp only [ensures_bind, ensures_get, ensures_set, ensures_pure]
                exact ⟨hr₂.trans hr₃, _, congrArg Except.ok (if_neg hempty), .merged hfit hwritten⟩
            · rintro f s₂ ⟨hr₂, hmerge⟩
              rw [Option.getD_some, hmerge]
              exact ⟨hr₂, rfl⟩
      · have hall₁ : ¬(s₁.entries n).has "allOf" = true := by rwa [hr.entries hn]
        rw [ensures_congr (run_effectiveAt_of_not_has hdepth hall₁), kindOf_congr hs hr hn]
        cases hkind : kindOf s n with
        | all branches => exact absurd (has_allOf_of_kindOf hkind) hall
        | first b =>
            exact hbranch b (lt_size_of_mem_branches (by rw [hkind]; exact List.mem_singleton_self b)) s₁ hr
        | plain => exact follows_pure hn s₁ hr

-- How a call ends, from any store that has kept the old containers.
theorem run_cases (hs : s.Closed) (hdoc : ∀ d ∈ document, d < s.nodes.size) (hn : n < s.nodes.size)
    (hr : s.Retains s₁) :
    (∃ f s₂, run s₁ document settings depth n = (.error f, s₂) ∧ s₁.Retains s₂ ∧
      formAt s document settings.maxDepth nestingAllowance depth n = .error f) ∨
    ∃ r s₂ F, run s₁ document settings depth n = (.ok r, s₂) ∧ s₁.Retains s₂ ∧
      formAt s document settings.maxDepth nestingAllowance depth n = .ok F ∧ Shows s.nodes.size s₂ F r := by
  have hfollows : Ensures (effectiveAt document settings.maxDepth nestingAllowance depth n) s₁ _ _ :=
    follows_effectiveAt hs hdoc hn s₁ hr
  unfold run
  rcases hrun : (effectiveAt document settings.maxDepth nestingAllowance depth n).run.run s₁ with ⟨f | r, s₂⟩
  · obtain ⟨hr₂, hf⟩ := (ensures_of_error hrun).mp hfollows
    exact .inl ⟨f, s₂, rfl, hr₂, hf⟩
  · obtain ⟨hr₂, F, hF, hshows⟩ := (ensures_of_ok hrun).mp hfollows
    exact .inr ⟨r, s₂, F, rfl, hr₂, hF, hshows⟩

end Run

end ApiGraph.Composition
