import ApiGraph.Proofs.Ensures
import ApiGraph.Proofs.Schema.Draft

namespace ApiGraph

namespace Store

section Retained

variable {s s' : Store} {id : NodeId} {v : Value} {m : Entries} {key : String}

-- Only a mapping has an entry.
theorem mapping?_of_field? (h : (s.entries id).field? key = some v) : s.mapping? id = some (s.entries id) := by
  cases hm : s.mapping? id with
  | some m => rw [entries_of_mapping? hm]
  | none =>
      unfold entries at h
      rw [hm] at h
      cases h

theorem within_of_field? (hs : s.Closed) (h : (s.entries id).field? key = some v) :
    v.within s.nodes.size = true :=
  hs id v ((mem_children_iff (mapping?_of_field? h)).mpr ⟨_, h⟩)

theorem within_of_asSequence? {l : List Value} (hs : s.Closed) (h : s.asSequence? v = some l) :
    ∀ w ∈ l, w.within s.nodes.size = true := by
  cases v with
  | scalar x => cases h
  | pair a b => cases h
  | node i =>
      intro w hw
      refine hs i w ?_
      rw [children_of_get? (sequence?_eq_some.mp h)]
      exact hw

theorem within_of_listed {l : List Value} (hs : s.Closed)
    (h : ((s.entries id).field? key).bind s.asSequence? = some l) : ∀ w ∈ l, w.within s.nodes.size = true := by
  obtain ⟨v, -, hv⟩ := Option.bind_eq_some_iff.mp h
  exact within_of_asSequence? hs hv

theorem lt_size_of_asMapping? (h : s.asMapping? v = some (id, m)) : id < s.nodes.size :=
  lt_size_of_mapping? (asMapping?_eq_some.mp h).2

namespace Retains

theorem mapping? (h : s.Retains s') (hid : id < s.nodes.size) : s'.mapping? id = s.mapping? id := by
  unfold Store.mapping?
  rw [h.old id hid]

theorem sequence? (h : s.Retains s') (hid : id < s.nodes.size) : s'.sequence? id = s.sequence? id := by
  unfold Store.sequence?
  rw [h.old id hid]

theorem entries (h : s.Retains s') (hid : id < s.nodes.size) : s'.entries id = s.entries id := by
  unfold Store.entries
  rw [h.mapping? hid]

theorem asMapping? (h : s.Retains s') (hv : v.within s.nodes.size = true) :
    s'.asMapping? v = s.asMapping? v := by
  cases v with
  | node id =>
      show (s'.mapping? id).map _ = (s.mapping? id).map _
      rw [h.mapping? (of_decide_eq_true hv)]
  | scalar x => rfl
  | pair a b => rfl

theorem asSequence? (h : s.Retains s') (hv : v.within s.nodes.size = true) :
    s'.asSequence? v = s.asSequence? v := by
  cases v with
  | node id => exact h.sequence? (of_decide_eq_true hv)
  | scalar x => rfl
  | pair a b => rfl

theorem bind_field? {α : Type} {f f' : Value → Option α} (hs : s.Closed) (h : s.Retains s')
    (hid : id < s.nodes.size) (hf : ∀ v, v.within s.nodes.size = true → f' v = f v) :
    ((s'.entries id).field? key).bind f' = ((s.entries id).field? key).bind f := by
  rw [h.entries hid]
  cases hv : (s.entries id).field? key with
  | none => rfl
  | some v => exact hf v (within_of_field? hs hv)

theorem fieldMapping? (hs : s.Closed) (h : s.Retains s') (hid : id < s.nodes.size) :
    s'.fieldMapping? id key = s.fieldMapping? id key :=
  h.bind_field? hs hid fun _ hv => h.asMapping? hv

theorem listed (hs : s.Closed) (h : s.Retains s') (hid : id < s.nodes.size) (key : String) :
    ((s'.entries id).field? key).bind s'.asSequence? = ((s.entries id).field? key).bind s.asSequence? :=
  h.bind_field? hs hid fun _ hv => h.asSequence? hv

theorem registry? (hs : s.Closed) (h : s.Retains s') (hid : id < s.nodes.size) :
    s'.registry? id = s.registry? id := by
  unfold Store.registry? Store.components?
  rw [h.fieldMapping? hs hid]
  cases hc : s.fieldMapping? id "components" with
  | none => rfl
  | some e =>
      have he : e.1 < s.nodes.size := lt_size_of_mapping? (fieldMapping?_eq_some.mp hc).2
      exact h.fieldMapping? hs he

end Retains

end Retained

end Store

namespace Composition

-- The component that the reference of the schema names.
def component? (s : Store) (document : Option NodeId) (schema : NodeId) : Option NodeId :=
  ((s.entries schema).ref?.bind Reference.schemaName?).bind fun name =>
    (document.bind s.registry?).bind fun registry =>
      ((registry.2.field? name).bind s.asMapping?).map Prod.fst

theorem followRef_eq (s : Store) (document : Option NodeId) (schema : NodeId) :
    followRef s document schema = (component? s document schema).getD schema := by
  unfold followRef component?
  simp only [Option.bind_eq_bind, Option.bind_assoc, Option.map_eq_bind, Option.pure_def]
  rfl

-- What the schema is composed of: branches to be merged, a branch that stands for it, or neither.
inductive Kind where
  | all (branches : List NodeId)
  | first (branch : NodeId)
  | plain
deriving DecidableEq

-- The mappings among the values.
def mappingsIn (s : Store) (l : List Value) : List NodeId :=
  l.filterMap fun v => (s.asMapping? v).map Prod.fst

def kindOf (s : Store) (schema : NodeId) : Kind :=
  let m := s.entries schema
  if m.has "allOf" then .all (mappingsIn s (((m.field? "allOf").bind s.asSequence?).getD []))
  else match choice? m with
    | none => .plain
    | some keyword =>
        match (((m.field? keyword).bind s.asSequence?).bind List.head?).bind s.asMapping? with
        | none => .plain
        | some (branch, _) => .first branch

def Kind.branches : Kind → List NodeId
  | .all branches => branches
  | .first branch => [branch]
  | .plain => []

-- What a schema stands for.
inductive Form where
  | kept (schema : NodeId)
  | merged (draft : Draft)

def Form.declared (s : Store) : Form → Declared
  | .kept schema => Composition.declared s schema
  | .merged draft => draft.declared

def mergeForms (s : Store) (form : NodeId → Except Fault Form) : List NodeId → Draft → Except Fault Draft
  | [], d => return d
  | branch :: rest, d => do
      let d ← d.take s ((← form branch).declared s)
      mergeForms s form rest d

def formAt (s : Store) (document : Option NodeId) (maxDepth : Int) :
    (allowance : Nat) → (depth : Int) → NodeId → Except Fault Form
  | 0, _, _ => .error .stackExhausted
  | allowance + 1, depth, schema =>
      let form := fun branch =>
        formAt s document maxDepth allowance (depth + 1) (followRef s document branch)
      if maxDepth < depth then .ok (.kept schema)
      else match kindOf s schema with
        | .all branches => (mergeForms s form branches .empty).map fun d =>
            if d.slots.isEmpty then .kept schema else .merged d
        | .first branch => form branch
        | .plain => .ok (.kept schema)

section Congruence

variable {s s' : Store} {document : Option NodeId} {n b : NodeId} {v : Value} {l : List Value}

theorem lt_size_of_mem_mappingsIn (h : b ∈ mappingsIn s l) : b < s.nodes.size := by
  obtain ⟨v, -, hv⟩ := List.mem_filterMap.mp h
  obtain ⟨e, he, rfl⟩ := Option.map_eq_some_iff.mp hv
  exact Store.lt_size_of_asMapping? he

theorem lt_size_of_mem_branches (h : b ∈ (kindOf s n).branches) : b < s.nodes.size := by
  unfold kindOf at h
  dsimp only at h
  split at h
  · exact lt_size_of_mem_mappingsIn h
  split at h
  · cases h
  split at h
  · cases h
  · next e he =>
    obtain rfl := List.mem_singleton.mp h
    obtain ⟨v, -, hv⟩ := Option.bind_eq_some_iff.mp he
    exact Store.lt_size_of_asMapping? hv

theorem lt_size_of_component? {a : NodeId} (h : component? s document n = some a) :
    a < s.nodes.size := by
  obtain ⟨name, -, h⟩ := Option.bind_eq_some_iff.mp h
  obtain ⟨registry, -, h⟩ := Option.bind_eq_some_iff.mp h
  obtain ⟨e, he, rfl⟩ := Option.map_eq_some_iff.mp h
  obtain ⟨v, -, hv⟩ := Option.bind_eq_some_iff.mp he
  exact Store.lt_size_of_asMapping? hv

theorem lt_size_of_followRef (h : n < s.nodes.size) : followRef s document n < s.nodes.size := by
  rw [followRef_eq]
  cases hc : component? s document n with
  | none => exact h
  | some a => exact lt_size_of_component? hc

theorem component?_congr (hs : s.Closed) (h : s.Retains s') (hdoc : ∀ d ∈ document, d < s.nodes.size)
    (hn : n < s.nodes.size) : component? s' document n = component? s document n := by
  unfold component?
  rw [h.entries hn]
  congr 1
  funext name
  cases document with
  | none => rfl
  | some d =>
      rw [Option.bind_some, Option.bind_some, h.registry? hs (hdoc d rfl)]
      cases hregistry : s.registry? d with
      | none => rfl
      | some registry =>
          show ((registry.2.field? name).bind s'.asMapping?).map Prod.fst =
            ((registry.2.field? name).bind s.asMapping?).map Prod.fst
          cases hv : registry.2.field? name with
          | none => rfl
          | some v =>
              obtain ⟨e, -, he⟩ := Option.bind_eq_some_iff.mp hregistry
              have hentries : s.entries registry.1 = registry.2 :=
                Store.entries_of_mapping? (Store.fieldMapping?_eq_some.mp he).2
              have hwithin := Store.within_of_field? hs (hentries ▸ hv)
              rw [Option.bind_some, Option.bind_some, h.asMapping? hwithin]

theorem followRef_congr (hs : s.Closed) (h : s.Retains s') (hdoc : ∀ d ∈ document, d < s.nodes.size)
    (hn : n < s.nodes.size) : followRef s' document n = followRef s document n := by
  rw [followRef_eq, followRef_eq, component?_congr hs h hdoc hn]

theorem mappingsIn_congr (h : s.Retains s') (hl : ∀ v ∈ l, v.within s.nodes.size = true) :
    mappingsIn s' l = mappingsIn s l :=
  List.filterMap_congr fun v hv => by rw [h.asMapping? (hl v hv)]

theorem kindOf_congr (hs : s.Closed) (h : s.Retains s') (hn : n < s.nodes.size) :
    kindOf s' n = kindOf s n := by
  unfold kindOf
  simp only [h.listed hs hn]
  rw [h.entries hn]
  split
  · cases hl : ((s.entries n).field? "allOf").bind s.asSequence? with
    | none => rfl
    | some l => rw [Option.getD_some, mappingsIn_congr h (Store.within_of_listed hs hl)]
  · cases choice? (s.entries n) with
    | none => rfl
    | some keyword =>
        dsimp only
        cases hl : ((s.entries n).field? keyword).bind s.asSequence? with
        | none => rfl
        | some l =>
            rw [Option.bind_some]
            cases hv : l.head? with
            | none => rfl
            | some v =>
                rw [Option.bind_some, Option.bind_some,
                  h.asMapping? (Store.within_of_listed hs hl v (List.mem_of_mem_head? hv))]

theorem declared_congr (hs : s.Closed) (h : s.Retains s') (hn : n < s.nodes.size) :
    declared s' n = declared s n := by
  unfold declared declaredIn
  refine Declared.ext ?_ ?_ ?_
  · rw [h.entries hn]
  · dsimp only
    rw [h.bind_field? hs hn fun _ hv => h.asMapping? hv]
  · dsimp only
    rw [h.listed hs hn]

end Congruence

-- A form that speaks of what was there, and of nothing else.
inductive Form.Fit (size : Nat) : Form → Prop
  | kept {schema : NodeId} (h : schema < size) : Fit size (.kept schema)
  | merged {draft : Draft} (h : draft.Fit size) : Fit size (.merged draft)

section Fit

variable {s : Store} {document : Option NodeId} {maxDepth depth : Int} {allowance : Nat} {n : NodeId}
  {F : Form} {d d' : Draft} {branches : List NodeId} {form : NodeId → Except Fault Form}

theorem within_declared (hs : s.Closed) : (declared s n).Within s.nodes.size where
  given key v hv := by
    obtain ⟨-, hv⟩ := Option.ite_none_right_eq_some.mp hv
    exact Store.within_of_field? hs hv
  properties e he := by
    unfold declared declaredIn at he
    dsimp only at he
    cases hp : ((s.entries n).field? "properties").bind s.asMapping? with
    | none =>
        rw [hp] at he
        cases he
    | some p =>
        rw [hp] at he
        obtain ⟨v, -, hv⟩ := Option.bind_eq_some_iff.mp hp
        exact hs p.1 e.2 (Store.children_of_mapping? (Store.asMapping?_eq_some.mp hv).2 ▸
          List.mem_map_of_mem he)
  required v hv := by
    unfold declared declaredIn at hv
    dsimp only at hv
    cases hr : ((s.entries n).field? "required").bind s.asSequence? with
    | none =>
        rw [hr] at hv
        cases hv
    | some l =>
        rw [hr] at hv
        exact Store.within_of_listed hs hr v hv

theorem Form.Fit.within (hs : s.Closed) (h : F.Fit s.nodes.size) : (F.declared s).Within s.nodes.size := by
  cases h with
  | kept => exact within_declared hs
  | merged h => exact h.within

theorem mergeForms_cons {b : NodeId} : mergeForms s form (b :: branches) d =
    (form b >>= fun F => d.take s (F.declared s) >>= fun d => mergeForms s form branches d) := by
  rw [mergeForms]

theorem mergeForms_cons_of_take {b : NodeId} {taken : Draft} (hF : form b = .ok F)
    (htaken : d.take s (F.declared s) = .ok taken) :
    mergeForms s form (b :: branches) d = mergeForms s form branches taken := by
  rw [mergeForms_cons, hF]
  show (d.take s (F.declared s) >>= fun d => mergeForms s form branches d) = _
  rw [htaken]
  rfl

-- One more branch: its form, what is taken of it, and the rest.
theorem exists_of_mergeForms_cons {b : NodeId} (h : mergeForms s form (b :: branches) d = .ok d') :
    ∃ F taken, form b = .ok F ∧ d.take s (F.declared s) = .ok taken ∧
      mergeForms s form branches taken = .ok d' := by
  rw [mergeForms_cons] at h
  cases hF : form b with
  | error f =>
      rw [hF] at h
      cases h
  | ok F =>
      rw [hF] at h
      cases ht : d.take s (F.declared s) with
      | error f =>
          replace h : (d.take s (F.declared s) >>= fun d => mergeForms s form branches d) = .ok d' := h
          rw [ht] at h
          cases h
      | ok taken =>
          replace h : (d.take s (F.declared s) >>= fun d => mergeForms s form branches d) = .ok d' := h
          rw [ht] at h
          exact ⟨F, taken, rfl, ht, h⟩

theorem fit_mergeForms (hs : s.Closed) (hform : ∀ b ∈ branches, ∀ F, form b = .ok F → F.Fit s.nodes.size)
    (hd : d.Fit s.nodes.size) (h : mergeForms s form branches d = .ok d') : d'.Fit s.nodes.size := by
  induction branches generalizing d with
  | nil =>
      cases h
      exact hd
  | cons b rest ih =>
      obtain ⟨F, taken, hF, htaken, hrest⟩ := exists_of_mergeForms_cons h
      have hfit : F.Fit s.nodes.size := hform b List.mem_cons_self F hF
      exact ih (fun b' hb' => hform b' (List.mem_cons_of_mem _ hb'))
        (hd.take (hfit.within hs) htaken) hrest

theorem mergeForms_mono {form' : NodeId → Except Fault Form}
    (hform : ∀ b ∈ branches, ∀ F, form b = .ok F → form' b = .ok F)
    (h : mergeForms s form branches d = .ok d') : mergeForms s form' branches d = .ok d' := by
  induction branches generalizing d with
  | nil => exact h
  | cons b rest ih =>
      obtain ⟨F, taken, hF, htaken, hrest⟩ := exists_of_mergeForms_cons h
      rw [mergeForms_cons_of_take (hform b List.mem_cons_self F hF) htaken]
      exact ih (fun b' hb' => hform b' (List.mem_cons_of_mem _ hb')) hrest

theorem map_eq_ok {α β : Type} {g : α → β} {x : Except Fault α} {b : β} :
    x.map g = .ok b ↔ ∃ a, x = .ok a ∧ g a = b := by
  cases x <;> simp [Except.map]

theorem map_eq_error {α β : Type} {g : α → β} {x : Except Fault α} {f : Fault} :
    x.map g = .error f ↔ x = .error f := by
  cases x <;> simp [Except.map]

theorem fit_formAt (hs : s.Closed) (hn : n < s.nodes.size)
    (h : formAt s document maxDepth allowance depth n = .ok F) : F.Fit s.nodes.size := by
  induction allowance generalizing depth n F with
  | zero => cases h
  | succ allowance ih =>
      have hbranch (b : NodeId) (hb : b ∈ (kindOf s n).branches) (F : Form)
          (hF : formAt s document maxDepth allowance (depth + 1) (followRef s document b) = .ok F) :
          F.Fit s.nodes.size := ih (lt_size_of_followRef (lt_size_of_mem_branches hb)) hF
      rw [formAt] at h
      split at h
      · cases h
        exact .kept hn
      split at h
      · next branches hkind =>
        rw [hkind] at hbranch
        obtain ⟨d, hd, rfl⟩ := map_eq_ok.mp h
        split
        · exact .kept hn
        · exact .merged (fit_mergeForms hs hbranch Draft.fit_empty hd)
      · next b hkind => exact hbranch b (hkind ▸ List.mem_singleton_self b) F h
      · cases h
        exact .kept hn

-- A greater allowance changes no answer.
theorem formAt_mono {allowance' : Nat} (h : formAt s document maxDepth allowance depth n = .ok F)
    (hle : allowance ≤ allowance') : formAt s document maxDepth allowance' depth n = .ok F := by
  induction allowance generalizing depth n F allowance' with
  | zero => cases h
  | succ allowance ih =>
      obtain ⟨allowance', rfl⟩ : ∃ k, allowance' = k + 1 := ⟨allowance' - 1, by omega⟩
      have hbranch (b : NodeId) (F : Form)
          (hF : formAt s document maxDepth allowance (depth + 1) (followRef s document b) = .ok F) :
          formAt s document maxDepth allowance' (depth + 1) (followRef s document b) = .ok F :=
        ih hF (by omega)
      rw [formAt] at h ⊢
      split at h
      · next hdepth => rwa [if_pos hdepth]
      next hdepth =>
      rw [if_neg hdepth]
      split at h
      · obtain ⟨d, hd, rfl⟩ := map_eq_ok.mp h
        exact map_eq_ok.mpr ⟨d, mergeForms_mono (fun b _ => hbranch b) hd, rfl⟩
      · exact hbranch _ F h
      · exact h

end Fit

end Composition

end ApiGraph
