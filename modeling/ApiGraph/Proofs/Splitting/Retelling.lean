import ApiGraph.Document.Operations
import ApiGraph.Proofs.Document.Content
import ApiGraph.Proofs.Resolve.Sections

namespace ApiGraph.Splitting

open Store Resolve Reference

def withNote (name : String) (m : Entries) : Entries :=
  m.insert (.str resolvedRefKey) (.str (schemaPointer ++ name))

section Rel

variable {α α' β β' : Type} {P : α → α' → Prop} {K : β → β' → Prop}

theorem rel_bind {o : Option α} {o' : Option α'} {f : α → Option β} {g : α' → Option β'}
    (h : Option.Rel P o o') (hf : ∀ a a', P a a' → Option.Rel K (f a) (g a')) :
    Option.Rel K (o.bind f) (o'.bind g) := by
  cases h with
  | none => exact .none
  | some ha => exact hf _ _ ha

theorem rel_map {o : Option α} {o' : Option α'} {f : α → β} {g : α' → β'}
    (h : Option.Rel P o o') (hf : ∀ a a', P a a' → K (f a) (g a')) :
    Option.Rel K (o.map f) (o'.map g) := by
  cases h with
  | none => exact .none
  | some ha => exact .some (hf _ _ ha)

theorem forall₂_flatMap {l : List α} {l' : List α'} {f : α → List β} {g : α' → List β'}
    (h : List.Forall₂ P l l') (hf : ∀ a a', P a a' → List.Forall₂ K (f a) (g a')) :
    List.Forall₂ K (l.flatMap f) (l'.flatMap g) :=
  List.rel_flatMap h fun _ _ ha => hf _ _ ha

theorem forall₂_filterMap {l : List α} {l' : List α'} {f : α → Option β} {g : α' → Option β'}
    (h : List.Forall₂ P l l') (hf : ∀ a a', P a a' → Option.Rel K (f a) (g a')) :
    List.Forall₂ K (l.filterMap f) (l'.filterMap g) :=
  List.rel_filterMap (fun _ _ ha => hf _ _ ha) h

theorem exists_of_forall₂ {l : List α} {l' : List α'} {a : α} (h : List.Forall₂ P l l') (ha : a ∈ l) :
    ∃ a' ∈ l', P a a' := by
  induction h with
  | nil => cases ha
  | cons hb _ ih =>
      rcases List.mem_cons.mp ha with rfl | hrest
      · exact ⟨_, List.mem_cons_self, hb⟩
      · obtain ⟨a', ha', hp⟩ := ih hrest
        exact ⟨a', List.mem_cons_of_mem _ ha', hp⟩

theorem rel_eq_iff {o o' : Option α} : Option.Rel Eq o o' ↔ o = o' := by
  constructor
  · intro h
    cases h with
    | none => rfl
    | some ha => rw [ha]
  · rintro rfl
    cases o with
    | none => exact .none
    | some a => exact .some rfl

end Rel

section Reading

variable {s t : Store} {L : Value → Value → Prop} {v v' : Value} {m m' : Entries}

-- The values are of the same kind, and so are their parts.
def Mirrors (s t : Store) (L : Value → Value → Prop) : Prop := ∀ v v', L v v' → Matches s t L v v'

-- Apart from the note the fields correspond.
def FieldsAlike (L : Value → Value → Prop) (m m' : Entries) : Prop :=
  ∀ key, key ≠ resolvedRefKey → Option.Rel L (m.field? key) (m'.field? key)

theorem fieldsAlike_of_alike (h : Alike L m m') : FieldsAlike L m m' := fun key _ => h.get? (.str key)

theorem fieldsAlike_withNote (h : Alike L m m') (name : String) : FieldsAlike L m (withNote name m') := by
  intro key hkey
  have hfield : (withNote name m').field? key = m'.field? key := by
    unfold withNote Entries.field?
    rw [OrderedMap.get?_insert, str_beq_eq_false (Ne.symm hkey)]
    rfl
  rw [hfield]
  exact h.get? (.str key)

theorem Mirrors.string? (h : Mirrors s t L) (hv : L v v') : v.string? = v'.string? := (h v v' hv).string?

-- Correspondents are the same scalar, or neither is one.
theorem Mirrors.beq_scalar (h : Mirrors s t L) (hv : L v v') (x : Scalar) :
    (v == .scalar x) = (v' == .scalar x) := by
  cases h v v' hv <;> rfl

theorem Mirrors.asMapping? (h : Mirrors s t L) (hv : L v v') :
    Option.Rel (fun e e' => L (.node e.1) (.node e'.1) ∧ Alike L e.2 e'.2) (s.asMapping? v)
      (t.asMapping? v') := by
  cases h v v' hv with
  | scalar x => exact .none
  | pair _ _ => exact .none
  | mapping hm hm' halike =>
      rw [asMapping?_eq_some.mpr ⟨rfl, hm⟩, asMapping?_eq_some.mpr ⟨rfl, hm'⟩]
      exact .some ⟨hv, halike⟩
  | sequence hl hl' _ =>
      simp only [Store.asMapping?, Store.mapping?, hl, hl', Option.map_none]
      exact .none
  | set hl hl' =>
      simp only [Store.asMapping?, Store.mapping?, hl, hl', Option.map_none]
      exact .none
  | missing hi hj =>
      simp only [Store.asMapping?, Store.mapping?, hi, hj, Option.map_none]
      exact .none

theorem Mirrors.asSequence? (h : Mirrors s t L) (hv : L v v') :
    Option.Rel (List.Forall₂ L) (s.asSequence? v) (t.asSequence? v') := by
  cases h v v' hv with
  | scalar x => exact .none
  | pair _ _ => exact .none
  | mapping hm hm' _ =>
      simp only [Store.asSequence?, Store.sequence?, mapping?_eq_some.mp hm, mapping?_eq_some.mp hm']
      exact .none
  | sequence hl hl' hitems =>
      simp only [Store.asSequence?, Store.sequence?, hl, hl']
      exact .some hitems
  | set hl hl' =>
      simp only [Store.asSequence?, Store.sequence?, hl, hl']
      exact .none
  | missing hi hj =>
      simp only [Store.asSequence?, Store.sequence?, hi, hj]
      exact .none

section Fields

variable (h : Mirrors s t L) (hm : FieldsAlike L m m')
include h hm

theorem FieldsAlike.text? (key : String) (hkey : key ≠ resolvedRefKey) : m.text? key = m'.text? key :=
  rel_eq_iff.mp (rel_bind (hm key hkey) fun _ _ hv => rel_eq_iff.mpr (h.string? hv))

theorem FieldsAlike.ref? : m.ref? = m'.ref? := hm.text? h refKey (by decide)

theorem FieldsAlike.mapping? (key : String) (hkey : key ≠ resolvedRefKey) :
    Option.Rel (fun e e' => L (.node e.1) (.node e'.1) ∧ Alike L e.2 e'.2)
      ((m.field? key).bind s.asMapping?) ((m'.field? key).bind t.asMapping?) :=
  rel_bind (hm key hkey) fun _ _ => h.asMapping?

theorem FieldsAlike.sequence (key : String) (hkey : key ≠ resolvedRefKey) :
    List.Forall₂ L (((m.field? key).bind s.asSequence?).getD [])
      (((m'.field? key).bind t.asSequence?).getD []) := by
  have hrel := rel_bind (hm key hkey) fun _ _ => h.asSequence?
  generalize (m.field? key).bind s.asSequence? = o at hrel ⊢
  generalize (m'.field? key).bind t.asSequence? = o' at hrel ⊢
  cases hrel with
  | none => exact .nil
  | some hl => exact hl

theorem FieldsAlike.schemaType? : s.schemaType? m = t.schemaType? m' := by
  refine rel_eq_iff.mp (rel_bind (hm "type" (by decide)) fun v v' hv => ?_)
  have hfirst {l l' : List Value} (hl : List.Forall₂ L l l') :
      (l.find? (· != .str "null")).bind Value.string? = (l'.find? (· != .str "null")).bind Value.string? := by
    induction hl with
    | nil => rfl
    | cons hw _ ih =>
        have hbeq := h.beq_scalar hw (.str "null")
        rw [List.find?_cons, List.find?_cons, bne, bne, Value.str, hbeq]
        cases hnull : !(_ == Value.scalar (.str "null")) with
        | true => exact h.string? hw
        | false => exact ih
  have hrel := h.asSequence? hv
  generalize s.asSequence? v = o at hrel ⊢
  generalize t.asSequence? v' = o' at hrel ⊢
  cases hrel with
  | none => exact rel_eq_iff.mpr (h.string? hv)
  | some hl => exact rel_eq_iff.mpr (hfirst hl)

end Fields

-- What a response says of its bodies.
theorem Mirrors.mediaSchemas (h : Mirrors s t L) (hm : Alike L m m') :
    List.Forall₂ L (s.mediaSchemas m) (t.mediaSchemas m') := by
  have hcontent := (fieldsAlike_of_alike hm).mapping? h "content" (by decide)
  unfold Store.mediaSchemas
  generalize (m.field? "content").bind s.asMapping? = o at hcontent ⊢
  generalize (m'.field? "content").bind t.asMapping? = o' at hcontent ⊢
  cases hcontent with
  | none => exact .nil
  | some hc =>
      exact forall₂_filterMap hc.2.2 fun v v' hv =>
        rel_bind (h.asMapping? hv) fun e e' he => he.2.get? (.str "schema")

end Reading

section Retelling

-- The second mapping is the first one with a note of the name, which it lacks.
inductive Noted (s t : Store) (L : Value → Value → Prop) (name : String) : NodeId → NodeId → Prop
  | intro {i j : NodeId} {m m' : Entries} (hm : s.mapping? i = some m)
      (hm' : t.mapping? j = some (withNote name m')) (h : Alike L m m')
      (hplain : m.has resolvedRefKey = false) (href : m.has refKey = false)
      (hname : schemaName? (schemaPointer ++ name) = some name) : Noted s t L name i j

variable (s t : Store) (d : NodeId) (L : Value → Value → Prop) (B : String → NodeId → NodeId → Prop)

-- The two containers stand for each other, maybe as components of which the second one has a note.
def Counterparts (i j : NodeId) : Prop := L (.node i) (.node j) ∨ ∃ name, B name i j

-- No container stands for two others.
def Apart : Prop :=
  ∀ i j i' j', Counterparts L B i j → Counterparts L B i' j' → (i = i' ↔ j = j')

def ComponentsAlike (e e' : Key × Value) : Prop :=
  e.1 = e'.1 ∧ (L e.2 e'.2 ∨ ∃ name i j, e = (.str name, .node i) ∧ e'.2 = .node j ∧ B name i j)

def OperationsAlike (o o' : Operation) : Prop :=
  o.path = o'.path ∧ o.method = o'.method ∧ Alike L o.fields o'.fields

-- The second description says what the first one says, with notes in components.
structure Retells : Prop where
  mirrors : Mirrors s t L
  scalar : ∀ x, L (.scalar x) (.scalar x)
  noted : ∀ {name i j}, B name i j → Noted s t L name i j
  component : ∀ {name i j}, B name i j → componentIn? s d "schemas" name = some i
  apart : Apart L B
  registry : Option.Rel (fun e e' => List.Forall₂ (ComponentsAlike L B) e.2.entries e'.2.entries)
    (s.registry? d) (t.registry? d)
  responses : Option.Rel (fun e e' => Alike L e.2 e'.2) (s.components? d "responses")
    (t.components? d "responses")
  operations : List.Forall₂ (OperationsAlike L) (s.operations d) (t.operations d)

variable {s t : Store} {d : NodeId} {L : Value → Value → Prop} {B : String → NodeId → NodeId → Prop}
  {i j i' j' : NodeId} {name : String}

theorem Apart.beq (h : Apart L B) (hij : Counterparts L B i j) (hij' : Counterparts L B i' j') :
    (i == i') = (j == j') := by
  rw [Bool.eq_iff_iff, beq_iff_eq, beq_iff_eq]
  exact h i j i' j' hij hij'

theorem Noted.fieldsAlike (h : Noted s t L name i j) :
    ∃ m m', s.mapping? i = some m ∧ t.mapping? j = some m' ∧ FieldsAlike L m m' := by
  cases h with
  | intro hm hm' halike => exact ⟨_, _, hm, hm', fieldsAlike_withNote halike name⟩

end Retelling

end ApiGraph.Splitting
