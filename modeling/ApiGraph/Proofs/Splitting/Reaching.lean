import ApiGraph.Proofs.Alike
import ApiGraph.Proofs.Reachability.Insertion
import ApiGraph.Proofs.Splitting.Retelling

namespace ApiGraph.Splitting

open Store Reachability Reference

section Twins

variable (L : Value → Value → Prop) (B : String → NodeId → NodeId → Prop)

structure IndexesAlike (ix ix' : ArrayIndex) : Prop where
  byIdentity : ∀ {i j}, Counterparts L B i j → ix.byIdentity.get? i = ix'.byIdentity.get? j
  byItemsRef : ix.byItemsRef = ix'.byItemsRef
  byItemsType : ix.byItemsType = ix'.byItemsType
  typeCounts : ix.typeCounts = ix'.typeCounts

-- The scopes of two descriptions that say the same.
structure Twins (c c' : Scope) : Prop where
  mirrors : Mirrors c.store c'.store L
  noted : ∀ {name i j}, B name i j → Noted c.store c'.store L name i j
  scalar : ∀ x, L (.scalar x) (.scalar x)
  apart : Apart L B
  components : List.Forall₂ (ComponentsAlike L B) c.registry.entries c'.registry.entries
  index : IndexesAlike L B c.index c'.index
  settings : c.settings = c'.settings

-- The walks have found the same.
structure InStep (p p' : Progress) : Prop where
  names : p.names = p'.names
  visited : ∀ {i j}, Counterparts L B i j → p.visited.contains i = p'.visited.contains j
  label : p.label = p'.label
  before : p.before = p'.before
  limits : p.limits = p'.limits

end Twins

section Scope

variable {L : Value → Value → Prop} {B : String → NodeId → NodeId → Prop} {c c' : Scope}
  {v v' : Value} {m m' : Entries} {i j : NodeId}

theorem Twins.size (h : Twins L B c c') : c.registry.size = c'.registry.size := h.components.length_eq

theorem Twins.isLarge (h : Twins L B c c') : c.isLarge = c'.isLarge := by
  unfold Scope.isLarge
  rw [h.settings, h.size]

-- The values are components of that name, or they are none.
inductive Bound (L : Value → Value → Prop) (B : String → NodeId → NodeId → Prop) (name : String) :
    Value → Value → Prop
  | same {v v' : Value} (h : L v v') : Bound L B name v v'
  | noted {i j : NodeId} (h : B name i j) : Bound L B name (.node i) (.node j)

theorem Twins.field? (h : Twins L B c c') (name : String) :
    Option.Rel (Bound L B name) (c.registry.field? name) (c'.registry.field? name) := by
  have hcomponents := h.components
  unfold Entries.field? OrderedMap.get?
  generalize c.registry.entries = l at hcomponents ⊢
  generalize c'.registry.entries = l' at hcomponents ⊢
  induction hcomponents with
  | nil => exact .none
  | @cons e e' l l' he _ ih =>
      obtain ⟨hkey, hvalue⟩ := he
      rw [List.find?_cons, List.find?_cons, ← hkey]
      cases hfound : e.1 == Key.str name with
      | false => exact ih
      | true =>
          refine .some ?_
          rcases hvalue with hsame | ⟨name', i, j, rfl, hj, hnoted⟩
          · exact .same hsame
          · obtain rfl := Key.str_beq.mp hfound
            rw [hj]
            exact .noted hnoted

theorem Bound.eq_node_iff {name : String} (hv : Bound L B name v v') (h : Twins L B c c')
    (hij : Counterparts L B i j) : v = .node i ↔ v' = .node j := by
  have node {i' j' : NodeId} (hij' : Counterparts L B i' j') :
      Value.node i' = .node i ↔ Value.node j' = .node j := by
    rw [Value.node.injEq, Value.node.injEq]
    exact h.apart _ _ _ _ hij' hij
  cases hv with
  | noted hnoted => exact node (.inr ⟨name, hnoted⟩)
  | same hsame =>
      cases h.mirrors v v' hsame with
      | scalar x => simp
      | pair _ _ => simp
      | mapping => exact node (.inl hsame)
      | sequence => exact node (.inl hsame)
      | set => exact node (.inl hsame)
      | missing => exact node (.inl hsame)

theorem Twins.referenceName? (h : Twins L B c c') (hm : Alike L m m') : referenceName? m = referenceName? m' := by
  unfold Reachability.referenceName? Entries.ref?
  rw [hm.text? fun _ _ => h.mirrors.string?, hm.text? fun _ _ => h.mirrors.string?]

theorem Twins.isOwnBody (h : Twins L B c c') (hm : Alike L m m')
    (hij : Counterparts L B i j) : isOwnBody c.registry i m = isOwnBody c'.registry j m' := by
  unfold Reachability.isOwnBody
  rw [h.referenceName? hm]
  refine congrArg (Option.any · _) (funext fun name => decide_eq_decide.mpr ?_)
  have hrel := h.field? name
  generalize c.registry.field? name = o at hrel ⊢
  generalize c'.registry.field? name = o' at hrel ⊢
  cases hrel with
  | none => simp
  | some hv =>
      rw [Option.some.injEq, Option.some.injEq]
      exact hv.eq_node_iff h hij

theorem Twins.isArray (h : Twins L B c c') (hm : FieldsAlike L m m') :
    isArray c.store m = isArray c'.store m' := by
  unfold Reachability.isArray
  rw [hm.schemaType? h.mirrors]

end Scope

section Index

variable {s t : Store} {L : Value → Value → Prop} {B : String → NodeId → NodeId → Prop}
  {ix ix' : ArrayIndex} {m m' : Entries} {i j : NodeId}

theorem items?_alike (h : Mirrors s t L) (hm : FieldsAlike L m m') :
    Option.Rel (Alike L) (ArrayIndex.items? s m) (ArrayIndex.items? t m') :=
  rel_map (hm.mapping? h _ (by decide)) fun _ _ he => he.2

theorem IndexesAlike.addRef (hix : IndexesAlike L B ix ix') (name : Key) (ref : String) :
    IndexesAlike L B (ix.addRef name ref) (ix'.addRef name ref) :=
  ⟨hix.byIdentity, congrArg (·.insert ref name) hix.byItemsRef, hix.byItemsType, hix.typeCounts⟩

theorem IndexesAlike.addType (hix : IndexesAlike L B ix ix') (name : Key) (type : String) :
    IndexesAlike L B (ix.addType name type) (ix'.addType name type) where
  byIdentity := hix.byIdentity
  byItemsRef := hix.byItemsRef
  byItemsType := by simp only [ArrayIndex.addType, hix.byItemsType, hix.typeCounts]
  typeCounts := by simp only [ArrayIndex.addType, hix.typeCounts]

theorem IndexesAlike.addItems (hix : IndexesAlike L B ix ix') (h : Mirrors s t L)
    (name : Key) (hm : Alike L m m') :
    IndexesAlike L B (ix.addItems s name m) (ix'.addItems t name m') := by
  have hfields := fieldsAlike_of_alike hm
  unfold ArrayIndex.addItems
  rw [hfields.ref? h, hfields.schemaType? h]
  cases m'.ref? with
  | none =>
      cases t.schemaType? m' with
      | none => exact hix
      | some type => exact hix.addType name type
  | some ref =>
      cases t.schemaType? m' with
      | none => exact hix.addRef name ref
      | some type => exact (hix.addRef name ref).addType name type

theorem IndexesAlike.add (hix : IndexesAlike L B ix ix') (h : Mirrors s t L) (hapart : Apart L B)
    (hb : ∀ {name i j}, B name i j → Noted s t L name i j) {e e' : Key × Value}
    (he : ComponentsAlike L B e e') :
    IndexesAlike L B (ix.add s e) (ix'.add t e') := by
  obtain ⟨hkey, hvalue⟩ := he
  -- A component that is a mapping is found by its identity and by its items.
  have entered {i j : NodeId} {m m' : Entries} (hij : Counterparts L B i j)
      (hm : FieldsAlike L m m') (hi : s.asMapping? e.2 = some (i, m))
      (hj : t.asMapping? e'.2 = some (j, m')) :
      IndexesAlike L B (ix.add s e) (ix'.add t e') := by
    have hidentity : IndexesAlike L B { ix with byIdentity := ix.byIdentity.insert i e.1 }
        { ix' with byIdentity := ix'.byIdentity.insert j e.1 } := by
      refine ⟨fun {i' j'} hij' => ?_, hix.byItemsRef, hix.byItemsType, hix.typeCounts⟩
      rw [OrderedMap.get?_insert, OrderedMap.get?_insert, hix.byIdentity hij']
      rw [hapart.beq hij hij']
    unfold ArrayIndex.add
    rw [hi, hj]
    dsimp only
    rw [hm.schemaType? h, ← hkey]
    split
    · have hitems := items?_alike h hm
      generalize ArrayIndex.items? s m = o at hitems ⊢
      generalize ArrayIndex.items? t m' = o' at hitems ⊢
      cases hitems with
      | none => exact hidentity
      | some halike => exact hidentity.addItems h e.1 halike
    · exact hidentity
  rcases hvalue with hsame | ⟨name, i, j, rfl, hj, hnoted⟩
  · have hrel := h.asMapping? hsame
    generalize hi : s.asMapping? e.2 = o at hrel
    generalize hj : t.asMapping? e'.2 = o' at hrel
    cases hrel with
    | none =>
        unfold ArrayIndex.add
        rw [hi, hj]
        exact hix
    | some hm => exact entered (.inl hm.1) (fieldsAlike_of_alike hm.2) hi hj
  · obtain ⟨m, m', hm, hm', hfields⟩ := (hb hnoted).fieldsAlike
    exact entered (.inr ⟨name, hnoted⟩) hfields (asMapping?_eq_some.mpr ⟨rfl, hm⟩)
      (asMapping?_eq_some.mpr ⟨hj, hm'⟩)

theorem IndexesAlike.find? (hix : IndexesAlike L B ix ix') (h : Mirrors s t L)
    (hm : Alike L m m') (hij : Counterparts L B i j) (byType : Bool) :
    ix.find? s i m byType = ix'.find? t j m' byType := by
  unfold ArrayIndex.find?
  rw [hix.byIdentity hij, hix.byItemsRef, hix.byItemsType]
  have hitems := items?_alike h (fieldsAlike_of_alike hm)
  generalize ArrayIndex.items? s m = o at hitems ⊢
  generalize ArrayIndex.items? t m' = o' at hitems ⊢
  cases hitems with
  | none => rfl
  | some halike =>
      have hfields := fieldsAlike_of_alike halike
      simp only [Option.bind_eq_bind, Option.bind_some, hfields.ref? h, hfields.schemaType? h]

end Index

section Steps

variable {L : Value → Value → Prop} {B : String → NodeId → NodeId → Prop} {c c' : Scope}
  {p p' : Progress} {i j : NodeId} {k : Key}

theorem alike_limit (hp : InStep L B p p') (kind : LimitKind) (detail : String) :
    RunsAlike (InStep L B) (limit kind detail) (limit kind detail) p p' := by
  have hsite : site p = site p' := by
    unfold site
    rw [hp.label]
  refine runsAlike_modify ?_
  rw [hp.limits, hsite]
  split
  · exact hp
  · exact ⟨hp.names, hp.visited, hp.label, hp.before, rfl⟩

theorem alike_add (hp : InStep L B p p') (k : Key) :
    RunsAlike (InStep L B) (add k) (add k) p p' := by
  refine runsAlike_get_bind ?_
  rw [hp.names]
  split
  · exact runsAlike_pure hp _
  · refine (runsAlike_modify ?_).bind fun _ _ _ hq => runsAlike_pure hq _
    exact ⟨congrArg (· ++ [k]) hp.names, hp.visited, hp.label, hp.before, hp.limits⟩

theorem alike_visit (h : Twins L B c c') (hp : InStep L B p p')
    (hij : Counterparts L B i j) :
    RunsAlike (InStep L B) (visit i) (visit j) p p' := by
  refine runsAlike_modify ⟨hp.names, fun {i' j'} hij' => ?_, hp.label, hp.before, hp.limits⟩
  rw [List.contains_cons, List.contains_cons, hp.visited hij', h.apart.beq hij' hij]

theorem alike_passOver (hp : InStep L B p p') (l l' : List Value) :
    RunsAlike (InStep L B) (passOver l) (passOver l') p p' :=
  runsAlike_modify ⟨hp.names, hp.visited, hp.label, hp.before, hp.limits⟩

-- What was met before is left.
theorem alike_unlessVisited (hp : InStep L B p p') (hij : Counterparts L B i j) {x y : Walk Unit}
    {l l' : List Value} (hxy : RunsAlike (InStep L B) x y p p') :
    RunsAlike (InStep L B)
      (do
        if p.visited.contains i then
          passOver l
          return
        x)
      (do
        if p'.visited.contains j then
          passOver l'
          return
        y) p p' := by
  rw [hp.visited hij]
  split
  · exact (alike_passOver hp _ _).bind fun _ _ _ hq => runsAlike_pure hq _
  · exact hxy

theorem alike_isFull (h : Twins L B c c') (hp : InStep L B p p') :
    RunsAlike (InStep L B) (isFull c) (isFull c') p p' := by
  refine runsAlike_get_bind ?_
  rw [h.settings, hp.names, hp.before]
  exact runsAlike_pure hp _

theorem alike_mayEnter (h : Twins L B c c') (hp : InStep L B p p') (depth : Nat) :
    RunsAlike (InStep L B) (mayEnter c depth) (mayEnter c' depth) p p' := by
  have refuse {q q' : Progress} (hq : InStep L B q q') (kind : LimitKind) (detail : String) :
      RunsAlike (InStep L B) (do limit kind detail; return false) (do limit kind detail; return false)
        q q' :=
    (alike_limit hq kind detail).bind fun _ _ _ hr => runsAlike_pure hr _
  unfold mayEnter namesDetail
  rw [h.settings, h.isLarge]
  dsimp only
  split
  · exact refuse hp _ _
  · refine (alike_isFull h hp).bind fun full q q' hq => ?_
    split
    · exact refuse hq _ _
    · split
      · exact refuse hq _ _
      · exact runsAlike_pure hq _

end Steps

section Walk

variable {L : Value → Value → Prop} {B : String → NodeId → NodeId → Prop} {c c' : Scope}
  {p p' : Progress} {i j : NodeId} {m m' : Entries}
  {walk walk' : Value → Walk Unit}

-- What two walks may meet in step: a component with a note of its name is no array, and the name was
-- recorded.
inductive Meets (L : Value → Value → Prop) (B : String → NodeId → NodeId → Prop) (c c' : Scope)
    (p : Progress) : Value → Value → Prop
  | same {v v' : Value} (h : L v v') : Meets L B c c' p v v'
  | noted {i j : NodeId} {name : String} (h : B name i j)
      (hreg : c'.registry.field? name = some (.node j))
      (harray : ∀ m, c.store.mapping? i = some m → isArray c.store m = false)
      (hname : p.names.contains (.str name) = true) : Meets L B c c' p (.node i) (.node j)

def WalkAlike (L : Value → Value → Prop) (B : String → NodeId → NodeId → Prop) (c c' : Scope)
    (walk walk' : Value → Walk Unit) : Prop :=
  ∀ v v' p p', InStep L B p p' → Meets L B c c' p v v' →
    RunsAlike (InStep L B) (walk v) (walk' v') p p'

theorem forall₂_firstBranches {l l' : List Value} (hl : List.Forall₂ L l l') (bound : Int) :
    List.Forall₂ L (firstBranches bound l) (firstBranches bound l') := by
  unfold firstBranches
  rw [hl.length_eq]
  split
  · exact List.forall₂_take _ hl
  · exact List.forall₂_take _ hl

section Parts

variable (h : Twins L B c c') (hw : WalkAlike L B c c' walk walk') (hm : FieldsAlike L m m')
include h hw hm

theorem alike_walkBranches (hp : InStep L B p p') {keywords : List String}
    (hk : resolvedRefKey ∉ keywords) :
    RunsAlike (InStep L B) (walkBranches c walk m keywords) (walkBranches c' walk' m' keywords) p p' := by
  induction keywords generalizing p p' with
  | nil => exact runsAlike_pure hp _
  | cons keyword rest ih =>
      rw [List.mem_cons, not_or] at hk
      have hl := hm.sequence h.mirrors keyword (Ne.symm hk.1)
      have pass {q q' : Progress} (hq : InStep L B q q') :
          RunsAlike (InStep L B)
            ((firstBranches c'.settings.maxBranches (branches c.store m keyword)).forM walk)
            ((firstBranches c'.settings.maxBranches (branches c'.store m' keyword)).forM walk') q q' :=
        runsAlike_forM (forall₂_firstBranches hl _)
          (fun v v' q q' hq hv => hw v v' q q' hq (.same hv)) hq
      have hlength : (branches c.store m keyword).length = (branches c'.store m' keyword).length :=
        hl.length_eq
      have hempty : (branches c.store m keyword).isEmpty = (branches c'.store m' keyword).isEmpty := by
        rw [Bool.eq_iff_iff, List.isEmpty_iff_length_eq_zero, List.isEmpty_iff_length_eq_zero, hlength]
      unfold walkBranches
      dsimp only
      rw [h.settings, hempty, hlength]
      split
      · split
        · refine (alike_limit hp _ _).bind fun _ q q' hq => ?_
          exact (pass hq).bind fun _ q q' hq => ih hq hk.2
        · exact (pass hp).bind fun _ q q' hq => ih hq hk.2
      · exact ih hp hk.2

omit hm in
theorem alike_walkProperties (hp : InStep L B p p') {l l' : List Value} (hl : List.Forall₂ L l l')
    (count : Nat) :
    RunsAlike (InStep L B) (walkProperties c walk l count) (walkProperties c' walk' l' count) p p' := by
  induction hl generalizing p p' count with
  | nil => exact runsAlike_pure hp _
  | cons hv _ ih =>
      unfold walkProperties namesDetail
      rw [h.settings]
      split
      · exact runsAlike_pure hp _
      · refine (alike_isFull h hp).bind fun full q q' hq => ?_
        split
        · exact (alike_limit hq _ _).bind fun _ _ _ hr => runsAlike_pure hr _
        · exact (hw _ _ q q' hq (.same hv)).bind fun _ _ _ hr => ih hr _

omit hw in
theorem properties_alike : Alike L (properties c.store m) (properties c'.store m') := by
  have hrel := hm.mapping? h.mirrors "properties" (by decide)
  unfold properties
  generalize (m.field? "properties").bind c.store.asMapping? = o at hrel ⊢
  generalize (m'.field? "properties").bind c'.store.asMapping? = o' at hrel ⊢
  cases hrel with
  | none => exact ⟨rfl, .nil⟩
  | some he => exact he.2

theorem alike_walkAllProperties (hp : InStep L B p p') :
    RunsAlike (InStep L B) (walkAllProperties c walk m) (walkAllProperties c' walk' m') p p' := by
  have hproperties := properties_alike h hm
  have hsize := hproperties.size
  have hempty : (properties c.store m).isEmpty = (properties c'.store m').isEmpty := by
    unfold OrderedMap.size at hsize
    unfold OrderedMap.isEmpty
    rw [Bool.eq_iff_iff, List.isEmpty_iff_length_eq_zero, List.isEmpty_iff_length_eq_zero, hsize]
  unfold walkAllProperties
  dsimp only
  rw [h.settings, hempty, hsize]
  split
  · refine (alike_limit hp _ _).bind fun _ q q' hq => ?_
    exact alike_walkProperties h hw hq hproperties.2 0
  · exact alike_walkProperties h hw hp hproperties.2 0

omit h in
theorem alike_walkItems (hp : InStep L B p p') :
    RunsAlike (InStep L B) (walkItems walk m) (walkItems walk' m') p p' := by
  have hitems := hm "items" (by decide)
  unfold walkItems
  generalize m.field? "items" = o at hitems ⊢
  generalize m'.field? "items" = o' at hitems ⊢
  cases hitems with
  | none => exact runsAlike_pure hp _
  | some hv => exact hw _ _ p p' hp (.same hv)

theorem alike_walkParts (hp : InStep L B p p') :
    RunsAlike (InStep L B) (walkParts c walk m) (walkParts c' walk' m') p p' := by
  unfold walkParts
  refine (alike_walkBranches h hw hm hp (by decide)).bind fun _ q q' hq => ?_
  exact (alike_walkItems hw hm hq).bind fun _ r r' hr => alike_walkAllProperties h hw hm hr

end Parts

variable (h : Twins L B c c') (hw : WalkAlike L B c c' walk walk')
include h hw

-- A component that is there; it is walked only if it was not met before.
theorem alike_walkFound (hp : InStep L B p p') (depth : Nat) (name : String)
    (hij : Counterparts L B i j) (hm : FieldsAlike L m m')
    (hi : (c.registry.field? name).bind c.store.asMapping? = some (i, m))
    (hj : (c'.registry.field? name).bind c'.store.asMapping? = some (j, m'))
    (hmeets : isArray c.store m = false → Meets L B c c' p (.node i) (.node j)) :
    RunsAlike (InStep L B) (walkComponent c walk depth name) (walkComponent c' walk' depth name) p p' := by
  unfold walkComponent
  rw [hi, hj]
  refine runsAlike_get_bind ?_
  rw [hp.visited hij]
  split
  · exact (alike_passOver hp _ _).bind fun _ _ _ hq => runsAlike_pure hq _
  · rw [h.settings]
    split
    · exact (alike_passOver hp _ _).bind fun _ _ _ hq => runsAlike_pure hq _
    · rw [h.isArray hm]
      split
      · refine (alike_visit h hp hij).bind fun _ q q' hq => ?_
        refine RunsAlike.bind ?_ fun _ _ _ hr => runsAlike_pure hr _
        refine hw _ _ q q' hq (.same ?_)
        have hitems := hm "items" (by decide)
        generalize m.field? "items" = o at hitems ⊢
        generalize m'.field? "items" = o' at hitems ⊢
        cases hitems with
        | none => exact h.scalar _
        | some hv => exact hv
      · next harray =>
        refine RunsAlike.bind ?_ fun _ _ _ hr => runsAlike_pure hr _
        refine hw _ _ p p' hp (hmeets ?_)
        rw [h.isArray hm]
        exact eq_false_of_ne_true harray

theorem alike_walkComponent (hp : InStep L B p p') (depth : Nat) {name : String}
    (hname : p.names.contains (.str name) = true) :
    RunsAlike (InStep L B) (walkComponent c walk depth name) (walkComponent c' walk' depth name) p p' := by
  have missing {q q' : Progress} (hq : InStep L B q q')
      (hi : (c.registry.field? name).bind c.store.asMapping? = none)
      (hj : (c'.registry.field? name).bind c'.store.asMapping? = none) :
      RunsAlike (InStep L B) (walkComponent c walk depth name) (walkComponent c' walk' depth name) q q' := by
    unfold walkComponent
    rw [hi, hj]
    exact runsAlike_pure hq _
  have hrel := h.field? name
  generalize ho : c.registry.field? name = o at hrel
  generalize ho' : c'.registry.field? name = o' at hrel
  cases hrel with
  | none => exact missing hp (by rw [ho]; rfl) (by rw [ho']; rfl)
  | @some v v' hv =>
      cases hv with
      | noted hnoted =>
          obtain ⟨m, m', hm, hm', hfields⟩ := (h.noted hnoted).fieldsAlike
          refine alike_walkFound h hw hp depth name (.inr ⟨name, hnoted⟩) hfields
            (by rw [ho]; exact asMapping?_eq_some.mpr ⟨rfl, hm⟩)
            (by rw [ho']; exact asMapping?_eq_some.mpr ⟨rfl, hm'⟩)
            fun harray => .noted hnoted ho' (fun n hn => ?_) hname
          obtain rfl := Option.some.inj (hm.symm.trans hn)
          exact harray
      | same hsame =>
          have hmapping := h.mirrors.asMapping? hsame
          generalize hi : c.store.asMapping? v = e at hmapping
          generalize hj : c'.store.asMapping? v' = e' at hmapping
          cases hmapping with
          | none => exact missing hp (by rw [ho]; exact hi) (by rw [ho']; exact hj)
          | some he =>
              exact alike_walkFound h hw hp depth name (.inl he.1) (fieldsAlike_of_alike he.2)
                (by rw [ho]; exact hi) (by rw [ho']; exact hj) fun _ => .same he.1

theorem alike_walkNamed (hp : InStep L B p p') (depth : Nat) (hij : Counterparts L B i j)
    (hm : Alike L m m') (name : String) :
    RunsAlike (InStep L B) (walkNamed c walk depth i m name) (walkNamed c' walk' depth j m' name) p p' := by
  have href : m.ref? = m'.ref? := (fieldsAlike_of_alike hm).ref? h.mirrors
  have finish {q q' : Progress} (hq : InStep L B q q') (found : Bool) :
      RunsAlike (InStep L B) (finishNamed i m' found) (finishNamed j m' found) q q' := by
    unfold finishNamed
    split
    · exact (alike_visit h hq hij).bind fun _ _ _ hr => runsAlike_pure hr _
    · exact runsAlike_pure hq _
  have hnamed : Ensures (add (.str name)) p
      (fun isNew q => isNew = true → q.names.contains (.str name) = true) fun _ _ => True := by
    refine ensures_add.mpr ?_
    split
    · intro hnew
      cases hnew
    · intro _
      simp
  unfold walkNamed
  rw [h.isOwnBody hm hij, href]
  split
  · exact (alike_add hp _).discard.bind fun _ _ _ hq => runsAlike_pure hq _
  · refine (alike_add hp _).bind_of_ensures hnamed fun isNew q q' hq hname => ?_
    split
    · next hnew =>
      exact (alike_walkComponent h hw hq depth (hname hnew)).bind fun found _ _ hr => finish hr found
    · exact (runsAlike_pure hq true).bind fun found _ _ hr => finish hr found

theorem alike_walkArray (hp : InStep L B p p') (isSeed : Bool)
    (hij : Counterparts L B i j) (hm : Alike L m m') :
    RunsAlike (InStep L B) (walkArray c walk isSeed i m) (walkArray c' walk' isSeed j m') p p' := by
  have hfields := fieldsAlike_of_alike hm
  unfold walkArray
  rw [h.index.find? h.mirrors hm hij]
  refine (alike_visit h hp hij).bind fun _ q q' hq => (alike_passOver hq _ _).bind fun _ r r' hr => ?_
  split
  · refine (alike_add hr _).discard.bind fun _ q q' hq => (alike_passOver hq _ _).bind fun _ r r' hr => ?_
    exact alike_walkItems hw hfields hr
  · exact alike_walkItems hw hfields hr

-- A schema that is walked part by part.
theorem alike_enter (hp : InStep L B p p') (depth : Nat) (hij : Counterparts L B i j)
    (hm : FieldsAlike L m m') :
    RunsAlike (InStep L B) (enter c walk depth i m) (enter c' walk' depth j m') p p' := by
  unfold enter
  rw [h.settings]
  split
  · exact (alike_passOver hp _ _).bind fun _ _ _ hq => runsAlike_pure hq _
  · exact (alike_visit h hp hij).bind fun _ _ _ hq => alike_walkParts h hw hm hq

theorem alike_walkFresh (hp : InStep L B p p') (depth : Nat) (isSeed : Bool)
    (hij : Counterparts L B i j) (hm : Alike L m m') :
    RunsAlike (InStep L B) (walkFresh c walk depth isSeed i m) (walkFresh c' walk' depth isSeed j m')
      p p' := by
  have hfields := fieldsAlike_of_alike hm
  unfold walkFresh
  rw [h.referenceName? hm]
  cases Reachability.referenceName? m' with
  | some name =>
      refine (alike_walkNamed h hw hp depth hij hm name).bind fun all _ _ hq => ?_
      split
      · exact runsAlike_pure hq _
      · exact alike_enter h hw hq depth hij hfields
  | none =>
      dsimp only
      rw [h.isArray hfields]
      split
      · exact (alike_walkArray h hw hp isSeed hij hm).bind fun _ _ _ hq => runsAlike_pure hq _
      · exact alike_enter h hw hp depth hij hfields

end Walk

section Pass

variable {L : Value → Value → Prop} {B : String → NodeId → NodeId → Prop} {c c' : Scope}
  {p p' : Progress} {i j : NodeId} {name : String}

-- A body that names itself records nothing new where its name is there.
theorem run_walkNamed_of_isOwnBody {walk : Value → Walk Unit} {m : Entries}
    (hown : isOwnBody c.registry i m = true) (hname : p.names.contains (.str name) = true) (depth : Nat) :
    (walkNamed c walk depth i m name).run.run p = (.ok false, p) := by
  have hadd : (add (.str name)).run.run p = (.ok false, p) := by
    show (if p.names.contains (.str name) then pure false else do
      modify fun p => { p with names := p.names ++ [.str name] }
      return true : Walk Bool).run.run p = _
    rw [if_pos hname]
    rfl
  unfold walkNamed
  rw [if_pos hown]
  show ((fun _ => PUnit.unit) <$> add (.str name) >>= fun _ => pure false).run.run p = _
  rw [map_eq_pure_bind, run_bind, run_bind, hadd]
  rfl

theorem Noted.referenceName? {s t : Store} (hnoted : Noted s t L name i j) :
    ∃ m m', s.mapping? i = some m ∧ t.mapping? j = some m' ∧ FieldsAlike L m m' ∧
      referenceName? m = none ∧ referenceName? m' = some name := by
  cases hnoted with
  | @intro m m' hm hm' halike hplain href hname =>
      refine ⟨m, _, hm, hm', fieldsAlike_withNote halike name, ?_, ?_⟩
      · unfold Reachability.referenceName? Entries.ref? Entries.text? Entries.field?
        rw [Entries.has, OrderedMap.contains_eq_isSome_get?, Option.isSome_eq_false_iff,
          Option.isNone_iff_eq_none] at hplain href
        rw [hplain, href]
        rfl
      · have htext : (withNote name m').text? resolvedRefKey = some (schemaPointer ++ name) := by
          unfold withNote Entries.text? Entries.field?
          rw [OrderedMap.get?_insert, Key.str_beq.mpr rfl]
          rfl
        unfold Reachability.referenceName?
        rw [htext, Option.bind_some, hname]
        rfl

-- The name was recorded before the component is met, so the walk enters it with the note as well.
theorem alike_walkFresh_of_noted {walk walk' : Value → Walk Unit} (h : Twins L B c c')
    (hw : WalkAlike L B c c' walk walk') (hp : InStep L B p p') (depth : Nat) (isSeed : Bool)
    {m m' : Entries} (hnoted : B name i j) (hfields : FieldsAlike L m m')
    (hplain : Reachability.referenceName? m = none)
    (hnamed : Reachability.referenceName? m' = some name)
    (harray : isArray c.store m = false) (hreg : c'.registry.field? name = some (.node j))
    (hname : p.names.contains (.str name) = true) :
    RunsAlike (InStep L B) (walkFresh c walk depth isSeed i m) (walkFresh c' walk' depth isSeed j m')
      p p' := by
  unfold walkFresh
  rw [hplain, hnamed]
  dsimp only
  rw [if_neg (by rw [harray]; exact Bool.false_ne_true)]
  have hown : isOwnBody c'.registry j m' = true := by
    unfold isOwnBody
    rw [hnamed]
    exact decide_eq_true hreg
  have hrecorded : p'.names.contains (.str name) = true := hp.names ▸ hname
  refine RunsAlike.bind_right (run_walkNamed_of_isOwnBody hown hrecorded depth) ?_
  exact alike_enter h hw hp depth (.inr ⟨name, hnoted⟩) hfields

theorem walkAlike_walk (h : Twins L B c c') (allowance depth : Nat) (isSeed : Bool) :
    WalkAlike L B c c' (walk c allowance depth isSeed) (walk c' allowance depth isSeed) := by
  induction allowance generalizing depth isSeed with
  | zero => exact fun _ _ _ _ hp _ => runsAlike_throw hp _
  | succ allowance ih =>
      have hw := ih (depth + 1) false
      intro v v' p p' hp hv
      unfold walk
      refine (alike_mayEnter h hp depth).bind_of_ensures
        (ensures_mayEnter (c := c) (p := p)) fun entered q q' hq hgrown => ?_
      split
      · exact runsAlike_pure hq _
      · next hentered =>
        obtain rfl : q = p := by
          rw [Bool.not_eq_true', Bool.not_eq_false] at hentered
          rwa [if_pos hentered] at hgrown
        dsimp only
        cases hv with
        | @noted i j name hnoted hreg harray hname =>
            obtain ⟨m, m', hm, hm', hfields, hplain, hnamed⟩ := (h.noted hnoted).referenceName?
            have hij : Counterparts L B i j := .inr ⟨name, hnoted⟩
            rw [asMapping?_eq_some.mpr ⟨rfl, hm⟩, asMapping?_eq_some.mpr ⟨rfl, hm'⟩]
            refine runsAlike_get_bind (alike_unlessVisited hq hij ?_)
            exact alike_walkFresh_of_noted h hw hq depth isSeed hnoted hfields hplain hnamed
              (harray m hm) hreg hname
        | @same v v' hsame =>
            have hrel := h.mirrors.asMapping? hsame
            generalize c.store.asMapping? v = e at hrel ⊢
            generalize c'.store.asMapping? v' = e' at hrel ⊢
            cases hrel with
            | none => exact runsAlike_pure hq _
            | @some e e' he =>
                obtain ⟨i, m⟩ := e
                obtain ⟨j, m'⟩ := e'
                obtain ⟨hnode, halike⟩ := he
                dsimp only at hnode halike
                have hij : Counterparts L B i j := .inl hnode
                refine runsAlike_get_bind (alike_unlessVisited hq hij ?_)
                exact alike_walkFresh h hw hq depth isSeed hij halike

def SeedsAlike (L : Value → Value → Prop) (e e' : Seed) : Prop := e.label = e'.label ∧ L e.schema e'.schema

theorem alike_rescue (h : Twins L B c c') {e e' : Seed} (he : SeedsAlike L e e') (hp : InStep L B p p') :
    RunsAlike (InStep L B) (rescue c e) (rescue c' e') p p' := by
  unfold rescue
  refine (alike_limit hp _ _).bind fun _ q q' hq => ?_
  have hname : (c.store.asMapping? e.schema).bind (Reachability.referenceName? ·.2) =
      (c'.store.asMapping? e'.schema).bind (Reachability.referenceName? ·.2) :=
    rel_eq_iff.mp (rel_bind (h.mirrors.asMapping? he.2) fun _ _ hm => rel_eq_iff.mpr (h.referenceName? hm.2))
  rw [hname]
  split
  · exact (alike_add hq _).discard
  · exact runsAlike_pure hq _

theorem inStep_walkSeed (h : Twins L B c c') {e e' : Seed} (he : SeedsAlike L e e') (hp : InStep L B p p') :
    InStep L B ((walkSeed c e).run p).2 ((walkSeed c' e').run p').2 := by
  have hstart : InStep L B { p with label := e.label, before := p.names.length }
      { p' with label := e'.label, before := p'.names.length } :=
    ⟨hp.names, hp.visited, he.1, congrArg List.length hp.names, hp.limits⟩
  have hwalk := walkAlike_walk h nestingAllowance 0 true _ _ _ _ hstart (.same he.2)
  exact (hwalk.tryCatch fun _ _ _ hq => alike_rescue h he hq).2

theorem inStep_walkSeeds (h : Twins L B c c') {l l' : List Seed} (hl : List.Forall₂ (SeedsAlike L) l l')
    (hp : InStep L B p p') : InStep L B ((walkSeeds c l).run p).2 ((walkSeeds c' l').run p').2 := by
  induction hl generalizing p p' with
  | nil => exact hp
  | cons he _ ih =>
      have hseed := inStep_walkSeed h he hp
      rw [walkSeeds_cons, walkSeeds_cons, ← h.settings, hseed.names]
      split
      · exact (alike_limit hseed _ _).2
      · exact ih hseed

end Pass

section Collect

variable {s t : Store} {d : NodeId} {L : Value → Value → Prop} {B : String → NodeId → NodeId → Prop}
  {v v' : Value} {m m' : Entries}

theorem responseName?_alike (h : Mirrors s t L) (hm : Alike L m m') : responseName? m = responseName? m' := by
  unfold responseName?
  rw [(fieldsAlike_of_alike hm).ref? h]

theorem followFrom_alike (h : Mirrors s t L) (hm : Alike L m m') (bound : Nat) (seen : List String)
    (hv : L v v') : Option.Rel (Alike L) (followFrom s m bound seen v) (followFrom t m' bound seen v') := by
  induction bound generalizing seen v v' with
  | zero => exact .none
  | succ bound ih =>
      refine rel_bind (h.asMapping? hv) fun e e' he => ?_
      obtain ⟨i, n⟩ := e
      obtain ⟨j, n'⟩ := e'
      obtain ⟨-, halike⟩ := he
      dsimp only at halike ⊢
      rw [responseName?_alike h halike]
      cases responseName? n' with
      | none => exact .some halike
      | some name =>
          dsimp only
          split
          · exact .none
          · exact rel_bind (hm.get? (.str name)) fun _ _ => ih (name :: seen)

theorem seedsOf_alike (h : Mirrors s t L) (hm : Alike L m m') (label : String) (hv : L v v') :
    List.Forall₂ (SeedsAlike L) (seedsOf s m label v) (seedsOf t m' label v') := by
  have hrel := followFrom_alike h hm (m.size + 2) [] hv
  unfold seedsOf followResponse
  rw [← hm.size]
  generalize followFrom s m (m.size + 2) [] v = o at hrel ⊢
  generalize followFrom t m' (m.size + 2) [] v' = o' at hrel ⊢
  cases hrel with
  | none => exact .nil
  | some halike =>
      refine List.rel_map (fun w w' hw => ?_) (h.mediaSchemas halike)
      exact ⟨rfl, hw⟩

variable (h : Retells s t d L B)
include h

theorem Retells.seeds : List.Forall₂ (SeedsAlike L) (seeds s d) (seeds t d) := by
  have hresponses : Alike L (responseComponents s d) (responseComponents t d) := by
    have hrel := h.responses
    unfold responseComponents
    generalize s.components? d "responses" = o at hrel ⊢
    generalize t.components? d "responses" = o' at hrel ⊢
    cases hrel with
    | none => exact ⟨rfl, .nil⟩
    | some he => exact he
  refine List.rel_append (forall₂_flatMap hresponses.entries fun e e' he => ?_)
    (forall₂_flatMap h.operations fun o o' ho => ?_)
  · obtain ⟨name, v⟩ := e
    obtain ⟨name', v'⟩ := e'
    obtain ⟨rfl, hv⟩ := he
    exact seedsOf_alike h.mirrors hresponses _ hv
  · obtain ⟨hpath, hmethod, hfields⟩ := ho
    have hrel := (fieldsAlike_of_alike hfields).mapping? h.mirrors "responses" (by decide)
    unfold operationSeeds
    rw [hpath, hmethod]
    generalize (o.fields.field? "responses").bind s.asMapping? = e at hrel ⊢
    generalize (o'.fields.field? "responses").bind t.asMapping? = e' at hrel ⊢
    cases hrel with
    | none => exact .nil
    | some he =>
        refine forall₂_flatMap he.2.entries fun r r' hr => ?_
        obtain ⟨status, v⟩ := r
        obtain ⟨status', v'⟩ := r'
        obtain ⟨rfl, hv⟩ := hr
        exact seedsOf_alike h.mirrors hresponses _ hv

theorem Retells.components : List.Forall₂ (ComponentsAlike L B) (registryOf s d).entries
    (registryOf t d).entries := by
  have hrel := h.registry
  unfold registryOf
  generalize s.registry? d = o at hrel ⊢
  generalize t.registry? d = o' at hrel ⊢
  cases hrel with
  | none => exact .nil
  | some he => exact he

theorem Retells.twins (settings : ReachabilitySettings) :
    Twins L B (Reachability.scopeOf s settings d) (Reachability.scopeOf t settings d) where
  mirrors := h.mirrors
  scalar := h.scalar
  noted := h.noted
  apart := h.apart
  components := h.components
  settings := rfl
  index := by
    have hempty : IndexesAlike L B .empty .empty := ⟨fun _ => rfl, rfl, rfl, rfl⟩
    exact List.rel_foldl (fun _ _ hix _ _ he => hix.add h.mirrors h.apart h.noted he) hempty h.components

-- The same names are found, in the same order.
theorem Retells.collect (settings : ReachabilitySettings) :
    (collect s settings d).names = (collect t settings d).names ∧
      (collect s settings d).limits = (collect t settings d).limits := by
  have hstart : InStep L B ⟨[], [], "", 0, [], []⟩ ⟨[], [], "", 0, [], []⟩ := ⟨rfl, fun _ => rfl, rfl, rfl, rfl⟩
  have hend := inStep_walkSeeds (h.twins settings) h.seeds hstart
  exact ⟨hend.names, hend.limits⟩

end Collect

end ApiGraph.Splitting
