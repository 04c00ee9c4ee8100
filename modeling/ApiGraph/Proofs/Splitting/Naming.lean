import ApiGraph.Naming.Collect
import ApiGraph.Proofs.Alike
import ApiGraph.Proofs.Splitting.Retelling

namespace ApiGraph.Splitting

open Store Naming
open Resolve (componentIn?)

section Tables

variable {L : Value → Value → Prop} {B : String → NodeId → NodeId → Prop} {i j : NodeId}
  {tb tb' : InlineTable}

-- The schemas that stand for each other have the same names, in both indexes.
structure TablesAlike (L : Value → Value → Prop) (B : String → NodeId → NodeId → Prop) (tb tb' : InlineTable) :
    Prop where
  entries : List.Forall₂ (fun e e' => Counterparts L B e.1 e'.1 ∧ e.2 = e'.2) tb.toList tb'.toList
  byName : List.Forall₂ (fun e e' => e.1 = e'.1 ∧ List.Forall₂ (Counterparts L B) e.2 e'.2)
    tb.byName.entries tb'.byName.entries

theorem tablesAlike_empty : TablesAlike L B .empty .empty := ⟨.nil, .nil⟩

theorem TablesAlike.size (h : TablesAlike L B tb tb') : tb.size = tb'.size := h.entries.length_eq

theorem TablesAlike.nameOf? (h : TablesAlike L B tb tb') (hapart : Apart L B)
    (hij : Counterparts L B i j) : tb.nameOf? i = tb'.nameOf? j := by
  have hentries := h.entries
  unfold InlineTable.toList at hentries
  unfold InlineTable.nameOf? OrderedMap.get?
  generalize tb.entries.entries = l at hentries ⊢
  generalize tb'.entries.entries = l' at hentries ⊢
  induction hentries with
  | nil => rfl
  | @cons e e' l l' he _ ih =>
      rw [List.find?_cons, List.find?_cons, hapart.beq he.1 hij]
      cases e'.1 == j with
      | true => exact congrArg some he.2
      | false => exact ih

theorem TablesAlike.contains (h : TablesAlike L B tb tb') (hapart : Apart L B)
    (hij : Counterparts L B i j) : tb.contains i = tb'.contains j := by
  rw [InlineTable.contains_eq_isSome_nameOf?, InlineTable.contains_eq_isSome_nameOf?, h.nameOf? hapart hij]

-- What has a name stands for something in the other description.
theorem exists_entry_of_nameOf? {tb : InlineTable} {name : String} (h : tb.nameOf? i = some name) :
    ∃ e ∈ tb.toList, e.1 = i := by
  obtain ⟨e, he, -⟩ := Option.map_eq_some_iff.mp h
  exact ⟨e, List.mem_of_find?_eq_some he,
    eq_of_beq (List.find?_some (p := fun e : NodeId × String => e.1 == i) he)⟩

theorem TablesAlike.exists_right (h : TablesAlike L B tb tb') {name : String}
    (hname : tb.nameOf? i = some name) : ∃ j, Counterparts L B i j := by
  obtain ⟨e, he, rfl⟩ := exists_entry_of_nameOf? hname
  obtain ⟨e', -, hpair⟩ := exists_of_forall₂ h.entries he
  exact ⟨e'.1, hpair.1⟩

theorem TablesAlike.exists_left (h : TablesAlike L B tb tb') {name : String}
    (hname : tb'.nameOf? j = some name) : ∃ i, Counterparts L B i j := by
  obtain ⟨e', he', rfl⟩ := exists_entry_of_nameOf? hname
  obtain ⟨e, -, hpair⟩ := exists_of_forall₂ (List.Forall₂.flip h.entries) he'
  exact ⟨e.1, hpair.1⟩

theorem TablesAlike.nodesNamed (h : TablesAlike L B tb tb') (name : String) :
    List.Forall₂ (Counterparts L B) (tb.nodesNamed name) (tb'.nodesNamed name) := by
  have hbyName := h.byName
  unfold InlineTable.nodesNamed OrderedMap.get?
  generalize tb.byName.entries = l at hbyName ⊢
  generalize tb'.byName.entries = l' at hbyName ⊢
  induction hbyName with
  | nil => exact .nil
  | @cons e e' l l' he _ ih =>
      rw [List.find?_cons, List.find?_cons, he.1]
      cases e'.1 == name with
      | true => exact he.2
      | false => exact ih

theorem place_alike {l l' : List (String × List NodeId)} {nodes nodes' : List NodeId}
    (h : List.Forall₂ (fun e e' => e.1 = e'.1 ∧ List.Forall₂ (Counterparts L B) e.2 e'.2) l l') (name : String)
    (hnodes : List.Forall₂ (Counterparts L B) nodes nodes') :
    List.Forall₂ (fun e e' => e.1 = e'.1 ∧ List.Forall₂ (Counterparts L B) e.2 e'.2)
      (OrderedMap.place name nodes l) (OrderedMap.place name nodes' l') := by
  induction h with
  | nil => exact .cons ⟨rfl, hnodes⟩ .nil
  | @cons e e' l l' he hl ih =>
      unfold OrderedMap.place
      rw [he.1]
      split
      · exact .cons ⟨rfl, hnodes⟩ hl
      · exact .cons he ih

theorem TablesAlike.assign (h : TablesAlike L B tb tb') (hapart : Apart L B)
    (hij : Counterparts L B i j) (name : String) :
    TablesAlike L B (tb.assign i name).1 (tb'.assign j name).1 ∧
      (tb.assign i name).2 = (tb'.assign j name).2 := by
  unfold InlineTable.assign
  have hname := h.nameOf? hapart hij
  cases hkept : tb'.nameOf? j with
  | some kept =>
      rw [InlineTable.assignment_of_named name hkept,
        InlineTable.assignment_of_named name (hname.trans hkept)]
      exact ⟨h, rfl⟩
  | none =>
      rw [InlineTable.assignment_of_new name hkept, InlineTable.assignment_of_new name (hname.trans hkept)]
      have hnodes : List.Forall₂ (Counterparts L B) (tb.nodesNamed name ++ [i]) (tb'.nodesNamed name ++ [j]) :=
        List.rel_append (h.nodesNamed name) (.cons hij .nil)
      refine ⟨⟨?_, place_alike h.byName name hnodes⟩, ?_⟩
      · unfold InlineTable.toList
        rw [OrderedMap.entries_insert_of_get?_eq_none name (hname.trans hkept),
          OrderedMap.entries_insert_of_get?_eq_none name hkept]
        exact List.rel_append h.entries (.cons ⟨hij, rfl⟩ .nil)
      · dsimp only
        rw [hnodes.length_eq]

end Tables

section Scope

variable {s t : Store} {L : Value → Value → Prop} {B : String → NodeId → NodeId → Prop}
  {m m' : Entries} {i j : NodeId}

theorem namedProperties_alike (h : Mirrors s t L) (hm : FieldsAlike L m m') :
    Option.Rel (Alike L) (properties? s m) (properties? t m') :=
  rel_map (hm.mapping? h _ (by decide)) fun _ _ he => he.2

theorem getD_properties_alike (h : Mirrors s t L) (hm : FieldsAlike L m m') :
    Alike L ((properties? s m).getD .empty) ((properties? t m').getD .empty) := by
  have hrel := namedProperties_alike h hm
  generalize properties? s m = o at hrel ⊢
  generalize properties? t m' = o' at hrel ⊢
  cases hrel with
  | none => exact ⟨rfl, .nil⟩
  | some he => exact he

theorem isNameable_alike (h : Mirrors s t L) (hm : Alike L m m') : isNameable s m = isNameable t m' := by
  have hfields := fieldsAlike_of_alike hm
  have hproperties : (properties? s m).isSome = (properties? t m').isSome :=
    isSome_eq_of_rel (namedProperties_alike h hfields)
  unfold isNameable
  rw [hfields.ref? h, hm.has, hfields.schemaType? h, hproperties]

theorem namedBranches_alike (h : Mirrors s t L) (hm : FieldsAlike L m m') :
    List.Forall₂ (fun i j => L (.node i) (.node j)) (branches s m) (branches t m') := by
  have hkeys : ∀ keyword ∈ compositionKeys, keyword ≠ resolvedRefKey := by decide
  refine forall₂_flatMap (List.forall₂_same.mpr fun keyword hk => ⟨rfl, hkeys keyword hk⟩)
    (P := fun k k' => k = k' ∧ k ≠ resolvedRefKey) fun keyword keyword' hk => ?_
  obtain ⟨rfl, hk⟩ := hk
  exact forall₂_filterMap (hm.sequence h _ hk) fun v v' hv => rel_map (h.asMapping? hv) fun _ _ he => he.1

theorem arrayItems?_alike (h : Mirrors s t L) (hm : FieldsAlike L m m') :
    Option.Rel (fun i j => L (.node i) (.node j)) (arrayItems? s m) (arrayItems? t m') := by
  refine rel_bind (hm "items" (by decide)) fun v v' hv => rel_bind (h.asMapping? hv) fun e e' he => ?_
  obtain ⟨i, n⟩ := e
  obtain ⟨j, n'⟩ := e'
  dsimp only
  rw [hm.schemaType? h]
  split
  · exact .some he.1
  · exact .none

theorem bodies_alike (h : Mirrors s t L) (hm : Alike L m m') : List.Forall₂ L (bodies s m) (bodies t m') := by
  have hrel := (fieldsAlike_of_alike hm).mapping? h "responses" (by decide)
  unfold bodies
  generalize (m.field? "responses").bind s.asMapping? = o at hrel ⊢
  generalize (m'.field? "responses").bind t.asMapping? = o' at hrel ⊢
  cases hrel with
  | none => exact .nil
  | some he =>
      refine forall₂_flatMap he.2.2 fun v v' hv => ?_
      have hresponse := h.asMapping? hv
      generalize s.asMapping? v = e at hresponse ⊢
      generalize t.asMapping? v' = e' at hresponse ⊢
      cases hresponse with
      | none => exact .nil
      | some he => exact h.mediaSchemas he.2

-- What stands for a component has its fields, but for the note.
theorem entries_alike (h : Mirrors s t L) (hij : L (.node i) (.node j)) :
    Alike L (s.entries i) (t.entries j) := by
  cases h _ _ hij with
  | mapping hm hm' halike =>
      rw [entries_of_mapping? hm, entries_of_mapping? hm']
      exact halike
  | sequence hl hl' _ =>
      simp only [Store.entries, Store.mapping?, hl, hl', Option.getD_none]
      exact ⟨rfl, .nil⟩
  | set hl hl' =>
      simp only [Store.entries, Store.mapping?, hl, hl', Option.getD_none]
      exact ⟨rfl, .nil⟩
  | missing hi hj =>
      simp only [Store.entries, Store.mapping?, hi, hj, Option.getD_none]
      exact ⟨rfl, .nil⟩

theorem Counterparts.fieldsAlike (hij : Counterparts L B i j) (h : Mirrors s t L)
    (hb : ∀ {name i j}, B name i j → Noted s t L name i j) :
    FieldsAlike L (s.entries i) (t.entries j) := by
  rcases hij with hsame | ⟨name, hnoted⟩
  · exact fieldsAlike_of_alike (entries_alike h hsame)
  · obtain ⟨m, m', hm, hm', hfields⟩ := (hb hnoted).fieldsAlike
    rw [entries_of_mapping? hm, entries_of_mapping? hm']
    exact hfields

end Scope

section Passes

variable {L : Value → Value → Prop} {B : String → NodeId → NodeId → Prop}
  {c c' : Naming.Scope} {p p' : Naming.Progress} {i j : NodeId}

structure NamingTwins (L : Value → Value → Prop) (B : String → NodeId → NodeId → Prop)
    (c c' : Naming.Scope) : Prop where
  mirrors : Mirrors c.store c'.store L
  apart : Apart L B
  topLevel : ∀ {i j}, Counterparts L B i j → c.topLevel.contains i = c'.topLevel.contains j
  noted : ∀ {name i j}, B name i j → Noted c.store c'.store L name i j
  component : ∀ {name i j}, B name i j → c.topLevel.contains i = true
  maxDepth : c.maxDepth = c'.maxDepth

-- The same was named so far.
structure NamedAlike (L : Value → Value → Prop) (B : String → NodeId → NodeId → Prop)
    (p p' : Naming.Progress) : Prop where
  table : TablesAlike L B p.table p'.table
  visited : ∀ {i j}, Counterparts L B i j → p.visited.contains i = p'.visited.contains j
  limits : p.limits = p'.limits
  events : p.events = p'.events

theorem alike_assign (h : NamingTwins L B c c') (hp : NamedAlike L B p p')
    (hij : Counterparts L B i j) (name : String) :
    GivesAlike (NamedAlike L B) (assign i name) (assign j name) p p' := by
  obtain ⟨htable, hevents⟩ := hp.table.assign h.apart hij name
  refine givesAlike_modify ⟨htable, hp.visited, hp.limits, ?_⟩
  show p.events ++ (p.table.assign i name).2 = p'.events ++ (p'.table.assign j name).2
  rw [hp.events, hevents]

theorem alike_nameBodies (h : NamingTwins L B c c') {l l' : List (Entries × Value)}
    (hl : List.Forall₂ (fun e e' => Alike L e.1 e'.1 ∧ L e.2 e'.2) l l') (hp : NamedAlike L B p p')
    (counter : Nat) :
    GivesAlike (NamedAlike L B) (nameBodies c l counter) (nameBodies c' l' counter) p p' := by
  induction hl generalizing p p' counter with
  | nil => exact givesAlike_pure hp _
  | @cons e e' rest rest' he _ ih =>
      obtain ⟨operation, v⟩ := e
      obtain ⟨operation', v'⟩ := e'
      obtain ⟨hoperation, hv⟩ := he
      have hrel := h.mirrors.asMapping? hv
      unfold nameBodies
      generalize c.store.asMapping? v = o at hrel ⊢
      generalize c'.store.asMapping? v' = o' at hrel ⊢
      cases hrel with
      | none => exact ih hp counter
      | @some b b' hb =>
          obtain ⟨i, m⟩ := b
          obtain ⟨j, m'⟩ := b'
          obtain ⟨hnode, halike⟩ := hb
          dsimp only at hnode halike ⊢
          have hid := (fieldsAlike_of_alike hoperation).text? h.mirrors "operationId" (by decide)
          have hkeys := (getD_properties_alike h.mirrors (fieldsAlike_of_alike halike)).1
          rw [h.topLevel (.inl hnode), isNameable_alike h.mirrors halike, hid, hkeys]
          split
          · exact ih hp counter
          · refine (givesAlike_lift hp _).bind fun name q q' hq => ?_
            exact (alike_assign h hq (.inl hnode) name).bind fun _ _ _ hr => ih hr _

-- The properties and the items of a schema.
theorem alike_scanHeld (h : NamingTwins L B c c') (hp : NamedAlike L B p p')
    {m m' : Entries} (property : Option Key) (hm : FieldsAlike L m m')
    (scan scan' : Option Key → NodeId → Naming.Collect Unit)
    (hs : ∀ {i j}, L (.node i) (.node j) → ∀ {p p'}, NamedAlike L B p p' → ∀ property,
      GivesAlike (NamedAlike L B) (scan property i) (scan' property j) p p') :
    GivesAlike (NamedAlike L B)
      (do
        ((properties? c.store m).getD .empty).entries.forM fun (name, v) =>
          match c.store.asMapping? v with
          | some (id, _) => scan (some name) id
          | none => return
        match arrayItems? c.store m with
        | some id => scan property id
        | none => return)
      (do
        ((properties? c'.store m').getD .empty).entries.forM fun (name, v) =>
          match c'.store.asMapping? v with
          | some (id, _) => scan' (some name) id
          | none => return
        match arrayItems? c'.store m' with
        | some id => scan' property id
        | none => return) p p' := by
  refine (givesAlike_forM (getD_properties_alike h.mirrors hm).entries (fun e e' _ _ hq he => ?_) hp).bind
    fun _ q q' hq => ?_
  · obtain ⟨name, v⟩ := e
    obtain ⟨name', v'⟩ := e'
    obtain ⟨rfl, hv⟩ := he
    have hrel := h.mirrors.asMapping? hv
    dsimp only
    generalize c.store.asMapping? v = o at hrel ⊢
    generalize c'.store.asMapping? v' = o' at hrel ⊢
    cases hrel with
    | none => exact givesAlike_pure hq _
    | some hb => exact hs hb.1 hq (some name)
  · have hrel := arrayItems?_alike h.mirrors hm
    generalize arrayItems? c.store m = o at hrel ⊢
    generalize arrayItems? c'.store m' = o' at hrel ⊢
    cases hrel with
    | none => exact givesAlike_pure hq _
    | some hnode => exact hs hnode hq property

theorem NamedAlike.visit (h : NamingTwins L B c c') (hp : NamedAlike L B p p')
    (hij : Counterparts L B i j) :
    NamedAlike L B { p with visited := i :: p.visited } { p' with visited := j :: p'.visited } := by
  refine ⟨hp.table, fun {i' j'} hij' => ?_, hp.limits, hp.events⟩
  rw [List.contains_cons, List.contains_cons, hp.visited hij', h.apart.beq hij' hij]

-- A schema is named exactly if its counterpart is. Components have their names.
theorem named_alike (h : NamingTwins L B c c') (hp : NamedAlike L B p p')
    (hij : Counterparts L B i j) (inComposition : Bool) :
    (!inComposition && !c.topLevel.contains i && !p.table.contains i &&
        isNameable c.store (c.store.entries i)) =
      (!inComposition && !c'.topLevel.contains j && !p'.table.contains j &&
        isNameable c'.store (c'.store.entries j)) := by
  rw [h.topLevel hij, hp.table.contains h.apart hij]
  rcases hij with hsame | ⟨name, hnoted⟩
  · rw [isNameable_alike h.mirrors (entries_alike h.mirrors hsame)]
  · rw [← h.topLevel (.inr ⟨name, hnoted⟩), h.component hnoted]
    simp

theorem alike_scan (h : NamingTwins L B c c') (hp : NamedAlike L B p p') (allowance depth : Nat)
    (property : Option Key) (inComposition : Bool) (hij : Counterparts L B i j) :
    GivesAlike (NamedAlike L B) (scan c allowance depth property inComposition i)
      (scan c' allowance depth property inComposition j) p p' := by
  induction allowance generalizing p p' depth property inComposition i j with
  | zero => exact givesAlike_throw _
  | succ allowance ih =>
      have hfields := hij.fieldsAlike h.mirrors h.noted
      -- What the schema holds corresponds.
      have hheld {i j : NodeId} (hnode : L (.node i) (.node j)) {p p' : Naming.Progress}
          (hp : NamedAlike L B p p') (property : Option Key) (inComposition : Bool) :
          GivesAlike (NamedAlike L B) (scan c allowance (depth + 1) property inComposition i)
            (scan c' allowance (depth + 1) property inComposition j) p p' :=
        ih hp (depth + 1) property inComposition (.inl hnode)
      have hlimit : depthLimit c property = depthLimit c' property := by
        unfold depthLimit
        rw [h.maxDepth]
      unfold scan
      rw [h.maxDepth, hlimit]
      split
      · refine (givesAlike_modify ?_).bind fun _ _ _ hq => givesAlike_pure hq _
        exact ⟨hp.table, hp.visited, congrArg (· ++ [_]) hp.limits, hp.events⟩
      · refine givesAlike_get_bind ?_
        rw [hp.visited hij]
        split
        · exact givesAlike_pure hp _
        · refine (givesAlike_modify (hp.visit h hij)).bind fun _ q q' hq => ?_
          dsimp only
          rw [hfields.ref? h.mirrors]
          split
          · exact givesAlike_pure hq _
          · refine (givesAlike_forM (namedBranches_alike h.mirrors hfields)
              (fun i j _ _ hr hnode => hheld hnode hr property true) hq).bind fun _ r r' hr => ?_
            refine givesAlike_get_bind ?_
            rw [named_alike h hr hij, hfields.text? h.mirrors "title" (by decide), hr.table.size]
            have hrest {q q' : Naming.Progress} (hq : NamedAlike L B q q') :=
              alike_scanHeld h hq property hfields (scan c allowance (depth + 1) · inComposition)
                (scan c' allowance (depth + 1) · inComposition) fun hnode _ _ hp property =>
                  hheld hnode hp property inComposition
            split
            · refine (givesAlike_lift hr _).bind fun name q q' hq => ?_
              exact (alike_assign h hq hij name).bind fun _ _ _ hq => hrest hq
            · exact hrest hr

end Passes

section Collect

variable {s t : Store} {d : NodeId} {L : Value → Value → Prop} {B : String → NodeId → NodeId → Prop}

theorem Retells.componentIds (h : Retells s t d L B) :
    List.Forall₂ (Counterparts L B) (componentIds s d) (componentIds t d) := by
  have hrel := h.registry
  unfold Naming.componentIds
  generalize s.registry? d = o at hrel ⊢
  generalize t.registry? d = o' at hrel ⊢
  cases hrel with
  | none => exact .nil
  | some he =>
      unfold OrderedMap.values
      dsimp only
      rw [List.filterMap_map, List.filterMap_map]
      refine forall₂_filterMap he fun e e' hcomponent => ?_
      obtain ⟨-, hsame | ⟨name, i, j, rfl, hj, hnoted⟩⟩ := hcomponent
      · exact rel_map (h.mirrors.asMapping? hsame) fun _ _ hb => .inl hb.1
      · obtain ⟨m, m', hm, hm', -⟩ := (h.noted hnoted).fieldsAlike
        simp only [Function.comp_apply, hj, asMapping?_eq_some.mpr ⟨rfl, hm⟩,
          asMapping?_eq_some.mpr ⟨rfl, hm'⟩, Option.map_some]
        exact .some (.inr ⟨name, hnoted⟩)

theorem contains_counterparts (h : Apart L B) {l l' : List NodeId} (hl : List.Forall₂ (Counterparts L B) l l')
    {i j : NodeId} (hij : Counterparts L B i j) : l.contains i = l'.contains j := by
  induction hl with
  | nil => rfl
  | cons he _ ih => rw [List.contains_cons, List.contains_cons, h.beq hij he, ih]

theorem mem_componentIds {name : String} {i : NodeId} (h : componentIn? s d "schemas" name = some i) :
    i ∈ Naming.componentIds s d := by
  unfold componentIn? at h
  simp only [Option.bind_eq_bind, Option.bind_eq_some_iff, Option.pure_def] at h
  obtain ⟨section_, hsection, v, hv, e, he, hi⟩ := h
  unfold Naming.componentIds Store.registry?
  rw [hsection]
  refine List.mem_filterMap.mpr ⟨v, OrderedMap.mem_values_iff.mpr ⟨_, hv⟩, ?_⟩
  rw [he]
  exact hi

-- The scopes of the two passes.
theorem Retells.namingTwins (h : Retells s t d L B) (maxDepth : Int) :
    NamingTwins L B ⟨s, Naming.componentIds s d, maxDepth⟩ ⟨t, Naming.componentIds t d, maxDepth⟩ where
  mirrors := h.mirrors
  noted := h.noted
  component hb := List.contains_iff_mem.mpr (mem_componentIds (h.component hb))
  apart := h.apart
  topLevel hij := contains_counterparts h.apart h.componentIds hij
  maxDepth := rfl

-- The pass, from where it starts.
def namingPass (c : Naming.Scope) (d : NodeId) : Naming.Collect Unit := do
  nameResponses c d
  c.topLevel.forM (scan c nestingAllowance 0 none false)

theorem collect_eq (s : Store) (settings : NamingSettings) (d : NodeId) :
    Naming.collect s settings d = ((namingPass ⟨s, Naming.componentIds s d, settings.maxDepth⟩ d).run
      ⟨.empty, [], [], []⟩).map Prod.snd := by
  show (do
    let a ← (namingPass ⟨s, Naming.componentIds s d, settings.maxDepth⟩ d).run ⟨.empty, [], [], []⟩
    return a.2) = _
  cases (namingPass ⟨s, Naming.componentIds s d, settings.maxDepth⟩ d).run ⟨.empty, [], [], []⟩ with
  | error e => rfl
  | ok a => rfl

-- The same schemas are named in the same way, or both passes fail alike.
theorem Retells.named (h : Retells s t d L B) (settings : NamingSettings) :
    (∃ e, Naming.collect s settings d = .error e ∧ Naming.collect t settings d = .error e) ∨
      ∃ p p', Naming.collect s settings d = .ok p ∧ Naming.collect t settings d = .ok p' ∧
        TablesAlike L B p.table p'.table ∧ p.limits = p'.limits := by
  have htwins := h.namingTwins settings.maxDepth
  have hstart : NamedAlike L B ⟨.empty, [], [], []⟩ ⟨.empty, [], [], []⟩ :=
    ⟨tablesAlike_empty, fun _ => rfl, rfl, rfl⟩
  have hbodies := forall₂_flatMap h.operations (f := fun o => (bodies s o.fields).map (o.fields, ·))
    (g := fun o => (bodies t o.fields).map (o.fields, ·))
    (K := fun e e' => Alike L e.1 e'.1 ∧ L e.2 e'.2) fun o o' ho =>
      List.rel_map (fun _ _ hv => ⟨ho.2.2, hv⟩) (bodies_alike h.mirrors ho.2.2)
  have hrun : GivesAlike (NamedAlike L B)
      (namingPass ⟨s, Naming.componentIds s d, settings.maxDepth⟩ d)
      (namingPass ⟨t, Naming.componentIds t d, settings.maxDepth⟩ d)
      ⟨.empty, [], [], []⟩ ⟨.empty, [], [], []⟩ :=
    (alike_nameBodies htwins hbodies hstart 1).bind fun _ _ _ hp =>
      givesAlike_forM h.componentIds
        (fun i j _ _ hq hij => alike_scan htwins hq nestingAllowance 0 none false hij) hp
  rw [collect_eq, collect_eq]
  rcases hrun.ends with ⟨e, hs, ht⟩ | ⟨_, p, p', hs, ht, hp⟩
  · exact .inl ⟨e, by rw [hs]; rfl, by rw [ht]; rfl⟩
  · exact .inr ⟨p, p', by rw [hs]; rfl, by rw [ht]; rfl, hp.table, hp.limits⟩

end Collect

end ApiGraph.Splitting
