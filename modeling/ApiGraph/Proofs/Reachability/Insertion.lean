import ApiGraph.Proofs.Reachability.Closure
import ApiGraph.Proofs.Reachability.Leads
import Mathlib.Data.List.Flatten

namespace ApiGraph.Reachability

open Store

section Runs

variable {c : Scope} {G : Key → Prop} {p : Progress}

theorem sound_walkSeed {seed : Seed} (hl : ∀ k, Leads c true seed.schema k → G k)
    (h : Sound c G p) : Sound c G ((walkSeed c seed).run p).2 := by
  have hrescue {q : Progress} (hq : Sound c G q) : Keeps c G q (rescue c seed) := by
    unfold rescue
    refine (keeps_limit hq _ _).bind fun _ r hr => ?_
    split
    next name hname =>
      obtain ⟨e, hm, hn⟩ := Option.bind_eq_some_iff.mp hname
      unfold Keeps
      rw [ensures_discard]
      exact keeps_add hr (hl _ (.named hm hn))
    next => exact keeps_pure hr ()
  have hwalk : Keeps c G { p with label := seed.label, before := p.names.length }
      (walk c nestingAllowance 0 true seed.schema) := keeps_walk c G _ _ _ _ _ hl (h.congr rfl rfl)
  have hend : Ensures (tryCatch (walk c nestingAllowance 0 true seed.schema)
      fun _ => rescue c seed) { p with label := seed.label, before := p.names.length }
      (fun _ => Sound c G) fun _ => Sound c G := by
    rw [ensures_tryCatch]
    exact Ensures.mono hwalk (fun _ _ hq => hq) fun _ _ hq => hrescue hq
  exact hend.state

theorem sound_walkSeeds {seeds : List Seed}
    (hl : ∀ seed ∈ seeds, ∀ k, Leads c true seed.schema k → G k) (h : Sound c G p) :
    Sound c G ((walkSeeds c seeds).run p).2 := by
  induction seeds generalizing p with
  | nil => exact h
  | cons seed rest ih =>
      have hseed : Sound c G ((walkSeed c seed).run p).2 :=
        sound_walkSeed (hl seed List.mem_cons_self) h
      rw [walkSeeds_cons]
      split
      · exact Ensures.state (keeps_limit hseed _ _)
      · exact ih (fun seed hs => hl seed (List.mem_cons_of_mem _ hs)) hseed

theorem sound_collect {s : Store} {settings : ReachabilitySettings} {document : NodeId}
    (hl : ∀ seed ∈ seeds s document, ∀ k, Leads (scopeOf s settings document) true seed.schema k →
      G k) : Sound (scopeOf s settings document) G (collect s settings document) := by
  refine sound_walkSeeds hl ⟨fun _ hk => ?_, fun _ hid => ?_⟩
  · cases hk
  · cases hid

-- All names of a run are led to from the bodies.
theorem leads_of_mem_collect {s : Store} {settings : ReachabilitySettings} {document : NodeId}
    {k : Key} (h : k ∈ (collect s settings document).names) :
    ∃ seed ∈ seeds s document, Leads (scopeOf s settings document) true seed.schema k := by
  have hsound : Sound (scopeOf s settings document) (fun k => ∃ seed ∈ seeds s document,
      Leads (scopeOf s settings document) true seed.schema k) (collect s settings document) :=
    sound_collect fun seed hs k hk => ⟨seed, hs, hk⟩
  exact hsound.names k h

-- More bodies at the end only add to what was found.
theorem names_walkSeeds_append (l l' : List Seed) (p : Progress) :
    ((walkSeeds c l).run p).2.names <+: ((walkSeeds c (l ++ l')).run p).2.names := by
  induction l generalizing p with
  | nil => exact (grows_walkSeeds l' p).names
  | cons seed rest ih =>
      rw [List.cons_append, walkSeeds_cons, walkSeeds_cons]
      split
      · exact List.prefix_rfl
      · exact ih _

end Runs

section Missed

variable {c : Scope} {p : Progress} {R : List Value} {G : Key → Prop}

-- How a run without limits can lack a name that a body leads to.
inductive Missed (c : Scope) (p : Progress) (k : Key) : Prop
  -- A value that leads to it was left aside.
  | value {v : Value} (hv : v ∈ p.passedOver) (h : Leads c false v k)
  -- The body of a component that leads to it was left aside, and is not walked again.
  | body {name : String} {v : Value} (hname : .str name ∈ p.names)
      (hover : ∀ w ∈ bodyOf c.store c.registry (.str name), w ∈ p.passedOver)
      (hv : v ∈ dueOf c.store c.registry (.str name)) (h : Leads c false v k)
  -- A part leads to it, of a schema that is entered only as long as its own name is new.
  | part {id : NodeId} {m : Entries} {name : String} {v : Value} (hm : c.store.mapping? id = some m)
      (hr : referenceName? m = some name) (hname : .str name ∈ p.names)
      (hb : isOwnBody c.registry id m = false ∨ isArray c.store m = true)
      (hv : v ∈ ownParts c id m) (h : Leads c false v k)
  -- It is what an array is matched with, which was visited as a part or as another component.
  | array {id : NodeId} {m : Entries} (hm : c.store.mapping? id = some m)
      (hvisited : id ∈ p.visited) (hk : c.index.find? c.store id m true = some k)
      (hother : c.index.find? c.store id m false ≠ some k ∨
        ∃ name, .str name ∈ p.names ∧ .str name ≠ k ∧ c.registry.field? name = some (.node id))

theorem find?_of_part {id : NodeId} {m : Entries} {isSeed : Bool} {k : Key}
    (h : c.index.find? c.store id m isSeed = some k) :
    c.index.find? c.store id m true = some k := by
  cases isSeed with
  | true => exact h
  | false =>
      unfold ArrayIndex.find? at h ⊢
      cases hown : (c.index.byIdentity.get? id).filter ArrayIndex.isName with
      | some own =>
          rw [hown] at h
          exact h
      | none =>
          cases hitems : ArrayIndex.items? c.store m with
          | none => simp [hown, hitems] at h
          | some items =>
              cases href : items.ref?.bind c.index.byItemsRef.get? with
              | none => simp [hown, hitems, href] at h
              | some name => simpa [hown, hitems, href] using h

-- What an array is matched with was found where the array was visited, unless it was visited as another.
theorem Sound.found_or_missed (hs : Sound c G p) {id : NodeId} {m : Entries} {isSeed : Bool} {k : Key}
    (hm : c.store.mapping? id = some m) (hn : referenceName? m = none)
    (harr : isArray c.store m = true) (hk : c.index.find? c.store id m isSeed = some k)
    (hvis : id ∈ p.visited) : p.names.contains k = true ∨ Missed c p k := by
  have htrue := find?_of_part hk
  rcases hs.arrays id hvis m hm hn harr with ⟨other, hfound⟩ | ⟨name, hname, hreg⟩
  · cases other with
    | true => exact .inl (hfound k htrue)
    | false =>
        by_cases hsame : c.index.find? c.store id m false = some k
        · exact .inl (hfound k hsame)
        · exact .inr (.array hm hvis htrue (.inl hsame))
  · by_cases hkey : .str name = k
    · exact .inl (hkey ▸ Key.contains_str.mpr hname)
    · exact .inr (.array hm hvis htrue (.inr ⟨name, hname, hkey, hreg⟩))

-- A part that leads to a name is settled, unless what leads to the name was left aside.
theorem Agenda.settled_or_missed (ha : Agenda c R [] p.names p) {id : NodeId} {m : Entries} {w : Value}
    {k : Key} (hm : c.store.mapping? id = some m) (hdone : Done c p id m) (hw : w ∈ ownParts c id m)
    (hlead : Leads c false w k) : Settled c p w ∨ Missed c p k := by
  have hself : Leads c false (.node id) k := .part (asMapping?_eq_some.mpr ⟨rfl, hm⟩) hw hlead
  cases hr : referenceName? m with
  | none =>
      have hcore : w ∈ coreParts c.store m := by simpa [ownParts, hr] using hw
      have entered (hvis : id ∈ p.visited) : Settled c p w ∨ Missed c p k :=
        .inl ((ha.visited id hvis m hm).unnamed hr w hcore).settled
      cases harr : isArray c.store m with
      | true => exact entered (hdone.array hr harr).1
      | false =>
          rcases hdone.unnamed hr harr with hvis | hpassed
          · exact entered hvis
          · exact .inr (.value hpassed hself)
  | some name =>
      rcases hdone.named hr with hin | hpassed
      · by_cases hb : isOwnBody c.registry id m = true ∧ isArray c.store m = false
        · have hpart : w ∈ parts c.store m := by simpa [ownParts, hr, hb.1] using hw
          rcases hdone.ownBody hb.1 hb.2 with hvis | hpassed
          · exact .inl ((ha.visited id hvis m hm).ownBody hb.1 hb.2 w hpart).settled
          · exact .inr (.value (hpassed w hpart) hlead)
        · refine .inr (.part hm hr hin ?_ hw hlead)
          rw [Classical.not_and_iff_not_or_not] at hb
          simpa using hb
      · exact .inr (.value hpassed hself)

-- What a settled value leads to was found, or was missed.
theorem found_or_missed (ha : Agenda c R [] p.names p) (hs : Sound c G p) {isSeed : Bool}
    {v : Value} {k : Key} (h : Leads c isSeed v k) (hv : Settled c p v) :
    p.names.contains k = true ∨ Missed c p k := by
  induction h with
  | @named isSeed v id m name hm hn =>
      obtain ⟨rfl, -⟩ := asMapping?_eq_some.mp hm
      rcases (hv id m hm).named hn with hin | hpassed
      · exact .inl (Key.contains_str.mpr hin)
      · exact .inr (.value hpassed (.named hm hn))
  | @matched isSeed v id m k hm hn harr hk =>
      obtain ⟨hvis, -⟩ := (hv id m hm).array hn harr
      exact hs.found_or_missed (asMapping?_eq_some.mp hm).2 hn harr hk hvis
  | @body isSeed v w id m name k hm hn hw hlead ih =>
      obtain ⟨rfl, -⟩ := asMapping?_eq_some.mp hm
      rcases (hv id m hm).named hn with hin | hpassed
      · rcases ha.names _ hin with hover | hdue
        · exact .inr (.body hin hover hw hlead)
        · exact ih (hdue w hw).settled
      · exact .inr (.value hpassed (.body hm hn hw hlead))
  | @part isSeed v w id m k hm hw hlead ih =>
      rcases ha.settled_or_missed (asMapping?_eq_some.mp hm).2 (hv id m hm) hw hlead with hs | hmissed
      · exact ih hs
      · exact .inr hmissed

end Missed

section Documents

variable {s : Store} {d d' : NodeId}

-- The path items of a description, in their order.
def pathItems (s : Store) (document : NodeId) : List (Key × Value) :=
  ((s.fieldMapping? document "paths").map fun e => e.2.entries).getD []

-- The second description has the components of the first one and all its path items, and it may have
-- more path items before, between and after them.
structure Inserts (s : Store) (d d' : NodeId) : Prop where
  components : s.field? d' "components" = s.field? d "components"
  paths : (pathItems s d).Sublist (pathItems s d')

def itemOperations (s : Store) (item : Key × Value) : List Operation :=
  match s.asMapping? item.2 with
  | some (_, fields) => s.operationsOf item.1 fields
  | none => []

theorem operations_eq (s : Store) (document : NodeId) :
    s.operations document = (pathItems s document).flatMap (itemOperations s) := by
  unfold Store.operations pathItems
  cases s.fieldMapping? document "paths" with
  | none => rfl
  | some e => rfl

theorem Inserts.components? (h : Inserts s d d') (kind : String) :
    s.components? d' kind = s.components? d kind := by
  simp only [Store.components?, Store.fieldMapping?, h.components]

theorem Inserts.scopeOf (h : Inserts s d d') (settings : ReachabilitySettings) :
    scopeOf s settings d' = scopeOf s settings d := by
  simp only [Reachability.scopeOf, registryOf, Store.registry?, h.components?]

-- The bodies of the first description come in their order.
theorem Inserts.seeds (h : Inserts s d d') : (seeds s d).Sublist (seeds s d') := by
  simp only [Reachability.seeds, responseComponents, h.components?, operations_eq]
  have hoperations := List.Sublist.flatMap h.paths (itemOperations s)
  exact (List.Sublist.refl _).append (List.Sublist.flatMap hoperations _)

theorem Inserts.seeds_append (h : Inserts s d d') (hlast : pathItems s d <+: pathItems s d') :
    Reachability.seeds s d <+: Reachability.seeds s d' := by
  obtain ⟨rest, hrest⟩ := hlast
  have hoperations : s.operations d' = s.operations d ++ rest.flatMap (itemOperations s) := by
    rw [operations_eq, operations_eq, ← hrest, List.flatMap_append]
  refine ⟨(rest.flatMap (itemOperations s)).flatMap (operationSeeds s (responseComponents s d)), ?_⟩
  have hresponses : responseComponents s d' = responseComponents s d := by
    simp only [responseComponents, h.components?]
  rw [Reachability.seeds, Reachability.seeds, hresponses, hoperations, List.flatMap_append,
    List.append_assoc]

-- What is added behind all path items loses no name. What is added elsewhere loses only names that
-- the run has missed for what it left aside.
theorem names_of_inserts (settings : ReachabilitySettings) (h : Inserts s d d') :
    (pathItems s d <+: pathItems s d' →
      (collect s settings d).names <+: (collect s settings d').names) ∧
    ((collect s settings d').limits = [] → ∀ k ∈ (collect s settings d).names,
      (collect s settings d').names.contains k = true ∨
        Missed (Reachability.scopeOf s settings d') (collect s settings d') k) := by
  constructor
  · intro hlast
    obtain ⟨rest, hrest⟩ := h.seeds_append hlast
    unfold collect
    rw [h.scopeOf, ← hrest]
    exact names_walkSeeds_append _ _ _
  · intro hlimits k hk
    have hagenda := agenda_collect hlimits
    have hsound : Sound (Reachability.scopeOf s settings d') (fun _ => True) (collect s settings d') :=
      sound_collect fun _ _ _ _ => trivial
    obtain ⟨seed, hseed, hleads⟩ := leads_of_mem_collect hk
    rw [← h.scopeOf] at hleads
    have howed := hagenda.bodies seed.schema (List.mem_map_of_mem (h.seeds.subset hseed))
    exact found_or_missed hagenda hsound hleads (howed.resolve_right List.not_mem_nil)

-- Two descriptions of the same components. The first one has one path, whose body is the component
-- `A`, which is the component `B`. In the second one a path stands before it, whose body has `A` as a
-- part.
def pathBefore : Store :=
  ⟨#[
    .ofFields [("components", .node 2), ("paths", .node 3)],
    .ofFields [("components", .node 2), ("paths", .node 4)],
    .ofFields [("schemas", .node 5)],
    .ofFields [("/b", .node 8)],
    .ofFields [("/a", .node 15), ("/b", .node 8)],
    .ofFields [("A", .node 6), ("B", .node 7)],
    .ofFields [("$ref", .str "#/components/schemas/B")],
    .ofFields [("type", .str "string")],
    .ofFields [("get", .node 9)],
    .ofFields [("responses", .node 10)],
    .ofFields [("200", .node 11)],
    .ofFields [("content", .node 12)],
    .ofFields [("application/json", .node 13)],
    .ofFields [("schema", .node 14)],
    .ofFields [("$ref", .str "#/components/schemas/A")],
    .ofFields [("get", .node 16)],
    .ofFields [("responses", .node 17)],
    .ofFields [("200", .node 18)],
    .ofFields [("content", .node 19)],
    .ofFields [("application/json", .node 20)],
    .ofFields [("schema", .node 21)],
    .ofFields [("properties", .node 22)],
    .ofFields [("p", .node 23)],
    .ofFields [("$ref", .str "#/components/schemas/A")]]⟩

-- Parts are walked to the depth of one here.
def shallow : ReachabilitySettings := { maxNestedDepth := 1 }

theorem inserts_pathBefore : Inserts pathBefore 0 1 where
  components := rfl
  paths := by
    have hfirst : pathItems pathBefore 0 = [(.str "/b", .node 8)] := rfl
    have hsecond : pathItems pathBefore 1 = [(.str "/a", .node 15), (.str "/b", .node 8)] := rfl
    rw [hfirst, hsecond]
    exact .cons _ (.refl _)

-- The part has `A` recorded and its body left aside, and `B` is lost.
theorem missed_pathBefore :
    .str "B" ∈ (collect pathBefore shallow 0).names ∧
      (collect pathBefore shallow 1).names.contains (.str "B") = false ∧
      Missed (scopeOf pathBefore shallow 1) (collect pathBefore shallow 1) (.str "B") := by
  have hfound : (collect pathBefore shallow 0).names.contains (.str "B") = true := by decide +kernel
  have hlost : (collect pathBefore shallow 1).names.contains (.str "B") = false := by decide +kernel
  have hlimits : (collect pathBefore shallow 1).limits = [] := by decide +kernel
  obtain ⟨-, hmissed⟩ := names_of_inserts shallow inserts_pathBefore
  refine ⟨Key.contains_str.mp hfound, hlost, ?_⟩
  refine (hmissed hlimits _ (Key.contains_str.mp hfound)).resolve_left fun hin => ?_
  rw [hlost] at hin
  cases hin

end Documents

end ApiGraph.Reachability
