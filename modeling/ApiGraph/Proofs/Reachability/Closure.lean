import ApiGraph.Proofs.Reachability.Completeness

namespace ApiGraph.Reachability

open Store

variable {c : Scope} {R T : List Value} {p : Progress}

section Seeds

-- A pass that goes too deep records a limit.
theorem ensures_rescue {seed : Seed} :
    Ensures (rescue c seed) p (fun _ p' => p'.limits ≠ []) fun _ p' => p'.limits ≠ [] := by
  unfold rescue
  rw [ensures_bind]
  refine ensures_limit.mono (fun _ q hq => ?_) fun _ _ => id
  split
  · simp only [ensures_discard, ensures_add]
    split <;> exact hq
  · exact ensures_pure.mpr hq

theorem onAgenda_walkSeed {seed : Seed} (h : OnAgenda c R (seed.schema :: T) p) :
    OnAgenda c R T ((walkSeed c seed).run p).2 := by
  have hlabelled : OnAgenda c R (seed.schema :: T)
      { p with label := seed.label, before := p.names.length } := by
    have hgrows : Grows p { p with label := seed.label, before := p.names.length } :=
      ⟨List.prefix_rfl, List.suffix_rfl, List.prefix_rfl, List.prefix_rfl⟩
    exact h.update hgrows (fun w hw => .inr hw) (fun _ hid hold => absurd hid hold)
      fun _ hk hold => absurd hk hold
  have hwalk := walks_walk c nestingAllowance 0 true R T _ _ hlabelled
  have hend : Ensures (tryCatch (walk c nestingAllowance 0 true seed.schema)
      fun _ => rescue c seed) { p with label := seed.label, before := p.names.length }
      (fun _ p' => OnAgenda c R T p') fun _ p' => OnAgenda c R T p' := by
    rw [ensures_tryCatch]
    refine hwalk.mono (fun _ _ h => h) fun _ q _ => ?_
    exact ensures_rescue.mono (fun _ _ hl => .of_limits hl) fun _ _ hl => .of_limits hl
  exact hend.state

theorem onAgenda_walkSeeds {seeds : List Seed} (h : OnAgenda c R (seeds.map Seed.schema) p) :
    OnAgenda c R [] ((walkSeeds c seeds).run p).2 := by
  induction seeds generalizing p with
  | nil => exact h
  | cons seed rest ih =>
      have hseed : OnAgenda c R (rest.map Seed.schema) ((walkSeed c seed).run p).2 :=
        onAgenda_walkSeed h
      unfold walkSeeds
      rw [StateT.run_bind]
      generalize (walkSeed c seed).run p = r at hseed ⊢
      show OnAgenda c R [] (StateT.run (if c.settings.maxNames < r.2.names.length then
        discard (limit .nameCount s!"more than {c.settings.maxNames} names collected").run
        else walkSeeds c rest) r.2).2
      split
      · refine .of_limits ?_
        exact Ensures.state (P := fun q : Progress => q.limits ≠ []) ensures_limit
      · exact ih hseed

-- At the end of a pass without limits nothing is owed any more.
theorem agenda_collect {s : Store} {settings : ReachabilitySettings} {document : NodeId}
    (h : (collect s settings document).limits = []) :
    Agenda (scopeOf s settings document) ((seeds s document).map Seed.schema) []
      (collect s settings document).names (collect s settings document) := by
  refine onAgenda_walkSeeds (fun _ => ⟨fun v hv => .inr hv, ?_, ?_⟩) h
  · intro _ hid
    cases hid
  · intro _ hk
    cases hk

end Seeds

section Closed

variable {document : NodeId}

-- Down the parts of mappings that name no component.
inductive Through (s : Store) (u : Value) : Value → Prop
  | refl : Through s u u
  | part {v w : Value} {id : NodeId} {m : Entries} (h : Through s u v)
      (hv : s.asMapping? v = some (id, m)) (hn : referenceName? m = none) (hw : w ∈ parts s m) :
      Through s u w

theorem Through.met {s : Store} {u v : Value} {name : String} (h : Through s u v)
    (hmet : Met s v name) : Met s u name := by
  induction h with
  | refl => exact hmet
  | part _ hm hn hw ih => exact ih (.part hm hn hw hmet)

-- The part of a schema without a name that is done is settled, or it was passed over, or the schema was.
theorem Agenda.settled_part {N : List Key} (ha : Agenda c R [] N p) {id : NodeId} {m : Entries}
    {w : Value} (hm : c.store.mapping? id = some m) (hn : referenceName? m = none)
    (hdone : Done c p id m) (hw : w ∈ parts c.store m) :
    Settled c p w ∨ w ∈ p.passedOver ∨ .node id ∈ p.passedOver := by
  cases harr : isArray c.store m with
  | true =>
      obtain ⟨hvis, hpassed⟩ := hdone.array hn harr
      rcases mem_parts.mp hw with hw | hw
      · refine .inl ((ha.visited id hvis m hm).unnamed hn w ?_).settled
        rwa [coreParts, if_pos harr]
      · exact .inr (.inl (hpassed w hw))
  | false =>
      rcases hdone.unnamed hn harr with hvis | hpassed
      · refine .inl ((ha.visited id hvis m hm).unnamed hn w ?_).settled
        rwa [coreParts, if_neg (by simp [harr])]
      · exact .inr (.inr hpassed)

theorem Agenda.settled_body {N : List Key} (ha : Agenda c R [] N p) {k : Key} {v : Value}
    (hk : k ∈ N) (hbody : v ∈ bodyOf c.store c.registry k) : Settled c p v ∨ v ∈ p.passedOver := by
  rcases ha.names k hk with ho | ho
  · exact .inr (ho v hbody)
  unfold bodyOf at hbody
  split at hbody
  next => cases hbody
  next id m hcomponent =>
    rw [dueOf_of_some hcomponent] at ho
    obtain ⟨_, -, hv⟩ := Option.bind_eq_some_iff.mp hcomponent
    have hm := (asMapping?_eq_some.mp hv).2
    split at hbody
    next harr =>
      rw [if_pos harr] at ho
      exact .inl (ho v hbody).settled
    next harr =>
      rw [if_neg harr] at ho
      have harr : isArray c.store m = false := by simpa using harr
      have hself : Settled c p (.node id) := (ho _ List.mem_cons_self).settled
      split at hbody
      next hown =>
        rcases (hself id m (asMapping?_eq_some.mpr ⟨rfl, hm⟩)).ownBody hown harr with hvis | hpassed
        · exact .inl ((ha.visited id hvis m hm).ownBody hown harr v hbody).settled
        · exact .inr (hpassed v hbody)
      next => exact .inl (List.mem_singleton.mp hbody ▸ hself)

-- Each demanded value is settled, or a demanded value above it was passed over.
theorem settled_or_passedOver {N : List Key} (ha : Agenda c R [] N p)
    (hreg : c.registry = registryOf c.store document)
    (hR : ∀ seed ∈ seeds c.store document, seed.schema ∈ R)
    {v : Value} (hv : Demanded c.store document N v) :
    Settled c p v ∨ ∃ u ∈ p.passedOver, Demanded c.store document N u ∧ Through c.store u v := by
  induction hv with
  | response hs => exact .inl (ha.bodies _ (hR _ hs)).settled
  | @component k v hk hbody =>
      rcases ha.settled_body hk (hreg ▸ hbody) with hs | hpassed
      · exact .inl hs
      · exact .inr ⟨v, hpassed, .component hk hbody, .refl⟩
  | @part v w id m h hm hn hw ih =>
      rcases ih with hs | ⟨u, hu, hdemanded, hthrough⟩
      · obtain ⟨rfl, hmapping⟩ := asMapping?_eq_some.mp hm
        rcases ha.settled_part hmapping hn (hs id m hm) hw with hs | hpassed | hpassed
        · exact .inl hs
        · exact .inr ⟨w, hpassed, .part h hm hn hw, .refl⟩
        · exact .inr ⟨_, hpassed, h, .part .refl hm hn hw⟩
      · exact .inr ⟨u, hu, hdemanded, .part hthrough hm hn hw⟩

-- The name of a demanded value was collected, unless a value above it was passed over.
theorem mem_or_passedOver {N : List Key} (ha : Agenda c R [] N p)
    (hreg : c.registry = registryOf c.store document)
    (hR : ∀ seed ∈ seeds c.store document, seed.schema ∈ R)
    {v : Value} {id : NodeId} {m : Entries} {name : String}
    (hv : Demanded c.store document N v) (hm : c.store.asMapping? v = some (id, m))
    (hn : referenceName? m = some name) :
    .str name ∈ p.names ∨
      ∃ u ∈ p.passedOver, Demanded c.store document N u ∧ Through c.store u v := by
  rcases settled_or_passedOver ha hreg hR hv with hs | hpassed
  · rcases (hs id m hm).named hn with hin | hpassed
    · exact .inl hin
    · obtain ⟨rfl, -⟩ := asMapping?_eq_some.mp hm
      exact .inr ⟨_, hpassed, hv, .refl⟩
  · exact .inr hpassed

-- So the names met in demanded values are all there if those met in what was passed over are.
theorem mem_of_met {N : List Key} (ha : Agenda c R [] N p)
    (hreg : c.registry = registryOf c.store document)
    (hR : ∀ seed ∈ seeds c.store document, seed.schema ∈ R)
    (hnames : N = p.names)
    (hover : ∀ v ∈ p.passedOver, Demanded c.store document N v →
      ∀ name, Met c.store v name → .str name ∈ N)
    {v : Value} {name : String} (hmet : Met c.store v name)
    (hv : Demanded c.store document N v) : .str name ∈ N := by
  induction hmet with
  | named hm hn =>
      rcases mem_or_passedOver ha hreg hR hv hm hn with hin | ⟨u, hu, hdemanded, hthrough⟩
      · exact hnames ▸ hin
      · exact hover u hu hdemanded _ (hthrough.met (.named hm hn))
  | part hm hn hw _ ih => exact ih (.part hv hm hn hw)

end Closed

-- The names collected without a limit are closed exactly when what the pass left aside on the way
-- mentions no other names.
theorem collect_closed_iff (s : Store) (settings : ReachabilitySettings) (document : NodeId)
    (h : (collect s settings document).limits = []) :
    Closed s document (collect s settings document).names ↔
      ∀ v ∈ (collect s settings document).passedOver,
        Demanded s document (collect s settings document).names v →
          ∀ name, Met s v name → .str name ∈ (collect s settings document).names := by
  constructor
  · exact fun hc v _ hv => hc.mem_of_demanded hv
  · intro hover
    have ha := agenda_collect h
    refine .of_demanded fun v hv name hmet => ?_
    exact mem_of_met ha rfl (fun seed hs => List.mem_map_of_mem hs) rfl hover hmet hv

-- A response whose body is an array that also extends the component `Base`.
def extendedArray : Store :=
  ⟨#[
    .ofFields [("components", .node 1)],
    .ofFields [("responses", .node 2), ("schemas", .node 8)],
    .ofFields [("R", .node 3)],
    .ofFields [("content", .node 4)],
    .ofFields [("application/json", .node 5)],
    .ofFields [("schema", .node 6)],
    .ofFields [("type", .str "array"), ("allOf", .node 7)],
    .sequence [.node 9],
    .ofFields [("Base", .node 10)],
    .ofFields [("$ref", .str "#/components/schemas/Base")],
    .ofFields [("type", .str "string")]]⟩

-- The branch of the array is left aside without a limit, and its name with it.
theorem extendedArray_not_closed :
    (collect extendedArray {} 0).limits = [] ∧
      ¬Closed extendedArray 0 (collect extendedArray {} 0).names := by
  have hlimits : (collect extendedArray {} 0).limits = [] := rfl
  refine ⟨hlimits, fun hclosed => ?_⟩
  have hseed : (⟨"components.responses.R", .node 6⟩ : Seed) ∈ seeds extendedArray 0 :=
    List.mem_cons_self
  have hbody : Demanded extendedArray 0 (collect extendedArray {} 0).names (.node 6) :=
    .response hseed
  have hbranch : Demanded extendedArray 0 (collect extendedArray {} 0).names (.node 9) :=
    .part hbody rfl rfl List.mem_cons_self
  have hpassed : .node 9 ∈ (collect extendedArray {} 0).passedOver := List.mem_cons_self
  have hmem := (collect_closed_iff extendedArray {} 0 hlimits).mp hclosed _ hpassed hbranch "Base"
    (.named rfl rfl)
  exact List.not_mem_nil hmem

end ApiGraph.Reachability
