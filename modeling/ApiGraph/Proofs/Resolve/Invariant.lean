import ApiGraph.Proofs.Resolve.Coverage
import ApiGraph.Proofs.Resolve.History

namespace ApiGraph.Resolve

open Store

-- The nodes that were inlined, the references that were marked and the files that were parsed, as the log
-- says.
def inlinedNodes (events : List Event) : List NodeId := (events.filterMap inlining?).map Prod.fst

def marking? : Event → Option (NodeId × String)
  | .circular node ref => some (node, ref)
  | _ => none

def marksIn (events : List Event) : List (NodeId × String) := events.filterMap marking?

def parsed? : Event → Option String
  | .loaded path => some path
  | _ => none

def parsedFiles (events : List Event) : List String := events.filterMap parsed?

def nodeLimits (limits : List SoftLimit) : Nat := limits.countP fun l => l.kind = .nodeCount

@[simp] theorem inlinedNodes_append (l l' : List Event) :
    inlinedNodes (l ++ l') = inlinedNodes l ++ inlinedNodes l' := by
  simp [inlinedNodes]

@[simp] theorem marksIn_append (l l' : List Event) : marksIn (l ++ l') = marksIn l ++ marksIn l' := by
  simp [marksIn]

@[simp] theorem parsedFiles_append (l l' : List Event) :
    parsedFiles (l ++ l') = parsedFiles l ++ parsedFiles l' := by
  simp [parsedFiles]

@[simp] theorem nodeLimits_append (l l' : List SoftLimit) :
    nodeLimits (l ++ l') = nodeLimits l + nodeLimits l' := by
  simp [nodeLimits]

-- The containers that references are being resolved in.
def Chain.nodes (chain : Chain) : List NodeId := chain.map Link.node

theorem Chain.not_mem_nodes {chain : Chain} {id : NodeId} (h : chain.hasNode id = false) :
    id ∉ chain.nodes := by
  simp only [Chain.nodes, List.mem_map, not_exists, not_and]
  intro l hl heq
  have hany := List.any_eq_false.mp h l hl
  simp [heq] at hany

-- Nothing is counted, visited, marked, inlined or loaded in between.
structure Uneventful (r r' : Run) : Prop where
  visited : r'.visited = r.visited
  walked : r'.walked = r.walked
  loaded : r'.loaded = r.loaded
  hit : r'.nodeLimitHit = r.nodeLimitHit
  limits : nodeLimits r'.limits = nodeLimits r.limits
  inlined : inlinedNodes r'.events = inlinedNodes r.events
  marks : marksIn r'.events = marksIn r.events
  parsed : parsedFiles r'.events = parsedFiles r.events

section Keeping

variable {α β : Type} {I I' : Run → Prop}

-- However the program ends, it keeps the property.
def KeepsRun (I : Run → Prop) (x : ResolveM α) : Prop :=
  ∀ r, I r → Ensures x r (fun _ => I) fun _ => I

-- Uneventful steps keep the property.
def Steady (I : Run → Prop) : Prop := ∀ r r', Uneventful r r' → I r → I r'

theorem steady_walked (n : Nat) : Steady fun r => n ≤ r.walked := by
  intro r r' hq h
  rw [hq.walked]
  exact h

theorem keepsRun_pure (a : α) : KeepsRun I (pure a : ResolveM α) := fun _ h => ensures_pure.mpr h

theorem keepsRun_throw (e : Failure ResolutionError) : KeepsRun I (throw e : ResolveM α) :=
  fun _ h => ensures_throw.mpr h

theorem keepsRun_fail (e : ResolutionError) : KeepsRun I (fail e : ResolveM α) :=
  fun _ h => ensures_fail.mpr h

theorem KeepsRun.bind {x : ResolveM α} {f : α → ResolveM β} (hx : KeepsRun I x)
    (hf : ∀ a, KeepsRun I (f a)) : KeepsRun I (x >>= f) := by
  intro r h
  rw [ensures_bind]
  exact (hx r h).mono (fun a r' h' => hf a r' h') fun _ _ h' => h'

theorem KeepsRun.get_bind {f : Run → ResolveM α} (hf : ∀ r, KeepsRun I (f r)) :
    KeepsRun I (get >>= f) := by
  intro r h
  rw [ensures_bind, ensures_get]
  exact hf r r h

theorem KeepsRun.getStore_bind {f : Store → ResolveM α} (hf : ∀ s, KeepsRun I (f s)) :
    KeepsRun I (getStore >>= f) := by
  intro r h
  rw [ensures_bind, ensures_getStore]
  exact hf r.store r h

theorem KeepsRun.forM {f : β → ResolveM Unit} (hf : ∀ b, KeepsRun I (f b)) (l : List β) :
    KeepsRun I (l.forM f) := by
  intro r h
  exact ensures_forM h fun b _ r' h' => hf b r' h'

variable (hI : Steady I)
include hI

theorem keepsRun_setStore (s : Store) : KeepsRun I (setStore s) :=
  fun r h => ensures_setStore.mpr (hI r _ ⟨rfl, rfl, rfl, rfl, rfl, rfl, rfl, rfl⟩ h)

theorem keepsRun_report {e : Event} (hi : inlining? e = none) (hm : marking? e = none)
    (hp : parsed? e = none) : KeepsRun I (report e) := by
  intro r h
  refine ensures_report.mpr (hI r _ ⟨rfl, rfl, rfl, rfl, rfl, ?_, ?_, ?_⟩ h)
  · simp [inlinedNodes, hi]
  · simp [marksIn, hm]
  · simp [parsedFiles, hp]

theorem keepsRun_limit {l : SoftLimit} (hl : l.kind ≠ .nodeCount) : KeepsRun I (limit l) := by
  intro r h
  refine ensures_limit.mpr (hI r _ ⟨rfl, rfl, rfl, rfl, ?_, ?_, ?_, ?_⟩ h)
  · simp [nodeLimits, hl]
  · simp [inlinedNodes, inlining?]
  · simp [marksIn, marking?]
  · simp [parsedFiles, parsed?]

theorem keepsRun_bindComponent (c : Context) (kind name : String) (target : NodeId) :
    KeepsRun I (bindComponent c kind name target) := by
  refine .getStore_bind fun s => ?_
  generalize s.ensureComponents c.document kind = place
  refine (keepsRun_setStore hI _).bind fun _ => ?_
  split
  · exact keepsRun_pure _
  · exact (keepsRun_setStore hI _).bind fun _ => keepsRun_pure _

theorem keepsRun_registerSchema (c : Context) (name : String) (target : NodeId) (ref : String) :
    KeepsRun I (registerSchema c name target ref) := by
  refine (keepsRun_bindComponent hI c _ _ _).bind fun bound => ?_
  split
  · exact keepsRun_report hI rfl rfl rfl
  · exact keepsRun_pure _

theorem keepsRun_adopt (c : Context) (kind name : String) (target : NodeId) :
    KeepsRun I (adopt c kind name target) := by
  refine (keepsRun_bindComponent hI c _ _ _).bind fun bound => ?_
  split
  · exact keepsRun_report hI rfl rfl rfl
  · exact keepsRun_pure _

theorem keepsRun_adoptInternal (c : Context) (scope : Scope) (ref : String) :
    KeepsRun I (adoptInternal c scope ref) := by
  unfold adoptInternal
  dsimp only
  split
  · exact keepsRun_pure _
  · refine .get_bind fun r => ?_
    split
    · exact keepsRun_pure _
    · split
      · exact keepsRun_adopt hI c _ _ _
      · exact keepsRun_report hI rfl rfl rfl

theorem keepsRun_adoptAllDangling (c : Context) : KeepsRun I (adoptAllDangling c) := by
  refine .get_bind fun r => .forM (fun ref => ?_) _
  unfold adoptDangling
  refine .get_bind fun r => ?_
  split
  · exact keepsRun_pure _
  · dsimp only
    split
    · exact keepsRun_adopt hI c _ _ _
    · exact keepsRun_report hI rfl rfl rfl

theorem keepsRun_noteInternal (c : Context) (scope : Scope) (ref : String) :
    KeepsRun I (noteInternal c scope ref) := by
  unfold noteInternal
  split
  · exact fun r h => ensures_modify.mpr (hI r _ ⟨rfl, rfl, rfl, rfl, rfl, rfl, rfl, rfl⟩ h)
  · exact keepsRun_adoptInternal hI c scope ref

theorem keepsRun_markCircular {node : NodeId} {ref : String}
    (hmark : ∀ r, I r → I { r with events := r.events ++ [.circular node ref] }) (name : Option String) :
    KeepsRun I (markCircular node ref name) :=
  .getStore_bind fun _ => (keepsRun_setStore hI _).bind fun _ r h => ensures_report.mpr (hmark r h)

-- One property may come in the place of another where the mapping is inlined.
theorem ensures_takeContent_of_steady (hI' : Steady I') {node target : NodeId} {ref : String}
    (hinline : ∀ r, I r → I' { r with
      events := r.events ++ [.inlined node target ref], visited := node :: r.visited })
    (c : Context) (name : Option String) {r : Run} (h : I r) :
    Ensures (takeContent c node target ref name) r (fun _ => I') fun _ => I' := by
  have hreplace : Ensures (replaceContent node target name) r (fun _ => I) fun _ _ => False := by
    unfold replaceContent
    simp only [ensures_bind, ensures_getStore, ensures_setStore, ensures_pure]
    exact hI r _ ⟨rfl, rfl, rfl, rfl, rfl, rfl, rfl, rfl⟩ h
  unfold takeContent
  rw [ensures_bind]
  refine hreplace.mono (fun own r' h' => ?_) fun _ _ => False.elim
  simp only [ensures_bind, ensures_report, ensures_visit]
  split
  · exact ((keepsRun_registerSchema hI' c _ target ref).bind fun _ => keepsRun_pure _) _ (hinline r' h')
  · exact ensures_pure.mpr (hinline r' h')

omit hI in
theorem keepsRun_targetOf (c : Context) (external : NodeId) (path : List String) (ref : String) :
    KeepsRun I (targetOf c external path ref) := by
  unfold targetOf
  split
  · exact keepsRun_pure _
  · refine .get_bind fun r => ?_
    split
    · exact keepsRun_pure _
    · split
      · exact keepsRun_pure _
      · exact keepsRun_fail _

end Keeping

-- What the walk keeps, where the steps that are not uneventful do.
structure Invariant (c : Context) (I : List NodeId → Run → Prop) : Prop where
  steady (held : List NodeId) : Steady (I held)
  drop {id : NodeId} {held : List NodeId} {r : Run} (h : I (id :: held) r) : I held r
  onCount {id : NodeId} {held : List NodeId} {r : Run} (hheld : id ∉ held) (hvisited : id ∉ r.visited)
    (hbound : ((r.walked + 1 : Nat) : Int) ≤ c.settings.maxNodes) (h : I held r) :
    I (id :: held) { r with walked := r.walked + 1 }
  onCountMore {held : List NodeId} {r : Run} (h : I held r) :
    I held { r with walked := r.walked + 1 }
  onLimit {held : List NodeId} {r : Run} {l : SoftLimit} (hhit : r.nodeLimitHit = false)
    (h : I held r) :
    I held { r with
      nodeLimitHit := true, limits := r.limits ++ [l], events := r.events ++ [.resolutionLimit l] }
  onMark {id : NodeId} {ref : String} {held : List NodeId} {r : Run} (h : I held r) :
    I held { r with events := r.events ++ [.circular id ref] }
  onVisit {id : NodeId} {held : List NodeId} {r : Run} (h : I (id :: held) r) :
    I held { r with visited := id :: r.visited }
  onInline {id target : NodeId} {ref : String} {held : List NodeId} {r : Run} (h : I (id :: held) r) :
    I held { r with
      events := r.events ++ [.inlined id target ref], visited := id :: r.visited }
  onLoad {l : Location} {ref : String} {base : Option String} {d : NodeId} {s : Store}
    {held : List NodeId} {r : Run} (hl : c.locator.locate ref base = .ok l)
    (hnew : r.loaded.get? (locationKey c.locator.tree l) = none)
    (hparse : parseFile c l r.store = .ok (d, s)) (h : I held r) :
    I held { r with
      store := s, loaded := r.loaded.insert (locationKey c.locator.tree l) d,
      events := r.events ++ [.loaded l.path] }

section Spending

variable {α β : Type} {c : Context} {I : List NodeId → Run → Prop} {held : List NodeId}
  {node : NodeId}

-- The program may visit the node, which has been counted for it.
def Spends (I : List NodeId → Run → Prop) (node : NodeId) (held : List NodeId) (x : ResolveM α) :
    Prop :=
  ∀ r, I (node :: held) r → Ensures x r (fun _ => I held) fun _ => I held

theorem Spends.bind {x : ResolveM α} {f : α → ResolveM β} (hx : Spends I node held x)
    (hf : ∀ a, KeepsRun (I held) (f a)) : Spends I node held (x >>= f) := by
  intro r h
  rw [ensures_bind]
  exact (hx r h).mono (fun a r' h' => hf a r' h') fun _ _ h' => h'

theorem Spends.getStore_bind {f : Store → ResolveM α} (hf : ∀ s, Spends I node held (f s)) :
    Spends I node held (getStore >>= f) := by
  intro r h
  rw [ensures_bind, ensures_getStore]
  exact hf r.store r h

variable (hI : Invariant c I)
include hI

theorem Invariant.spends {x : ResolveM α} (hx : KeepsRun (I (node :: held)) x) :
    Spends I node held x :=
  fun r h => (hx r h).mono (fun _ _ => hI.drop) fun _ _ => hI.drop

theorem Invariant.spends_bind {x : ResolveM α} {f : α → ResolveM β}
    (hx : KeepsRun (I (node :: held)) x) (hf : ∀ a, Spends I node held (f a)) :
    Spends I node held (x >>= f) := by
  intro r h
  rw [ensures_bind]
  exact (hx r h).mono (fun a r' h' => hf a r' h') fun _ _ => hI.drop

theorem Invariant.spends_visit : Spends I node held (visit node) :=
  fun _ h => ensures_visit.mpr (hI.onVisit h)

-- The program goes on with what was found for the reference.
theorem Invariant.spends_locate {scope : Scope} {ref : String} {f : Location → ResolveM α}
    (hf : ∀ l, c.locator.locate (Reference.filePart ref) scope.base = .ok l → Spends I node held (f l)) :
    Spends I node held (locate c scope node ref >>= f) := by
  intro r h
  unfold locate
  simp only [ensures_bind]
  refine (keepsRun_report (hI.steady _) rfl rfl rfl r h).mono (fun _ r' h' => ?_) fun _ _ => hI.drop
  split
  next l hl => exact ensures_pure.mpr (hf l hl r' h')
  next => exact ensures_fail.mpr (hI.drop h')

theorem Invariant.keeps_countNode {id : NodeId} {r : Run} (h : I held r) (hheld : id ∉ held)
    (hvisited : id ∉ r.visited) (scope : Scope) :
    Ensures (countNode c scope) r
      (fun counted => I (if counted then id :: held else held)) fun _ => I held := by
  unfold countNode
  simp only [ensures_bind, ensures_modify, ensures_get]
  split
  next hbound => exact ensures_pure.mpr (hI.onCount hheld hvisited hbound h)
  next =>
    split
    next hhit =>
      simp only [ensures_bind, ensures_set, ensures_limit, ensures_pure]
      exact hI.onLimit (by simpa using hhit) (hI.onCountMore h)
    next => exact ensures_pure.mpr (hI.onCountMore h)

theorem Invariant.spends_takeContent (target : NodeId) (ref : String) (name : Option String) :
    Spends I node held (takeContent c node target ref name) := fun _ =>
  ensures_takeContent_of_steady (hI.steady _) (hI.steady _) (fun _ h => hI.onInline h) c name

theorem Invariant.spends_takeWalked (target : NodeId) (ref : String) (name : Option String) :
    Spends I node held (takeWalked c node target ref name) := by
  refine .getStore_bind fun s => ?_
  dsimp only
  split
  · exact hI.spends ((keepsRun_markCircular (hI.steady _) (fun _ h => hI.onMark h) _).bind fun _ =>
      keepsRun_pure _)
  · exact hI.spends_takeContent _ _ _

theorem Invariant.spends_recover {ref : String} {body : ResolveM (Option Entries)}
    (h : Spends I node held body) : Spends I node held (recover ref body) := by
  intro r hr
  unfold recover
  rw [ensures_tryCatch]
  refine (h r hr).mono (fun _ _ h' => h') fun e r' h' => ?_
  split
  · exact ((keepsRun_limit (hI.steady held) (by simp)).bind fun _ => keepsRun_pure _) r' h'
  · exact ensures_throw.mpr h'

end Spending

section Walk

variable {c : Context} {I : List NodeId → Run → Prop} {walk : Walker} (hI : Invariant c I)
  (hw : ∀ scope chain v, KeepsRun (I (Chain.nodes chain)) (walk scope chain v))
include hI hw

theorem Invariant.keeps_load {l : Location} {ref : String} {base : Option String}
    (hl : c.locator.locate ref base = .ok l) (chain : Chain) :
    KeepsRun (I chain.nodes) (load c walk chain l (locationKey c.locator.tree l)) := by
  intro r h
  unfold load
  rw [ensures_bind, ensures_get]
  split
  next => exact ensures_pure.mpr h
  next hnew =>
    rw [ensures_bind, ensures_getStore]
    split
    next => exact ensures_fail.mpr h
    next => exact ensures_throw.mpr h
    next d s hparse =>
      simp only [ensures_bind, ensures_modify, ensures_report]
      refine (hw _ _ _ _ (hI.onLoad hl hnew hparse h)).mono (fun _ _ h' => ?_) fun _ _ h' => h'
      exact ensures_pure.mpr h'

theorem Invariant.spends_inlineTarget {l : Location} {ref : String} {base : Option String}
    (hl : c.locator.locate (Reference.filePart ref) base = .ok l) (chain : Chain) (target : String)
    (node : NodeId) (path : List String) (name : Option String) :
    Spends I node chain.nodes (inlineTarget c walk (⟨target, node⟩ :: chain) node ref
      (locationKey c.locator.tree l) l path name) := by
  have hinner (scope : Scope) (v : Value) : KeepsRun (I (node :: chain.nodes))
      (walk scope (⟨target, node⟩ :: chain) v) := hw scope (⟨target, node⟩ :: chain) v
  have hload : KeepsRun (I (node :: chain.nodes)) (load c walk (⟨target, node⟩ :: chain) l
      (locationKey c.locator.tree l)) := hI.keeps_load hw hl (⟨target, node⟩ :: chain)
  unfold inlineTarget
  refine hI.spends_bind hload fun external => ?_
  refine hI.spends_bind (keepsRun_targetOf c external path ref) fun v => ?_
  split
  · have hwalked (id : NodeId) : Spends I node chain.nodes (do
        walk (scopeOf c external (locationKey c.locator.tree l) l) (⟨target, node⟩ :: chain) (.node id)
        takeWalked c node id ref name) :=
      hI.spends_bind (hinner _ _) fun _ => hI.spends_takeWalked _ _ _
    unfold inlineMapping
    refine .getStore_bind fun s => ?_
    split
    · exact hI.spends_bind (keepsRun_fail _) fun _ => hwalked _
    · exact hwalked _
  · exact hI.spends (keepsRun_fail _)

theorem Invariant.spends_inlineExternal (scope : Scope) (chain : Chain) (node : NodeId) (ref : String) :
    Spends I node chain.nodes (inlineExternal c walk scope chain node ref) := by
  have hsteady := hI.steady (node :: chain.nodes)
  unfold inlineExternal
  dsimp only
  split
  · exact hI.spends ((keepsRun_limit hsteady (by simp)).bind fun _ => keepsRun_pure _)
  · refine hI.spends_locate fun l hl => ?_
    split
    · exact hI.spends ((keepsRun_markCircular hsteady (fun _ h => hI.onMark h) _).bind fun _ =>
        keepsRun_pure _)
    · refine (hI.spends_recover (hI.spends_inlineTarget hw hl chain _ node _ _)).bind fun own => ?_
      split
      · exact .forM (fun v => hw scope chain v) _
      · exact keepsRun_pure _

theorem Invariant.spends_walkMapping (scope : Scope) (chain : Chain) (id : NodeId) (m : Entries) :
    Spends I id chain.nodes (walkMapping c walk scope chain id m) := by
  have hvalues : Spends I id chain.nodes (do
      visit id
      ((← getStore).entries id).values.forM (walk scope chain)) :=
    hI.spends_visit.bind fun _ => .getStore_bind fun s => .forM (fun v => hw scope chain v) _
  unfold walkMapping
  refine .getStore_bind fun s => ?_
  dsimp only
  split
  · exact hI.spends_inlineExternal hw scope chain id _
  · split
    · exact hI.spends_bind (keepsRun_noteInternal (hI.steady _) c scope _) fun _ => hvalues
    · exact hvalues

theorem Invariant.spends_expand (scope : Scope) (chain : Chain) (id : NodeId) (container : Container) :
    Spends I id chain.nodes (expand c walk scope chain id container) := by
  cases container with
  | set _ => exact hI.spends (keepsRun_pure _)
  | sequence items => exact hI.spends_visit.bind fun _ => .forM (fun v => hw scope chain v) _
  | mapping m => exact hI.spends_walkMapping hw scope chain id m

end Walk

section Run

variable {c : Context} {I : List NodeId → Run → Prop} (hI : Invariant c I)
include hI

theorem Invariant.keeps_walk (allowance : Nat) (scope : Scope) (chain : Chain) (v : Value) :
    KeepsRun (I chain.nodes) (walk c allowance scope chain v) := by
  induction allowance generalizing scope chain v with
  | zero => exact keepsRun_throw _
  | succ allowance ih =>
      intro r h
      refine ensures_walk (fun _ => h) fun id container _ _ _ hvisited hactive => ?_
      have hheld : id ∉ chain.nodes := Chain.not_mem_nodes hactive
      refine (hI.keeps_countNode h hheld hvisited scope).mono (fun counted r₁ h₁ => ?_) fun _ _ h => h
      -- A container that counts may be spent.
      cases counted with
      | true => exact hI.spends_expand ih scope chain id container r₁ h₁
      | false => exact h₁

theorem Invariant.keeps_run (scope : Scope) : KeepsRun (I []) (run c scope) := by
  have hroot : KeepsRun (I []) (walkRoot c scope) := by
    intro r h
    unfold walkRoot
    rw [ensures_tryCatch]
    refine (hI.keeps_walk _ scope [] _ r h).mono (fun _ _ h' => h') fun e r' h' => ?_
    split
    · exact keepsRun_limit (hI.steady []) (by simp) r' h'
    · exact ensures_throw.mpr h'
  unfold run
  refine hroot.bind fun _ => (keepsRun_adoptAllDangling (hI.steady []) c).bind fun _ => ?_
  exact .get_bind fun r => keepsRun_report (hI.steady []) rfl rfl rfl

end Run

end ApiGraph.Resolve
