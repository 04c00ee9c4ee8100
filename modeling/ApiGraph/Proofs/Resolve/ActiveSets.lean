import ApiGraph.Proofs.Alike
import ApiGraph.Proofs.Resolve.Invariant
import Mathlib.Data.Finset.Card
import Mathlib.Data.Finset.Dedup

namespace ApiGraph.Resolve.ActiveSets

open Reference

-- The targets that are being resolved, and the mappings of the references to them.
structure Active where
  targets : Finset String
  nodes : Finset NodeId

namespace Active

def empty : Active := ⟨∅, ∅⟩

def hold (a : Active) (l : Link) : Active := ⟨insert l.target a.targets, insert l.node a.nodes⟩

def release (a : Active) (l : Link) : Active := ⟨a.targets.erase l.target, a.nodes.erase l.node⟩

def ofChain (chain : Chain) : Active :=
  ⟨(chain.map Link.target).toFinset, (chain.map Link.node).toFinset⟩

end Active

-- Why a reference is marked.
inductive Reason where
  -- Its target is in the set.
  | active (target : String)
  -- Its target, with this content, is a reference still, and it is in the set.
  | stands (target : NodeId) (content : Entries)
  -- Its target is a reference still, but nobody is resolving it any more: it was left.
  | left (target : NodeId) (content : Entries)

inductive Act where
  -- The walk of a value begins, with as many references around it, and ends.
  | enter (depth : Nat)
  | leave (depth : Nat)
  -- The reference is about to be added to the sets, and to be taken out.
  | hold (l : Link)
  | release (l : Link)
  -- All has been done about a reference. These were the sets before.
  | settle (before : Active)
  -- The reference is about to be marked.
  | mark (node : NodeId) (ref : String) (reason : Reason)

def Act.apply (chain : Chain) : Act → Chain
  | hold l => l :: chain
  | release _ => chain.tail
  | _ => chain

def Act.marking? : Act → Option (NodeId × String)
  | mark node ref _ => some (node, ref)
  | _ => none

structure Moment where
  active : Active
  act : Act

-- The references whose resolving has begun and not ended, innermost first.
def underWay (moments : List Moment) : Chain := moments.foldl (fun chain m => m.act.apply chain) []

-- The marks that are set at the moments.
def marksAt (moments : List Moment) : List (NodeId × String) := moments.filterMap fun m => m.act.marking?

-- The walk is told how many references are being resolved; which ones they are is in the sets of
-- the state.
structure State where
  run : Run
  active : Active
  moments : List Moment

abbrev ActiveM := ExceptT (Failure ResolutionError) (StateM State)

abbrev Walker := Scope → (depth : Nat) → Value → ActiveM Unit

section Program

-- What has nothing to do with the sets.
def aside {α : Type} (x : ResolveM α) : ActiveM α :=
  ExceptT.mk fun t => ((x.run.run t.run).1, { t with run := (x.run.run t.run).2 })

def note (act : Act) : ActiveM Unit :=
  modify fun t => { t with moments := t.moments ++ [⟨t.active, act⟩] }

def hold (l : Link) : ActiveM Unit := do
  note (.hold l)
  modify fun t => { t with active := t.active.hold l }

def release (l : Link) : ActiveM Unit := do
  note (.release l)
  modify fun t => { t with active := t.active.release l }

def mark (node : NodeId) (ref : String) (name : Option String) (reason : Reason) : ActiveM Unit := do
  note (.mark node ref reason)
  aside (markCircular node ref name)

variable (c : Context) (walk : Walker)

def load (depth : Nat) (l : Location) (key : String) : ActiveM NodeId := do
  match (← aside get).loaded.get? key with
  | some d => return d
  | none =>
      match parseFile c l (← aside getStore) with
      | .error (.announced e) => aside (fail (.loading l.path e))
      | .error (.fault f) => throw (.fault f)
      | .ok (d, s) =>
          aside (modify fun r => { r with store := s, loaded := r.loaded.insert key d })
          aside (report (.loaded l.path))
          walk (scopeOf c d key l) (depth + 1) (.node d)
          return d

def takeWalked (node target : NodeId) (ref : String) (name : Option String) :
    ActiveM (Option Entries) := do
  let s ← aside getStore
  let content := s.entries target
  if content.ref?.any isExternal then
    let held := decide (target ∈ (← get).active.nodes)
    mark node ref name (if held then .stands target content else .left target content)
    return none
  let isSchema := (clearedContent s node target).looksLikeSchema
  aside (takeContent c node target ref (if isSchema then name else none))

def inlineMapping (walk : NodeId → ActiveM Unit) (node target : NodeId) (ref : String)
    (name : Option String) : ActiveM (Option Entries) := do
  if ((← aside getStore).mapping? target).isNone then aside (fail (.notMapping ref))
  walk target
  takeWalked c node target ref name

def inlineTarget (depth : Nat) (node : NodeId) (ref key : String) (l : Location)
    (path : List String) (name : Option String) : ActiveM (Option Entries) := do
  let external ← load c walk depth l key
  match ← aside (targetOf c external path ref) with
  | .node target =>
      inlineMapping c (fun id => walk (scopeOf c external key l) (depth + 1) (.node id)) node target ref
        name
  | _ => aside (fail (.notMapping ref))

def recover (ref : String) (body : ActiveM (Option Entries)) : ActiveM (Option Entries) :=
  tryCatch body fun
    | .fault .stackExhausted => do
        aside (limit ⟨.stack, s!"resolver:{ref}", "reference chain exhausted the stack"⟩)
        return none
    | e => throw e

def settleExternal (scope : Scope) (depth : Nat) (node : NodeId) (ref : String) : ActiveM Unit := do
  let bound := c.settings.maxRefDepth
  if bound ≤ depth then
    aside (limit ⟨.depth, s!"resolver:{ref}", s!"external references nested deeper than {bound}"⟩)
    return
  let l ← aside (locate c scope node ref)
  let key := locationKey c.locator.tree l
  let path := segments (pointerPart ref)
  let target := s!"{key}#{joinSegments path}"
  let name := path.getLast? <|> (if path.isEmpty then fileStem? ref else none)
  if target ∈ (← get).active.targets then
    mark node ref name (.active target)
    return
  let link : Link := ⟨target, node⟩
  hold link
  -- What stands beside the reference is walked when the sets are as before.
  let own ←
    try recover ref (inlineTarget c walk depth node ref key l path name)
    finally release link
  match own with
  | some own => own.values.forM (walk scope depth)
  | none => return

def inlineExternal (scope : Scope) (depth : Nat) (node : NodeId) (ref : String) : ActiveM Unit := do
  let before := (← get).active
  try settleExternal c walk scope depth node ref
  finally note (.settle before)

def walkMapping (scope : Scope) (depth : Nat) (id : NodeId) (m : Entries) : ActiveM Unit := do
  let ref := pendingRef? (← aside getStore) m
  if let some external := ref.filter isExternal then
    inlineExternal c walk scope depth id external
  else
    if let some internal := ref.filter isInternal then aside (noteInternal c scope internal)
    aside (visit id)
    ((← aside getStore).entries id).values.forM (walk scope depth)

def walkValue (scope : Scope) (depth : Nat) (v : Value) : ActiveM Unit := do
  let .node id := v | return
  let r ← aside get
  let some container := r.store.get? id | return
  if r.visited.contains id || decide (id ∈ (← get).active.nodes) then return
  match container with
  | .set _ => return
  | .sequence items =>
      if ← aside (countNode c scope) then
        aside (visit id)
        items.forM (walk scope depth)
  | .mapping m =>
      if ← aside (countNode c scope) then walkMapping c walk scope depth id m

end Program

def walk (c : Context) : (allowance : Nat) → Walker
  | 0, _, _, _ => throw (.fault .stackExhausted)
  | allowance + 1, scope, depth, v => do
      note (.enter depth)
      try walkValue c (walk c allowance) scope depth v
      finally note (.leave depth)

def walkRoot (c : Context) (scope : Scope) : ActiveM Unit :=
  tryCatch (walk c nestingAllowance scope 0 (.node c.document)) fun
    | .fault .stackExhausted =>
        aside (limit ⟨.stack, "resolver", "document nesting exhausted the stack"⟩)
    | e => throw e

def run (c : Context) (scope : Scope) : ActiveM Unit := do
  walkRoot c scope
  aside do
    adoptAllDangling c
    let r ← get
    let files := r.loaded.size - (if scope.key.isSome then 1 else 0)
    report (.resolved files r.walked)

theorem marksAt_append (moments more : List Moment) :
    marksAt (moments ++ more) = marksAt moments ++ marksAt more := List.filterMap_append

-- What holds at a moment, with the references of the chain under way.
def Moment.Follows (bound : Int) (chain : Chain) (m : Moment) : Prop :=
  m.active = .ofChain chain ∧ match m.act with
    | .enter depth | .leave depth =>
        m.active.targets.card = depth ∧ m.active.nodes.card = depth ∧ (depth : Int) ≤ max 0 bound
    | .hold l => l.target ∉ m.active.targets ∧ l.node ∉ m.active.nodes
    | .release l => chain.head? = some l
    | .settle before => m.active = before
    | .mark node _ (.active target) => node ∉ m.active.nodes ∧ target ∈ m.active.targets
    | .mark node _ (.stands target content) =>
        node ∈ m.active.nodes ∧ target ∈ m.active.nodes ∧ content.ref?.any isExternal = true
    | .mark node _ (.left target content) =>
        node ∈ m.active.nodes ∧ target ∉ m.active.nodes ∧ content.ref?.any isExternal = true

section Chains

variable {c : Context} {chain : Chain} {l : Link}

-- A chain that a walk can have come to.
structure Proper (c : Context) (chain : Chain) : Prop where
  targets : (chain.map Link.target).Nodup
  nodes : (chain.map Link.node).Nodup
  depth : (chain.length : Int) ≤ max 0 c.settings.maxRefDepth

theorem mem_targets {target : String} :
    target ∈ (Active.ofChain chain).targets ↔ chain.hasTarget target = true := by
  simp [Active.ofChain, Chain.hasTarget]

theorem mem_nodes {id : NodeId} :
    id ∈ (Active.ofChain chain).nodes ↔ chain.hasNode id = true := by
  simp [Active.ofChain, Chain.hasNode]

theorem hold_ofChain (chain : Chain) (l : Link) :
    (Active.ofChain chain).hold l = .ofChain (l :: chain) := by
  simp [Active.ofChain, Active.hold]

theorem release_ofChain (ht : chain.hasTarget l.target = false) (hn : chain.hasNode l.node = false) :
    (Active.ofChain (l :: chain)).release l = .ofChain chain := by
  rw [← hold_ofChain]
  unfold Active.release Active.hold
  rw [Finset.erase_insert (by simp [mem_targets, ht]), Finset.erase_insert (by simp [mem_nodes, hn])]

theorem Proper.card (h : Proper c chain) : (Active.ofChain chain).targets.card = chain.length ∧
    (Active.ofChain chain).nodes.card = chain.length := by
  refine ⟨?_, ?_⟩
  · exact (List.toFinset_card_of_nodup h.targets).trans (List.length_map _)
  · exact (List.toFinset_card_of_nodup h.nodes).trans (List.length_map _)

theorem Proper.nil : Proper c [] := ⟨List.nodup_nil, List.nodup_nil, Int.le_max_left _ _⟩

-- A reference is followed only within the bound, and neither its target nor its mapping twice.
theorem Proper.cons (h : Proper c chain) (hdepth : ¬c.settings.maxRefDepth ≤ chain.length)
    (ht : chain.hasTarget l.target = false) (hn : chain.hasNode l.node = false) :
    Proper c (l :: chain) where
  targets := by
    refine List.nodup_cons.mpr ⟨fun hmem => ?_, h.targets⟩
    have hactive := mem_targets.mp (List.mem_toFinset.mpr hmem)
    simp [ht] at hactive
  nodes := by
    refine List.nodup_cons.mpr ⟨fun hmem => ?_, h.nodes⟩
    have hactive := mem_nodes.mp (List.mem_toFinset.mpr hmem)
    simp [hn] at hactive
  depth := by
    rw [List.length_cons]
    omega

theorem underWay_concat (moments : List Moment) (m : Moment) :
    underWay (moments ++ [m]) = m.act.apply (underWay moments) := by
  rw [underWay, List.foldl_append]
  rfl

end Chains

section Markless

variable {α β : Type} {x : ResolveM α}

-- The program sets no mark.
def Markless (x : ResolveM α) : Prop := ∀ marks, KeepsRun (fun r => marksIn r.events = marks) x

theorem steady_marks (marks : List (NodeId × String)) : Steady fun r => marksIn r.events = marks :=
  fun _ _ hq h => hq.marks.trans h

theorem Markless.marksIn_eq (h : Markless x) (r : Run) :
    marksIn (x.run.run r).2.events = marksIn r.events :=
  (h _ r rfl).state

theorem Markless.bind {f : α → ResolveM β} (hx : Markless x) (hf : ∀ a, Markless (f a)) :
    Markless (x >>= f) :=
  fun marks => (hx marks).bind fun a => hf a marks

theorem markless_pure (a : α) : Markless (pure a : ResolveM α) := fun _ => keepsRun_pure _

theorem markless_fail (e : ResolutionError) : Markless (fail e : ResolveM α) := fun _ => keepsRun_fail _

theorem markless_visit (id : NodeId) : Markless (visit id) := fun _ _ h => ensures_visit.mpr h

theorem markless_get : Markless get := fun _ _ h => ensures_get.mpr h

theorem markless_getStore : Markless getStore := fun _ _ h => ensures_getStore.mpr h

theorem markless_report {e : Event} (he : marking? e = none) : Markless (report e) :=
  fun _ _ h => ensures_report.mpr (by simp [marksIn, he, ← h])

theorem markless_limit (l : SoftLimit) : Markless (limit l) :=
  fun _ _ h => ensures_limit.mpr (by simp [marksIn, marking?, ← h])

theorem markless_locate (c : Context) (scope : Scope) (node : NodeId) (ref : String) :
    Markless (locate c scope node ref) := by
  refine (markless_report rfl).bind fun _ => ?_
  split
  · exact markless_pure _
  · exact markless_fail _

theorem markless_countNode (c : Context) (scope : Scope) : Markless (countNode c scope) := by
  intro marks r h
  unfold countNode
  simp only [ensures_bind, ensures_modify, ensures_get]
  split
  · exact ensures_pure.mpr h
  · split
    · simp only [ensures_bind, ensures_set, ensures_limit, ensures_pure]
      simp [marksIn, marking?, ← h]
    · exact ensures_pure.mpr h

theorem markless_takeContent (c : Context) (node target : NodeId) (ref : String)
    (name : Option String) : Markless (takeContent c node target ref name) := by
  intro marks r
  refine ensures_takeContent_of_steady (steady_marks marks) (steady_marks marks) (fun r h => ?_) c name
  simp [marksIn, marking?, ← h]

theorem markless_adoptAllDangling (c : Context) : Markless (adoptAllDangling c) :=
  fun marks => keepsRun_adoptAllDangling (steady_marks marks) c

end Markless

section Tracks

variable {c : Context} {start : List (NodeId × String)} {chain : Chain} {t : State} {r : Run} {α : Type}

-- The sets hold the chain, and so it was at every moment. All marks but the first ones were set at one.
structure Tracks (c : Context) (start : List (NodeId × String)) (chain : Chain) (t : State) (r : Run) :
    Prop where
  run : t.run = r
  marks : marksIn r.events = start ++ marksAt t.moments
  active : t.active = .ofChain chain
  underWay : underWay t.moments = chain
  moments : ∀ pre m post, t.moments = pre ++ m :: post →
    m.Follows c.settings.maxRefDepth (ActiveSets.underWay pre)

theorem Tracks.note (h : Tracks c start chain t r) {act : Act}
    (hact : Moment.Follows c.settings.maxRefDepth chain ⟨t.active, act⟩) :
    ∀ pre m post, t.moments ++ [⟨t.active, act⟩] = pre ++ m :: post →
      m.Follows c.settings.maxRefDepth (ActiveSets.underWay pre) := by
  intro pre m post heq
  rcases List.eq_nil_or_concat post with rfl | ⟨post, last, rfl⟩
  · obtain ⟨rfl, hlast⟩ := List.append_inj' heq rfl
    cases hlast
    rwa [h.underWay]
  · rw [List.concat_eq_append, ← List.cons_append, ← List.append_assoc] at heq
    exact h.moments pre m post (List.append_inj' heq rfl).1

theorem Tracks.marks_concat (h : Tracks c start chain t r) {m : Moment} (hm : m.act.marking? = none) :
    marksIn r.events = start ++ marksAt (t.moments ++ [m]) := by
  have hone : marksAt [m] = [] := List.filterMap_cons_none hm
  rw [marksAt_append, hone, List.append_nil]
  exact h.marks

-- Noting what leaves the references under way as they are.
theorem run_note (h : Tracks c start chain t r) (act : Act) (hkeeps : act.apply chain = chain)
    (hnone : act.marking? = none)
    (hact : Moment.Follows c.settings.maxRefDepth chain ⟨t.active, act⟩) :
    ∃ u, (note act).run.run t = (.ok (), u) ∧ Tracks c start chain u r := by
  refine ⟨_, rfl, h.run, h.marks_concat hnone, h.active, ?_, h.note hact⟩
  rw [underWay_concat, h.underWay, hkeeps]

theorem run_hold (h : Tracks c start chain t r) {l : Link} (ht : chain.hasTarget l.target = false)
    (hn : chain.hasNode l.node = false) :
    ∃ u, (hold l).run.run t = (.ok (), u) ∧ Tracks c start (l :: chain) u r := by
  refine ⟨_, rfl, h.run, h.marks_concat rfl, ?_, ?_, h.note ⟨h.active, ?_⟩⟩
  · show t.active.hold l = _
    rw [h.active, hold_ofChain]
  · rw [underWay_concat, h.underWay]
    rfl
  · show l.target ∉ t.active.targets ∧ l.node ∉ t.active.nodes
    rw [h.active, mem_targets, mem_nodes]
    simp [ht, hn]

theorem run_release {l : Link} (h : Tracks c start (l :: chain) t r)
    (ht : chain.hasTarget l.target = false) (hn : chain.hasNode l.node = false) :
    ∃ u, (release l).run.run t = (.ok (), u) ∧ Tracks c start chain u r := by
  refine ⟨_, rfl, h.run, h.marks_concat rfl, ?_, ?_, h.note ⟨h.active, rfl⟩⟩
  · show t.active.release l = _
    rw [h.active, release_ofChain ht hn]
  · rw [underWay_concat, h.underWay]
    rfl

theorem alike_aside (h : Tracks c start chain t r) {x : ResolveM α} (hx : Markless x) :
    RunsAlike (Tracks c start chain) (aside x) x t r := by
  obtain ⟨rfl, hmarks, hactive, hunderWay, hmoments⟩ := h
  exact ⟨rfl, rfl, (hx.marksIn_eq t.run).trans hmarks, hactive, hunderWay, hmoments⟩

-- A mark is set at the moment that tells of it.
theorem alike_mark (h : Tracks c start chain t r) {node : NodeId} {ref : String} {reason : Reason}
    (name : Option String)
    (hreason : Moment.Follows c.settings.maxRefDepth chain ⟨t.active, .mark node ref reason⟩) :
    RunsAlike (Tracks c start chain) (mark node ref name reason) (markCircular node ref name) t r := by
  have hmoments := h.note hreason
  obtain ⟨rfl, hmarks, hactive, hunderWay, -⟩ := h
  refine ⟨rfl, rfl, ?_, hactive, ?_, hmoments⟩
  · show marksIn (t.run.events ++ [.circular node ref]) =
      start ++ marksAt (t.moments ++ [⟨t.active, .mark node ref reason⟩])
    rw [marksIn_append, hmarks, marksAt_append, List.append_assoc]
    rfl
  · exact (underWay_concat t.moments _).trans hunderWay

end Tracks

section Walk

variable {c : Context} {start : List (NodeId × String)} {chain : Chain} {t : State} {r : Run}
  {walk' : Walker} {walk : Resolve.Walker}

-- The walk with the sets does what the other one does.
def WalksAlike (c : Context) (walk' : Walker) (walk : Resolve.Walker) : Prop :=
  ∀ start scope chain v t r, Proper c chain → Tracks c start chain t r →
    RunsAlike (Tracks c start chain) (walk' scope chain.length v) (walk scope chain v) t r

theorem alike_recover (ref : String) {x : ActiveM (Option Entries)} {y : ResolveM (Option Entries)}
    (h : RunsAlike (Tracks c start chain) x y t r) :
    RunsAlike (Tracks c start chain) (recover ref x) (Resolve.recover ref y) t r := by
  refine h.tryCatch fun e u r' hu => ?_
  cases e with
  | announced e => exact runsAlike_throw hu _
  | fault f =>
      cases f with
      | stackExhausted =>
          exact (alike_aside hu (markless_limit _)).bind fun _ _ _ hu => runsAlike_pure hu _
      | _ => exact runsAlike_throw hu _

variable (hw : WalksAlike c walk' walk)
include hw

theorem alike_forM (hp : Proper c chain) (h : Tracks c start chain t r) (scope : Scope) (l : List Value) :
    RunsAlike (Tracks c start chain) (l.forM (walk' scope chain.length)) (l.forM (walk scope chain)) t r :=
  runsAlike_forM (L := Eq) (List.forall₂_same.mpr fun _ _ => rfl)
    (fun v _ u r' hu hv => hv ▸ hw start scope chain v u r' hp hu) h

variable {link : Link}

theorem alike_load (hp : Proper c (link :: chain)) (h : Tracks c start (link :: chain) t r) (l : Location)
    (key : String) :
    RunsAlike (Tracks c start (link :: chain)) (load c walk' chain.length l key)
      (Resolve.load c walk (link :: chain) l key) t r := by
  unfold load Resolve.load
  refine (alike_aside h markless_get).bind fun r' u _ hu => ?_
  cases r'.loaded.get? key with
  | some d => exact runsAlike_pure hu d
  | none =>
      refine (alike_aside hu markless_getStore).bind fun s u _ hu => ?_
      rcases parseFile c l s with (e | f) | ⟨d, s⟩
      · exact alike_aside hu (markless_fail _)
      · exact runsAlike_throw hu _
      · have hkept : Markless (modify fun r => { r with store := s, loaded := r.loaded.insert key d }) :=
          fun _ _ h => ensures_modify.mpr h
        refine (alike_aside hu hkept).bind fun _ u _ hu => ?_
        refine (alike_aside hu (markless_report rfl)).bind fun _ u r' hu => ?_
        refine (hw start (scopeOf c d key l) (link :: chain) (.node d) u r' hp hu).bind fun _ _ _ hu => ?_
        exact runsAlike_pure hu d

omit hw in
theorem alike_takeWalked (h : Tracks c start (link :: chain) t r) (target : NodeId) (ref : String)
    (name : Option String) :
    RunsAlike (Tracks c start (link :: chain)) (takeWalked c link.node target ref name)
      (Resolve.takeWalked c link.node target ref name) t r := by
  unfold takeWalked Resolve.takeWalked
  refine (alike_aside h markless_getStore).bind fun s u _ hu => ?_
  dsimp only
  by_cases hstands : (s.entries target).ref?.any isExternal = true
  · rw [if_pos hstands, if_pos hstands]
    refine RunsAlike.bind_left (x := get) rfl ?_
    have hnode : link.node ∈ u.active.nodes := by
      rw [hu.active, mem_nodes]
      simp [Chain.hasNode]
    refine (alike_mark hu name ⟨hu.active, ?_⟩).bind fun _ _ _ hu => runsAlike_pure hu _
    -- The target may be in the set or not.
    by_cases hheld : target ∈ u.active.nodes
    · rw [decide_eq_true hheld]
      exact ⟨hnode, hheld, hstands⟩
    · rw [decide_eq_false hheld]
      exact ⟨hnode, hheld, hstands⟩
  · rw [if_neg hstands, if_neg hstands]
    exact alike_aside hu (markless_takeContent _ _ _ _ _)

theorem alike_inlineMapping (hp : Proper c (link :: chain)) (h : Tracks c start (link :: chain) t r)
    (scope : Scope) (target : NodeId) (ref : String) (name : Option String) :
    RunsAlike (Tracks c start (link :: chain))
      (inlineMapping c (fun id => walk' scope (chain.length + 1) (.node id)) link.node target ref name)
      (Resolve.inlineMapping c (fun id => walk scope (link :: chain) (.node id)) link.node target ref name)
      t r := by
  have hwalked (u : State) (r' : Run) (hu : Tracks c start (link :: chain) u r') :
      RunsAlike (Tracks c start (link :: chain)) (do
        walk' scope (chain.length + 1) (.node target)
        takeWalked c link.node target ref name) (do
        walk scope (link :: chain) (.node target)
        Resolve.takeWalked c link.node target ref name) u r' :=
    (hw start scope (link :: chain) (.node target) u r' hp hu).bind fun _ _ _ hu => alike_takeWalked hu _ _ _
  unfold inlineMapping Resolve.inlineMapping
  refine (alike_aside h markless_getStore).bind fun s u _ hu => ?_
  by_cases hnone : (s.mapping? target).isNone = true
  · rw [if_pos hnone, if_pos hnone]
    exact (alike_aside hu (markless_fail _)).bind fun _ u r' hu => hwalked u r' hu
  · rw [if_neg hnone, if_neg hnone]
    exact hwalked _ _ hu

theorem alike_inlineTarget (hp : Proper c (link :: chain)) (h : Tracks c start (link :: chain) t r)
    (ref key : String) (l : Location) (path : List String) (name : Option String) :
    RunsAlike (Tracks c start (link :: chain))
      (inlineTarget c walk' chain.length link.node ref key l path name)
      (Resolve.inlineTarget c walk (link :: chain) link.node ref key l path name) t r := by
  unfold inlineTarget Resolve.inlineTarget
  refine (alike_load hw hp h l key).bind fun external u _ hu => ?_
  refine (alike_aside hu fun _ => keepsRun_targetOf _ _ _ _).bind fun v u _ hu => ?_
  cases v with
  | node target => exact alike_inlineMapping hw hp hu _ _ _ _
  | _ => exact alike_aside hu (markless_fail _)

theorem alike_settleExternal (hp : Proper c chain) (h : Tracks c start chain t r) (scope : Scope)
    (node : NodeId) (ref : String) (hn : chain.hasNode node = false) :
    RunsAlike (Tracks c start chain) (settleExternal c walk' scope chain.length node ref)
      (Resolve.inlineExternal c walk scope chain node ref) t r := by
  unfold settleExternal Resolve.inlineExternal
  dsimp only
  by_cases hdepth : c.settings.maxRefDepth ≤ chain.length
  · rw [if_pos hdepth, if_pos hdepth]
    exact (alike_aside h (markless_limit _)).bind fun _ _ _ hu => runsAlike_pure hu _
  · rw [if_neg hdepth, if_neg hdepth]
    refine (alike_aside h (markless_locate _ _ _ _)).bind fun l u r' hu => ?_
    refine RunsAlike.bind_left (x := get) rfl ?_
    generalize s!"{locationKey c.locator.tree l}#{joinSegments (segments (pointerPart ref))}" = target
    cases hclosed : chain.hasTarget target with
    | true =>
        have hmem : target ∈ u.active.targets := hu.active ▸ mem_targets.mpr hclosed
        rw [if_pos hmem, if_pos rfl]
        have hfree : node ∉ u.active.nodes := by
          rw [hu.active, mem_nodes, hn]
          exact Bool.false_ne_true
        have hmoment : Moment.Follows c.settings.maxRefDepth chain
            ⟨u.active, .mark node ref (.active target)⟩ := ⟨hu.active, hfree, hmem⟩
        exact (alike_mark hu _ hmoment).bind fun _ _ _ hu => runsAlike_pure hu _
    | false =>
        have hfree : target ∉ u.active.targets := by
          rw [hu.active, mem_targets, hclosed]
          exact Bool.false_ne_true
        rw [if_neg hfree, if_neg Bool.false_ne_true]
        obtain ⟨u', hhold, hu'⟩ := run_hold hu (l := ⟨target, node⟩) hclosed hn
        refine RunsAlike.bind_left hhold ?_
        have hinner := alike_inlineTarget hw (hp.cons hdepth hclosed hn) hu' ref
        refine ((alike_recover ref (hinner _ l _ _)).tryFinally fun u _ hu => ?_).bind
          fun own u _ hu => ?_
        · obtain ⟨v, hrelease, hv⟩ := run_release hu hclosed hn
          exact ⟨(), v, hrelease, hv⟩
        · cases own with
          | some own => exact alike_forM hw hp hu scope _
          | none => exact runsAlike_pure hu _

theorem alike_inlineExternal (hp : Proper c chain) (h : Tracks c start chain t r) (scope : Scope)
    (node : NodeId) (ref : String) (hn : chain.hasNode node = false) :
    RunsAlike (Tracks c start chain) (inlineExternal c walk' scope chain.length node ref)
      (Resolve.inlineExternal c walk scope chain node ref) t r := by
  unfold inlineExternal
  refine RunsAlike.bind_left (x := get) rfl ?_
  refine (alike_settleExternal hw hp h scope node ref hn).tryFinally fun u _ hu => ?_
  obtain ⟨v, hnote, hv⟩ := run_note hu (.settle t.active) rfl rfl
    ⟨hu.active, hu.active.trans h.active.symm⟩
  exact ⟨(), v, hnote, hv⟩

theorem alike_walkMapping (hp : Proper c chain) (h : Tracks c start chain t r) (scope : Scope)
    (id : NodeId) (m : Entries) (hn : chain.hasNode id = false) :
    RunsAlike (Tracks c start chain) (walkMapping c walk' scope chain.length id m)
      (Resolve.walkMapping c walk scope chain id m) t r := by
  have hvalues (u : State) (r' : Run) (hu : Tracks c start chain u r') : RunsAlike (Tracks c start chain) (do
      aside (visit id)
      ((← aside getStore).entries id).values.forM (walk' scope chain.length)) (do
      visit id
      ((← getStore).entries id).values.forM (walk scope chain)) u r' := by
    refine (alike_aside hu (markless_visit _)).bind fun _ u _ hu => ?_
    refine (alike_aside hu markless_getStore).bind fun s u _ hu => ?_
    exact alike_forM hw hp hu scope _
  unfold walkMapping Resolve.walkMapping
  refine (alike_aside h markless_getStore).bind fun s u r' hu => ?_
  dsimp only
  cases (pendingRef? s m).filter isExternal with
  | some external => exact alike_inlineExternal hw hp hu scope id external hn
  | none =>
      cases (pendingRef? s m).filter isInternal with
      | some internal =>
          have hnoted : Markless (noteInternal c scope internal) :=
            fun marks => keepsRun_noteInternal (steady_marks marks) c scope internal
          exact (alike_aside hu hnoted).bind fun _ u r' hu => hvalues u r' hu
      | none => exact hvalues u r' hu

end Walk

theorem alike_walkValue {c : Context} {start : List (NodeId × String)} {chain : Chain} {t : State} {r : Run}
    {walk' : Walker} {allowance : Nat} (hw : WalksAlike c walk' (Resolve.walk c allowance)) (hp : Proper c chain)
    (h : Tracks c start chain t r) (scope : Scope) (v : Value) :
    RunsAlike (Tracks c start chain) (walkValue c walk' scope chain.length v)
      (Resolve.walk c (allowance + 1) scope chain v) t r := by
  unfold walkValue Resolve.walk
  cases v with
  | node id =>
      refine (alike_aside h markless_get).bind fun r' u _ hu => ?_
      cases r'.store.get? id with
      | none => exact runsAlike_pure hu _
      | some container =>
          refine RunsAlike.bind_left (x := get) rfl ?_
          have hactive : decide (id ∈ u.active.nodes) = chain.hasNode id := by
            rw [Bool.eq_iff_iff, decide_eq_true_iff, hu.active]
            exact mem_nodes
          dsimp only
          rw [hactive]
          by_cases hknown : (r'.visited.contains id || chain.hasNode id) = true
          · rw [if_pos hknown, if_pos hknown]
            exact runsAlike_pure hu _
          · rw [if_neg hknown, if_neg hknown]
            have hn : chain.hasNode id = false := by
              rw [Bool.or_eq_true, not_or] at hknown
              exact Bool.eq_false_iff.mpr hknown.2
            cases container with
            | set s => exact runsAlike_pure hu _
            | sequence items =>
                refine (alike_aside hu (markless_countNode _ _)).bind fun counted u _ hu => ?_
                cases counted with
                | false => exact runsAlike_pure hu _
                | true =>
                    exact (alike_aside hu (markless_visit _)).bind fun _ _ _ hu =>
                      alike_forM hw hp hu scope items
            | mapping m =>
                refine (alike_aside hu (markless_countNode _ _)).bind fun counted u _ hu => ?_
                cases counted with
                | false => exact runsAlike_pure hu _
                | true => exact alike_walkMapping hw hp hu scope id m hn
  | _ => exact runsAlike_pure h _

theorem walksAlike_walk (c : Context) (allowance : Nat) :
    WalksAlike c (walk c allowance) (Resolve.walk c allowance) := by
  induction allowance with
  | zero => exact fun _ _ _ _ _ _ _ h => runsAlike_throw h _
  | succ allowance ih =>
      intro start scope chain v t r hp h
      -- The number of the references around a value is that of either set.
      have hcard {u : State} {r' : Run} (hu : Tracks c start chain u r') :
          u.active.targets.card = chain.length ∧ u.active.nodes.card = chain.length ∧
            (chain.length : Int) ≤ max 0 c.settings.maxRefDepth := by
        rw [hu.active]
        exact ⟨hp.card.1, hp.card.2, hp.depth⟩
      unfold walk
      obtain ⟨u, henter, hu⟩ := run_note h (.enter chain.length) rfl rfl ⟨h.active, hcard h⟩
      refine RunsAlike.bind_left henter ?_
      refine (alike_walkValue ih hp hu scope v).tryFinally fun u _ hu => ?_
      obtain ⟨w, hleave, hw⟩ := run_note hu (.leave chain.length) rfl rfl ⟨hu.active, hcard hu⟩
      exact ⟨(), w, hleave, hw⟩

-- A run with the sets is the run without them. In the end the sets are empty, and at every moment they
-- hold the references that are under way: as many as the walk is told and no more than allowed, none of
-- them twice, and behind a reference again what they held before it. So a reference that is not under way
-- any more has no part in what they say. Each mark is set at one of the moments. There the target of the
-- reference is in the sets, or it is a reference that was left before and is taken for a cycle.
theorem active_follows (c : Context) (scope : Scope) (r : Run) :
    ∃ t, (run c scope).run.run ⟨r, .empty, []⟩ = (((Resolve.run c scope).run.run r).1, t) ∧
      t.run = ((Resolve.run c scope).run.run r).2 ∧ t.active = .empty ∧ underWay t.moments = [] ∧
      (∀ pre m post, t.moments = pre ++ m :: post →
        m.Follows c.settings.maxRefDepth (underWay pre)) ∧
      marksIn t.run.events = marksIn r.events ++ marksAt t.moments := by
  have hstart : Tracks c (marksIn r.events) [] ⟨r, .empty, []⟩ r := by
    refine ⟨rfl, (List.append_nil _).symm, rfl, rfl, fun pre m post h => ?_⟩
    simp at h
  have hroot : RunsAlike (Tracks c (marksIn r.events) []) (walkRoot c scope) (Resolve.walkRoot c scope)
      ⟨r, .empty, []⟩ r := by
    refine (walksAlike_walk c nestingAllowance _ scope [] _ _ r .nil hstart).tryCatch
      fun e u r' hu => ?_
    cases e with
    | announced e => exact runsAlike_throw hu _
    | fault f =>
        cases f with
        | stackExhausted => exact alike_aside hu (markless_limit _)
        | _ => exact runsAlike_throw hu _
  have hrest : Markless (do
      adoptAllDangling c
      let r ← get
      let files := r.loaded.size - (if scope.key.isSome then 1 else 0)
      report (.resolved files r.walked)) :=
    (markless_adoptAllDangling c).bind fun _ => markless_get.bind fun _ => markless_report rfl
  have hrun : RunsAlike (Tracks c (marksIn r.events) []) (run c scope) (Resolve.run c scope)
      ⟨r, .empty, []⟩ r :=
    hroot.bind fun _ _ _ hu => alike_aside hu hrest
  obtain ⟨hresult, hend⟩ := hrun
  exact ⟨_, Prod.ext hresult rfl, hend.run, hend.active, hend.underWay, hend.moments,
    (congrArg (fun r' => marksIn r'.events) hend.run).trans hend.marks⟩

-- One reference to a file and one to a reference in the file, which leads to a third file.
def leftTarget : Store :=
  ⟨#[
    .ofFields [("a", .node 1), ("b", .node 2)],
    .ofFields [("$ref", .str "f.json")],
    .ofFields [("$ref", .str "f.json#/x")]]⟩

def leftTargetCall : Request :=
  let file := "\x7b\"x\":\x7b\"$ref\":\"g.json\"\x7d\x7d"
  ⟨0, none, { maxRefDepth := 1 }, [], [], none,
    ⟨.mk [("f.json", .bytes file.toUTF8), ("g.json", .bytes "\x7b\x7d".toUTF8)] .nil, ⟨1, []⟩⟩⟩

def leftTargetRun : State :=
  let q := leftTargetCall
  let locator := Locator.make q.tree none q.roots q.settings.maxFileSize q.settings.searchWalkDepth
  let scope := rootScope q.tree q.document none
  ((run ⟨q.document, locator, q.settings⟩ scope).run.run
    ⟨startRun leftTarget q.document scope, .empty, []⟩).2

-- The reference in the file is left for the bound on the depth. The one to it is marked for that, at a
-- moment when its target is not in the sets.
example : leftTargetRun.run.limits.map SoftLimit.kind = [.depth, .depth] ∧
    marksAt leftTargetRun.moments = [(2, "f.json#/x")] ∧
    leftTargetRun.moments.any (fun m => m.act matches .mark 2 "f.json#/x" (.left _ _)) = true := by
  decide +kernel

end ApiGraph.Resolve.ActiveSets
