import ApiGraph.Proofs.Parsing.Failures
import ApiGraph.Proofs.Resolve.WalkRecording

namespace ApiGraph.Resolve

open Reference

section Reading

variable {α β : Type} {c : Context} {root : Scope} {r r' : Run}

-- The document that is known under the key is the root document, or it was read.
def IsRead (c : Context) (root : Scope) (key : String) : Prop :=
  root.key = some key ∨
    ∃ l s d s', locationKey c.locator.tree l = key ∧ parseFile c l s = .ok (d, s')

-- Why a reference whose file was found did not fail: the file is read, it is taken for one that is read
-- because the targets are written alike, or it is nested too deep.
inductive Spared (c : Context) (root : Scope) (ref : String) (l : Location) : Prop
  | read (h : IsRead c root (locationKey c.locator.tree l))
  | alike {key ref' : String} (h : IsRead c root key)
      (htarget : targetText key ref' = targetText (locationKey c.locator.tree l) ref)
  | tooDeep {s : Store} (h : parseFile c l s = .error (.fault .stackExhausted))

-- The reference was looked up, and its file was found.
def Finds (c : Context) (events : List Event) (node : NodeId) (ref : String) (base : Option String)
    (l : Location) : Prop :=
  .lookedUp node ref base ∈ events ∧ c.locator.locate (filePart ref) base = .ok l

-- All references that were looked up are settled.
structure Unfailing (c : Context) (root : Scope) (r : Run) : Prop where
  loaded : ∀ key d, r.loaded.get? key = some d → IsRead c root key
  settled : ∀ node ref base l, Finds c r.events node ref base l → Spared c root ref l

-- All but one are settled.
structure Awaits (c : Context) (root : Scope) (node : NodeId) (ref : String) (base : Option String)
    (r : Run) : Prop where
  loaded : ∀ key d, r.loaded.get? key = some d → IsRead c root key
  logged : .lookedUp node ref base ∈ r.events
  settled : ∀ node' ref' base' l, Finds c r.events node' ref' base' l →
    Spared c root ref' l ∨ node' = node ∧ ref' = ref ∧ base' = base

-- A failure is that of reading a file that was found, or it is announced.
structure Explained (c : Context) (root : Scope) (e : Failure ResolutionError) (r : Run) : Prop where
  loaded : ∀ key d, r.loaded.get? key = some d → IsRead c root key
  settled : ∀ node ref base l, Finds c r.events node ref base l → Spared c root ref l ∨
    ∃ x s, parseFile c l s = .error x ∧ e = x.map (.loading l.path)
  fault : ∀ f, e = .fault f → f = .stackExhausted ∨
    ∃ node ref base l s, Finds c r.events node ref base l ∧ parseFile c l s = .error (.fault f)

-- The log says which files are looked up and read.
def isReading : Event → Bool
  | .lookedUp _ _ _ => true
  | .loaded _ => true
  | _ => false

-- No document is loaded and nothing is looked up in between.
structure Lookless (r r' : Run) : Prop where
  loaded : r'.loaded = r.loaded
  events : ∃ l, r'.events = r.events ++ l ∧ ∀ e ∈ l, isReading e = false

section Records

variable {node : NodeId} {ref : String} {base : Option String} {l : Location}

theorem Lookless.mem {e : Event} (h : Lookless r r') (he : e ∈ r'.events) (hreading : isReading e = true) :
    e ∈ r.events := by
  obtain ⟨l, heq, hl⟩ := h.events
  rw [heq] at he
  rcases List.mem_append.mp he with hin | hin
  · exact hin
  · rw [hl e hin] at hreading
    cases hreading

theorem Unfailing.lookless (h : Unfailing c root r) (hq : Lookless r r') : Unfailing c root r' where
  loaded := by
    rw [hq.loaded]
    exact h.loaded
  settled node ref base l hf := h.settled node ref base l ⟨hq.mem hf.1 rfl, hf.2⟩

theorem Unfailing.explained (h : Unfailing c root r) {e : Failure ResolutionError}
    (he : ∀ f, e = .fault f → f = .stackExhausted) : Explained c root e r where
  loaded := h.loaded
  settled node ref base l hf := .inl (h.settled node ref base l hf)
  fault f hf := .inl (he f hf)

-- A file that is nested too deep does not end the run.
theorem Explained.unfailing (h : Explained c root (.fault .stackExhausted) r) : Unfailing c root r where
  loaded := h.loaded
  settled node ref base l hf := by
    rcases h.settled node ref base l hf with hs | ⟨x, s, hx, heq⟩
    · exact hs
    · cases x with
      | announced e => cases heq
      | fault f =>
          cases heq
          exact .tooDeep hx

theorem Unfailing.awaits (h : Unfailing c root r) (node : NodeId) (ref : String) (base : Option String) :
    Awaits c root node ref base { r with events := r.events ++ [.lookedUp node ref base] } where
  loaded := h.loaded
  logged := List.mem_append_right _ (List.mem_singleton_self _)
  settled node' ref' base' l hf := by
    rcases List.mem_append.mp hf.1 with hin | hin
    · exact .inl (h.settled node' ref' base' l ⟨hin, hf.2⟩)
    · cases List.mem_singleton.mp hin
      exact .inr ⟨rfl, rfl, rfl⟩

variable (h : Awaits c root node ref base r) (hl : c.locator.locate (filePart ref) base = .ok l)
include h

theorem Awaits.failed {e : ResolutionError} (he : c.locator.locate (filePart ref) base = .error e)
    (e' : ResolutionError) : Explained c root (.announced e') r where
  loaded := h.loaded
  settled node' ref' base' l hf := by
    rcases h.settled node' ref' base' l hf with hs | ⟨rfl, rfl, rfl⟩
    · exact .inl hs
    · rw [hf.2] at he
      cases he
  fault f hf := by cases hf

include hl

theorem Awaits.unfailing (hs : Spared c root ref l) : Unfailing c root r where
  loaded := h.loaded
  settled node' ref' base' l' hf := by
    rcases h.settled node' ref' base' l' hf with hs' | ⟨rfl, rfl, rfl⟩
    · exact hs'
    · obtain rfl : l = l' := Except.ok.inj (hl.symm.trans hf.2)
      exact hs

theorem Awaits.explained {s : Store} {x : Failure ParseError} (hx : parseFile c l s = .error x) :
    Explained c root (x.map (.loading l.path)) r where
  loaded := h.loaded
  settled node' ref' base' l' hf := by
    rcases h.settled node' ref' base' l' hf with hs | ⟨rfl, rfl, rfl⟩
    · exact .inl hs
    · obtain rfl : l = l' := Except.ok.inj (hl.symm.trans hf.2)
      exact .inr ⟨x, s, hx, rfl⟩
  fault f hf := by
    cases x with
    | announced e => cases hf
    | fault g =>
        cases hf
        exact .inr ⟨node, ref, base, l, s, ⟨h.logged, hl⟩, hx⟩

end Records

-- The program neither fails nor loads a document nor looks anything up.
def Tame (x : ResolveM α) : Prop := ∀ r, Ensures x r (fun _ r' => Lookless r r') fun _ _ => False

section Tame

-- Where neither the documents nor the log change.
theorem lookless_of_same (hloaded : r'.loaded = r.loaded) (hevents : r'.events = r.events) :
    Lookless r r' :=
  ⟨hloaded, [], by rw [hevents, List.append_nil], nofun⟩

theorem Lookless.refl (r : Run) : Lookless r r := lookless_of_same rfl rfl

theorem Lookless.trans {r'' : Run} (h : Lookless r r') (h' : Lookless r' r'') : Lookless r r'' where
  loaded := h'.loaded.trans h.loaded
  events := by
    obtain ⟨l, heq, hl⟩ := h.events
    obtain ⟨l', heq', hl'⟩ := h'.events
    refine ⟨l ++ l', by rw [heq', heq, List.append_assoc], fun e he => ?_⟩
    exact (List.mem_append.mp he).elim (hl e) (hl' e)

theorem lookless_report {e : Event} (he : isReading e = false) :
    Lookless r { r with events := r.events ++ [e] } :=
  ⟨rfl, [e], rfl, fun _ hin => List.mem_singleton.mp hin ▸ he⟩

theorem tame_pure (a : α) : Tame (pure a : ResolveM α) := fun r => ensures_pure.mpr (.refl r)

theorem Tame.bind {x : ResolveM α} {f : α → ResolveM β} (hx : Tame x) (hf : ∀ a, Tame (f a)) :
    Tame (x >>= f) := by
  intro r
  rw [ensures_bind]
  refine (hx r).mono (fun a r' h' => ?_) fun _ _ h' => h'
  exact (hf a r').mono (fun _ _ h'' => h'.trans h'') fun _ _ h'' => h''

theorem Tame.get_bind {f : Run → ResolveM α} (hf : ∀ r, Tame (f r)) : Tame (get >>= f) := by
  intro r
  rw [ensures_bind, ensures_get]
  exact hf r r

theorem Tame.getStore_bind {f : Store → ResolveM α} (hf : ∀ s, Tame (f s)) :
    Tame (getStore >>= f) := by
  intro r
  rw [ensures_bind, ensures_getStore]
  exact hf r.store r

theorem Tame.forM {f : β → ResolveM Unit} (hf : ∀ b, Tame (f b)) (l : List β) : Tame (l.forM f) := by
  intro r
  exact ensures_forM (I := fun _ => Lookless r) (.refl r) fun b _ r' h' =>
    (hf b r').mono (fun _ _ h'' => h'.trans h'') fun _ _ h'' => h''

theorem tame_report {e : Event} (he : isReading e = false) : Tame (report e) :=
  fun _ => ensures_report.mpr (lookless_report he)

theorem tame_limit (l : SoftLimit) : Tame (limit l) := by
  intro r
  exact ensures_limit.mpr ⟨rfl, [.resolutionLimit l], rfl, by simp [isReading]⟩

theorem tame_setStore (s : Store) : Tame (setStore s) :=
  fun _ => ensures_setStore.mpr (lookless_of_same rfl rfl)

theorem tame_visit (id : NodeId) : Tame (visit id) :=
  fun _ => ensures_visit.mpr (lookless_of_same rfl rfl)

theorem tame_bindComponent (kind name : String) (target : NodeId) :
    Tame (bindComponent c kind name target) := by
  refine .getStore_bind fun s => ?_
  generalize s.ensureComponents c.document kind = place
  refine (tame_setStore _).bind fun _ => ?_
  split
  · exact tame_pure _
  · exact (tame_setStore _).bind fun _ => tame_pure _

theorem tame_registerSchema (name : String) (target : NodeId) (ref : String) :
    Tame (registerSchema c name target ref) := by
  refine (tame_bindComponent _ _ _).bind fun bound => ?_
  split
  · exact tame_report rfl
  · exact tame_pure _

theorem tame_adopt (kind name : String) (target : NodeId) : Tame (adopt c kind name target) := by
  refine (tame_bindComponent _ _ _).bind fun bound => ?_
  split
  · exact tame_report rfl
  · exact tame_pure _

theorem tame_adoptAllDangling : Tame (adoptAllDangling c) := by
  refine .get_bind fun r => .forM (fun ref => ?_) _
  unfold adoptDangling
  refine .get_bind fun r => ?_
  split
  · exact tame_pure _
  · dsimp only
    split
    · exact tame_adopt _ _ _
    · exact tame_report rfl

theorem tame_noteInternal (scope : Scope) (ref : String) : Tame (noteInternal c scope ref) := by
  unfold noteInternal adoptInternal
  split
  · exact fun _ => ensures_modify.mpr (lookless_of_same rfl rfl)
  · dsimp only
    split
    · exact tame_pure _
    · refine .get_bind fun r => ?_
      split
      · exact tame_pure _
      · split
        · exact tame_adopt _ _ _
        · exact tame_report rfl

theorem tame_markCircular (node : NodeId) (ref : String) (name : Option String) :
    Tame (markCircular node ref name) :=
  .getStore_bind fun _ => (tame_setStore _).bind fun _ => tame_report rfl

theorem tame_countNode (scope : Scope) : Tame (countNode c scope) := by
  intro r
  unfold countNode
  simp only [ensures_bind, ensures_modify, ensures_get]
  split
  · exact ensures_pure.mpr (lookless_of_same rfl rfl)
  · split
    · simp only [ensures_bind, ensures_set, ensures_limit, ensures_pure]
      exact ⟨rfl, _, rfl, by simp [isReading]⟩
    · exact ensures_pure.mpr (lookless_of_same rfl rfl)

-- What is left to do after the walk.
theorem tame_end (scope : Scope) : Tame (do
    adoptAllDangling c
    let r ← get
    let files := r.loaded.size - (if scope.key.isSome then 1 else 0)
    report (.resolved files r.walked) : ResolveM Unit) :=
  tame_adoptAllDangling.bind fun _ => .get_bind fun _ => tame_report rfl

theorem tame_takeContent (node target : NodeId) (ref : String) (name : Option String) :
    Tame (takeContent c node target ref name) := by
  have hreplace : Tame (replaceContent node target name) :=
    .getStore_bind fun _ => (tame_setStore _).bind fun _ => tame_pure _
  refine hreplace.bind fun own => (tame_report rfl).bind fun _ => ?_
  refine (tame_visit _).bind fun _ => ?_
  split
  · exact (tame_registerSchema _ _ _).bind fun _ => tame_pure _
  · exact tame_pure _

theorem tame_takeWalked (node target : NodeId) (ref : String) (name : Option String) :
    Tame (takeWalked c node target ref name) := by
  refine .getStore_bind fun s => ?_
  dsimp only
  split
  · exact (tame_markCircular _ _ _).bind fun _ => tame_pure _
  · exact tame_takeContent _ _ _ _

end Tame

-- The program leaves no reference unsettled, or it fails with what came of reading a file.
def Reads (c : Context) (root : Scope) (x : ResolveM α) : Prop :=
  ∀ r, Unfailing c root r → Ensures x r (fun _ => Unfailing c root) (Explained c root)

section Steps

theorem Tame.reads {x : ResolveM α} (hx : Tame x) : Reads c root x := fun r h =>
  (hx r).mono (fun _ _ hq => h.lookless hq) fun _ _ hfalse => hfalse.elim

theorem reads_fail (e : ResolutionError) : Reads c root (fail e : ResolveM α) :=
  fun _ h => ensures_fail.mpr (h.explained fun _ hf => by cases hf)

theorem Reads.bind {x : ResolveM α} {f : α → ResolveM β} (hx : Reads c root x)
    (hf : ∀ a, Reads c root (f a)) : Reads c root (x >>= f) := by
  intro r h
  rw [ensures_bind]
  exact (hx r h).mono (fun a r' h' => hf a r' h') fun _ _ h' => h'

-- A step that is taken only sometimes.
theorem Reads.when {p : Prop} [Decidable p] {x : ResolveM PUnit} {y : ResolveM α}
    (hx : Reads c root x) (hy : Reads c root y) : Reads c root (do
      if p then x
      y) := by
  split
  · exact hx.bind fun _ => hy
  · exact hy

theorem Reads.get_bind {f : Run → ResolveM α} (hf : ∀ r, Reads c root (f r)) :
    Reads c root (get >>= f) := by
  intro r h
  rw [ensures_bind, ensures_get]
  exact hf r r h

theorem Reads.getStore_bind {f : Store → ResolveM α} (hf : ∀ s, Reads c root (f s)) :
    Reads c root (getStore >>= f) := by
  intro r h
  rw [ensures_bind, ensures_getStore]
  exact hf r.store r h

theorem Reads.forM {f : β → ResolveM Unit} (hf : ∀ b, Reads c root (f b)) (l : List β) :
    Reads c root (l.forM f) := by
  intro r h
  exact ensures_forM h fun b _ r' h' => hf b r' h'

theorem reads_targetOf (external : NodeId) (path : List String) (ref : String) :
    Reads c root (targetOf c external path ref) := by
  unfold targetOf
  split
  · exact (tame_pure _).reads
  · refine .get_bind fun r => ?_
    split
    · exact (tame_pure _).reads
    · split
      · exact (tame_pure _).reads
      · exact reads_fail _

theorem reads_recover {ref : String} {body : ResolveM (Option Entries)}
    (h : Ensures body r (fun _ => Unfailing c root) (Explained c root)) :
    Ensures (recover ref body) r (fun _ => Unfailing c root) (Explained c root) := by
  unfold recover
  rw [ensures_tryCatch]
  refine h.mono (fun _ _ h' => h') fun e r' h' => ?_
  split
  · exact ((tame_limit _).bind fun _ => tame_pure _).reads r' h'.unfailing
  · exact ensures_throw.mpr h'

end Steps

section Walk

-- The file of every reference that is being resolved is read.
def AllRead (c : Context) (root : Scope) (chain : Chain) : Prop :=
  ∀ link ∈ chain, ∃ key ref, IsRead c root key ∧ link.target = targetText key ref

theorem AllRead.cons {chain : Chain} (h : AllRead c root chain) {key : String}
    (hread : IsRead c root key) (ref : String) (node : NodeId) :
    AllRead c root (⟨targetText key ref, node⟩ :: chain) :=
  List.forall_mem_cons.mpr ⟨⟨key, ref, hread, rfl⟩, h⟩

-- A reference that closes a cycle leads to a file that is read, or that is taken for one.
theorem AllRead.spared {chain : Chain} (h : AllRead c root chain) {l : Location} {ref : String}
    (hclosed : chain.hasTarget (targetText (locationKey c.locator.tree l) ref) = true) :
    Spared c root ref l := by
  obtain ⟨link, hlink, heq⟩ := List.any_eq_true.mp hclosed
  obtain ⟨key, ref', hread, htarget⟩ := h link hlink
  exact .alike hread (htarget.symm.trans (beq_iff_eq.mp heq))

variable {walk : Walker} {chain : Chain}
  (hw : ∀ scope chain v, AllRead c root chain → Reads c root (walk scope chain v))
include hw

-- The file of the reference that is waiting is known already, or it is read now.
theorem Awaits.load {node : NodeId} {ref : String} {base : Option String} {l : Location}
    (h : Awaits c root node ref base r) (hl : c.locator.locate (filePart ref) base = .ok l)
    (hchain : IsRead c root (locationKey c.locator.tree l) → AllRead c root chain) :
    Ensures (load c walk chain l (locationKey c.locator.tree l)) r
      (fun _ r' => Unfailing c root r' ∧ IsRead c root (locationKey c.locator.tree l))
      (Explained c root) := by
  unfold Resolve.load
  rw [ensures_bind, ensures_get]
  split
  next d hknown =>
    have hread := h.loaded _ d hknown
    exact ensures_pure.mpr ⟨h.unfailing hl (.read hread), hread⟩
  next =>
    rw [ensures_bind, ensures_getStore]
    split
    next e hparse => exact ensures_fail.mpr (h.explained hl hparse)
    next f hparse => exact ensures_throw.mpr (h.explained hl hparse)
    next d s hparse =>
      have hread : IsRead c root (locationKey c.locator.tree l) := .inr ⟨l, _, d, s, rfl, hparse⟩
      have hunfailing := h.unfailing hl (.read hread)
      simp only [ensures_bind, ensures_modify, ensures_report]
      have hloaded : Unfailing c root { r with
          store := s, loaded := r.loaded.insert (locationKey c.locator.tree l) d,
          events := r.events ++ [.loaded l.path] } := by
        refine ⟨fun key d' hget => ?_, ?_⟩
        · by_cases hkey : locationKey c.locator.tree l = key
          · exact hkey ▸ hread
          · refine hunfailing.loaded key d' ?_
            rwa [OrderedMap.get?_insert, if_neg (by simpa using hkey)] at hget
        · exact fun node' ref' base' l' hf =>
            hunfailing.settled node' ref' base' l' ⟨by simpa using hf.1, hf.2⟩
      refine (hw _ _ _ (hchain hread) _ hloaded).mono (fun _ _ h' => ?_) fun _ _ h' => h'
      exact ensures_pure.mpr ⟨h', hread⟩

theorem reads_inlineMapping {scope : Scope} (hchain : AllRead c root chain) (node target : NodeId)
    (ref : String) (name : Option String) :
    Reads c root (inlineMapping c (fun id => walk scope chain (.node id)) node target ref name) := by
  unfold inlineMapping
  refine .getStore_bind fun s => (reads_fail _).when ((hw _ _ _ hchain).bind fun _ => ?_)
  exact (tame_takeWalked _ _ _ _).reads

theorem Awaits.inlineTarget {node : NodeId} {ref : String} {base : Option String} {l : Location}
    (h : Awaits c root node ref base r) (hl : c.locator.locate (filePart ref) base = .ok l)
    (hchain : IsRead c root (locationKey c.locator.tree l) → AllRead c root chain)
    (path : List String) (name : Option String) :
    Ensures (inlineTarget c walk chain node ref (locationKey c.locator.tree l) l path name) r
      (fun _ => Unfailing c root) (Explained c root) := by
  unfold Resolve.inlineTarget
  rw [ensures_bind]
  refine (h.load hw hl hchain).mono (fun external r' h' => ?_) fun _ _ h' => h'
  refine ((reads_targetOf _ _ _).bind fun v => ?_) r' h'.1
  split
  · exact reads_inlineMapping hw (hchain h'.2) _ _ _ _
  · exact reads_fail _

theorem reads_inlineExternal (hchain : AllRead c root chain) (scope : Scope) (node : NodeId)
    (ref : String) : Reads c root (inlineExternal c walk scope chain node ref) := by
  unfold inlineExternal
  dsimp only
  split
  · exact ((tame_limit _).bind fun _ => tame_pure _).reads
  · intro r h
    unfold locate
    simp only [ensures_bind, ensures_report]
    have hawaits := h.awaits node ref scope.base
    generalize { r with events := r.events ++ [Event.lookedUp node ref scope.base] } = r' at hawaits ⊢
    split
    next l hl =>
      rw [ensures_pure]
      split
      next hclosed =>
        have hunfailing := hawaits.unfailing hl (hchain.spared hclosed)
        exact ((tame_markCircular _ _ _).bind fun _ => tame_pure _).reads r' hunfailing
      next =>
        rw [ensures_bind]
        refine (reads_recover (hawaits.inlineTarget hw hl (hchain.cons · _ _) _ _)).mono
          (fun own r'' h' => ?_) fun _ _ h' => h'
        split
        · exact Reads.forM (fun v => hw scope chain v hchain) _ r'' h'
        · exact ensures_pure.mpr h'
    next e he => exact ensures_fail.mpr (hawaits.failed he e)

theorem reads_walkMapping (hchain : AllRead c root chain) (scope : Scope) (id : NodeId) (m : Entries) :
    Reads c root (walkMapping c walk scope chain id m) := by
  have hvalues : Reads c root (do
      visit id
      ((← getStore).entries id).values.forM (walk scope chain)) :=
    (tame_visit id).reads.bind fun _ => .getStore_bind fun s =>
      .forM (fun v => hw scope chain v hchain) _
  unfold walkMapping
  refine .getStore_bind fun s => ?_
  dsimp only
  split
  · exact reads_inlineExternal hw hchain scope id _
  · split
    · exact (tame_noteInternal _ _).reads.bind fun _ => hvalues
    · exact hvalues

theorem reads_expand (hchain : AllRead c root chain) (scope : Scope) (id : NodeId)
    (container : Container) : Reads c root (expand c walk scope chain id container) := by
  cases container with
  | set _ => exact (tame_pure _).reads
  | sequence items => exact (tame_visit _).reads.bind fun _ => .forM (fun v => hw scope chain v hchain) _
  | mapping m => exact reads_walkMapping hw hchain scope id m

end Walk

theorem reads_walk (allowance : Nat) (scope : Scope) (chain : Chain) (v : Value)
    (hchain : AllRead c root chain) : Reads c root (walk c allowance scope chain v) := by
  induction allowance generalizing scope chain v with
  | zero =>
      exact fun _ h => ensures_throw.mpr (h.explained fun _ hf => (Failure.fault.inj hf).symm)
  | succ allowance ih =>
      intro r h
      refine ensures_walk (fun _ => h) fun id container _ _ _ _ _ => ?_
      refine ((tame_countNode scope).reads r h).mono (fun counted r₁ h₁ => ?_) fun _ _ h => h
      split
      · exact reads_expand ih hchain scope id container r₁ h₁
      · exact h₁

-- Neither the walk's own depth nor what follows it ends the run.
theorem explained_run (scope : Scope) (h : Unfailing c root r) :
    Ensures (run c scope) r (fun _ => Unfailing c root)
      fun e r' => Explained c root e r' ∧ e ≠ .fault .stackExhausted := by
  have hroot : Ensures (walkRoot c scope) r (fun _ => Unfailing c root)
      fun e r' => Explained c root e r' ∧ e ≠ .fault .stackExhausted := by
    unfold walkRoot
    rw [ensures_tryCatch]
    have hwalk : Reads c root (walk c nestingAllowance scope [] (.node c.document)) :=
      reads_walk _ _ _ _ fun _ hin => absurd hin List.not_mem_nil
    refine (hwalk r h).mono (fun _ _ h' => h') fun e r' h' => ?_
    split
    · exact (tame_limit _ r').mono (fun _ _ hq => h'.unfailing.lookless hq) fun _ _ hfalse => hfalse.elim
    next hother => exact ensures_throw.mpr ⟨h', hother⟩
  unfold run
  rw [ensures_bind]
  refine hroot.mono (fun _ r' h' => ?_) fun _ _ h' => h'
  exact (tame_end scope r').mono (fun _ _ hq => h'.lookless hq) fun _ _ hfalse => hfalse.elim

theorem unfailing_startRun (c : Context) (s : Store) (document : NodeId) (scope : Scope) :
    Unfailing c scope (startRun s document scope) := by
  refine ⟨fun key d hget => .inl ?_, fun node ref base l hf => absurd hf.1 List.not_mem_nil⟩
  unfold startRun at hget
  cases hkey : scope.key with
  | none =>
      rw [hkey] at hget
      cases hget
  | some key' =>
      rw [hkey] at hget
      dsimp only at hget
      rw [OrderedMap.get?_insert] at hget
      split at hget
      next heq => exact congrArg some (by simpa using heq)
      next => cases hget

end Reading

section Call

variable {c : Context} {l : Location} {f : Fault}

-- The text that is read for the file has a flaw.
def HasFlaw (c : Context) (l : Location) (f : Fault) : Prop :=
  ∃ content name, (∀ s, parseFile c l s = Description.parse content name s) ∧
    Description.HasFlaw content name f

-- The root document is said to be where no file can be.
def Request.IsImpossible (q : Request) : Prop :=
  ∃ archive, q.archive? = .ok archive ∧ (rootLocation? archive q.source).any isImpossible = true

-- There is a text to be read, or a failure that is announced, whatever is stored already.
def ReadsText (load : Store → Except (Failure ParseError) (NodeId × Store)) : Prop :=
  (∃ content name, ∀ s, load s = Description.parse content name s) ∨
    ∃ e, ∀ s, load s = .error (.announced e)

theorem readsText_loadEntry (a : Archive) (name : String) :
    ReadsText (Location.loadEntry a name) := by
  unfold Location.loadEntry
  cases a.readText name with
  | error e => exact .inr ⟨e, fun s => rfl⟩
  | ok content => exact .inl ⟨content, name, fun s => rfl⟩

theorem readsText_loadFile (t : FileTree) (sizeLimit : Int) (path : FilePath) :
    ReadsText (Location.loadFile t sizeLimit path) := by
  unfold Location.loadFile
  split
  · exact .inr ⟨_, fun s => rfl⟩
  · exact .inr ⟨_, fun s => rfl⟩
  · exact .inr ⟨_, fun s => rfl⟩
  next content _ _ =>
    by_cases hlarge : sizeLimit < content.size
    · simp only [if_pos hlarge]
      exact .inr ⟨_, fun s => rfl⟩
    · simp only [if_neg hlarge]
      cases content.text? with
      | none => exact .inr ⟨_, fun s => rfl⟩
      | some text => exact .inl ⟨_, _, fun s => rfl⟩

theorem readsText_parseFile (c : Context) (l : Location) : ReadsText (parseFile c l) := by
  unfold parseFile
  split
  · exact readsText_loadEntry _ _
  · unfold Location.load
    split
    · exact readsText_loadFile _ _ _
    next path _ =>
      cases Archive.openAt c.locator.tree path c.settings.maxFileSize with
      | error e => exact .inr ⟨e, fun s => rfl⟩
      | ok a => exact readsText_loadEntry a l.path

theorem hasFlaw_of_parseFile {s : Store} (h : parseFile c l s = .error (.fault f))
    (hf : f ≠ .stackExhausted) : HasFlaw c l f := by
  rcases readsText_parseFile c l with ⟨content, name, htext⟩ | ⟨e, he⟩
  · rw [htext] at h
    exact ⟨content, name, htext, (Description.flaw_of_parse h).resolve_left hf⟩
  · rw [he] at h
    cases h

variable {s : Store} {q : Request}

-- The call fails before it looks at a reference: the archive of the root document cannot be opened, or
-- the document cannot be where it is said to be.
def Request.Refuses (q : Request) (e : Failure ResolutionError) : Prop :=
  (∃ x, q.archive? = .error x ∧ e = .announced x) ∨ (e = .fault .impossiblePath ∧ q.IsImpossible)

theorem refuses_or_runs {e : Failure ResolutionError} (h : (references s q).result = .error e) :
    q.Refuses e ∨ references s q = Outcome.of (q.ending s) := by
  cases hne : (s.entries q.document).isEmpty with
  | true =>
      rw [references_of_isEmpty hne] at h
      cases h
  | false =>
      cases harchive : q.archive? with
      | error x =>
          unfold references at h
          rw [if_neg (by simp [hne]), harchive] at h
          cases h
          exact .inl (.inl ⟨x, harchive, rfl⟩)
      | ok archive =>
          cases hpossible : (rootLocation? archive q.source).any isImpossible with
          | false => exact .inr (references_eq_ending hne harchive hpossible)
          | true =>
              unfold references at h
              rw [if_neg (by simp [hne]), harchive] at h
              dsimp only at h
              rw [if_pos hpossible] at h
              cases h
              exact .inl (.inr ⟨rfl, archive, harchive, hpossible⟩)

-- A call that has not run yet fails unannounced only where the root document cannot be.
theorem eq_ending_of_fault (h : (references s q).result = .error (.fault f)) :
    (f = .impossiblePath ∧ q.IsImpossible) ∨ references s q = Outcome.of (q.ending s) := by
  refine (refuses_or_runs h).imp_left fun hrefuses => ?_
  rcases hrefuses with ⟨x, -, heq⟩ | ⟨heq, himpossible⟩
  · cases heq
  · exact ⟨Failure.fault.inj heq, himpossible⟩

theorem explained_ending (s : Store) (q : Request) :
    Ensures (run q.context q.scope) (startRun s q.document q.scope)
      (fun _ => Unfailing q.context q.scope) fun e r' =>
        Explained q.context q.scope e r' ∧ e ≠ .fault .stackExhausted :=
  explained_run q.scope (unfailing_startRun q.context s q.document q.scope)

-- A file that is found for a reference is read, or the call fails with it.
theorem spared_or_fails {node : NodeId} {ref : String} {base : Option String}
    (h : Finds q.context (references s q).events node ref base l) :
    Spared q.context q.scope ref l ∨
      (∃ e, (references s q).result = .error (.announced (.loading l.path e))) ∨
      ∃ f, (references s q).result = .error (.fault f) ∧ HasFlaw q.context l f := by
  rcases references_cases s q with ⟨e, hidle, -⟩ | hrun
  · rw [hidle] at h
    exact absurd h.1 List.not_mem_nil
  · have hends := explained_ending s q
    rw [hrun] at h ⊢
    unfold Request.ending at h ⊢
    rcases hend : (run q.context q.scope).run.run (startRun s q.document q.scope) with ⟨e | a, r⟩
    · rw [hend] at h
      obtain ⟨hexplained, hstack⟩ := (ensures_of_error hend).mp hends
      rcases hexplained.settled node ref base l h with hspared | ⟨x, t, hx, rfl⟩
      · exact .inl hspared
      · cases x with
        | announced e => exact .inr (.inl ⟨e, rfl⟩)
        | fault f =>
            exact .inr (.inr ⟨f, rfl, hasFlaw_of_parseFile hx fun heq => hstack (congrArg _ heq)⟩)
    · rw [hend] at h
      exact .inl (((ensures_of_ok hend).mp hends).settled node ref base l h)

-- A call that fails unannounced has met a flaw in a file that it found.
theorem flawed_of_fault (h : (references s q).result = .error (.fault f)) :
    (f = .impossiblePath ∧ q.IsImpossible) ∨
      ∃ node ref base l, Finds q.context (references s q).events node ref base l ∧
        HasFlaw q.context l f := by
  refine (eq_ending_of_fault h).imp_right fun hrun => ?_
  have hends := explained_ending s q
  rw [hrun] at h ⊢
  unfold Request.ending at h ⊢
  rcases hend : (run q.context q.scope).run.run (startRun s q.document q.scope) with ⟨e | a, r⟩
  · rw [hend] at h
    obtain rfl : e = .fault f := Except.error.inj h
    obtain ⟨hexplained, hstack⟩ := (ensures_of_error hend).mp hends
    have hne : f ≠ .stackExhausted := fun heq => hstack (congrArg _ heq)
    obtain ⟨node, ref, base, l, t, hfinds, ht⟩ := (hexplained.fault f rfl).resolve_left hne
    exact ⟨node, ref, base, l, hfinds, hasFlaw_of_parseFile ht hne⟩
  · rw [hend] at h
    cases h

-- A file with a day that does not exist, and a document that refers to it.
def dated : String := "a: 2001-02-30\n"

def datedRoot : Store := ⟨#[.ofFields [("a", .node 1)], .ofFields [("$ref", .str "f.yaml")]]⟩

def datedCall : Request :=
  ⟨0, none, {}, [], [], none, ⟨.mk [("f.yaml", .bytes dated.toUTF8)] .nil, ⟨1, []⟩⟩⟩

end Call

end ApiGraph.Resolve
