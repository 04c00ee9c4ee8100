import ApiGraph.Proofs.Resolve.Unreadable

namespace ApiGraph.Resolve

open Reference

section Blame

variable {α β : Type} {c : Context} {r r' : Run} {events events' : List Event}

-- The failure of a reference that is looked up from the directory.
inductive ComesOf (c : Context) (ref : String) (base : Option String) : Failure ResolutionError → Prop
  | notFound {e : ResolutionError} (h : c.locator.locate (filePart ref) base = .error e) :
      ComesOf c ref base (.announced e)
  | unread {l : Location} {s : Store} {x : Failure ParseError}
      (hl : c.locator.locate (filePart ref) base = .ok l) (hx : parseFile c l s = .error x) :
      ComesOf c ref base (x.map (.loading l.path))
  | pointer (e : PointerError) : ComesOf c ref base (.announced (.pointer ref e))
  | notMapping : ComesOf c ref base (.announced (.notMapping ref))

-- The failure came of a reference that was looked up.
def Blamed (c : Context) (events : List Event) (e : Failure ResolutionError) : Prop :=
  ∃ node ref base, .lookedUp node ref base ∈ events ∧ ComesOf c ref base e

-- Every file that was read was found for a reference.
def Traced (c : Context) (events : List Event) : Prop :=
  ∀ path, .loaded path ∈ events → ∃ node ref base l, Finds c events node ref base l ∧ l.path = path

structure Logs (c : Context) (r r' : Run) : Prop where
  kept : r.events ⊆ r'.events
  traced : Traced c r.events → Traced c r'.events

-- The program reads no file and does not fail without a reference that was looked up for it.
def Accounts (c : Context) (x : ResolveM α) (r : Run) : Prop :=
  Ensures x r (fun _ r' => Logs c r r') fun e r' =>
    Logs c r r' ∧ (e = .fault .stackExhausted ∨ Blamed c r'.events e)

theorem Finds.mono {node : NodeId} {ref : String} {base : Option String} {l : Location}
    (h : Finds c events node ref base l) (hsub : events ⊆ events') : Finds c events' node ref base l :=
  ⟨hsub h.1, h.2⟩

theorem Logs.refl (c : Context) (r : Run) : Logs c r r := ⟨List.Subset.refl _, id⟩

theorem Logs.trans {r'' : Run} (h : Logs c r r') (h' : Logs c r' r'') : Logs c r r'' :=
  ⟨List.Subset.trans h.kept h'.kept, h'.traced ∘ h.traced⟩

-- A file that is read adds what it was found for.
theorem logs_append {l : List Event} (h : r'.events = r.events ++ l)
    (hl : ∀ path, .loaded path ∈ l →
      ∃ node ref base l, Finds c r'.events node ref base l ∧ l.path = path) : Logs c r r' := by
  have hsub : r.events ⊆ r'.events := by
    rw [h]
    exact List.subset_append_left _ _
  refine ⟨hsub, fun htraced path hin => ?_⟩
  rw [h] at hin
  rcases List.mem_append.mp hin with hin | hin
  · obtain ⟨node, ref, base, l, hfinds, hpath⟩ := htraced path hin
    exact ⟨node, ref, base, l, hfinds.mono hsub, hpath⟩
  · exact hl path hin

theorem Lookless.logs (h : Lookless r r') : Logs c r r' := by
  obtain ⟨l, heq, hl⟩ := h.events
  exact logs_append heq fun path hin => by cases hl _ hin

end Blame

section Steps

variable {α β : Type} {c : Context} {r : Run} {node : NodeId} {ref : String} {base : Option String}

theorem Tame.accounts {x : ResolveM α} (hx : Tame x) (r : Run) : Accounts c x r :=
  (hx r).mono (fun _ _ h => h.logs) fun _ _ hfalse => hfalse.elim

theorem accounts_fail {e : ResolutionError} (hlook : .lookedUp node ref base ∈ r.events)
    (he : ComesOf c ref base (.announced e)) : Accounts c (fail e : ResolveM α) r :=
  ensures_fail.mpr ⟨.refl c r, .inr ⟨node, ref, base, hlook, he⟩⟩

theorem Accounts.bind {x : ResolveM α} {f : α → ResolveM β} (hx : Accounts c x r)
    (hf : ∀ a r', Logs c r r' → Accounts c (f a) r') : Accounts c (x >>= f) r := by
  unfold Accounts
  rw [ensures_bind]
  refine Ensures.mono hx (fun a r' h => ?_) fun _ _ h => h
  exact Ensures.mono (hf a r' h) (fun _ _ h' => h.trans h') fun _ _ h' => ⟨h.trans h'.1, h'.2⟩

theorem accounts_get {f : Run → ResolveM α} (hf : Accounts c (f r) r) : Accounts c (get >>= f) r := by
  unfold Accounts
  rw [ensures_bind]
  exact ensures_get.mpr hf

theorem accounts_getStore {f : Store → ResolveM α} (hf : Accounts c (f r.store) r) :
    Accounts c (getStore >>= f) r := by
  unfold Accounts
  rw [ensures_bind]
  exact ensures_getStore.mpr hf

theorem accounts_forM {f : β → ResolveM Unit} (hf : ∀ b r, Accounts c (f b) r) (l : List β) (r : Run) :
    Accounts c (l.forM f) r := by
  induction l generalizing r with
  | nil => exact (tame_pure ()).accounts r
  | cons b rest ih => exact (hf b r).bind fun _ r' _ => ih r'

theorem accounts_targetOf (hlook : .lookedUp node ref base ∈ r.events) (external : NodeId)
    (path : List String) : Accounts c (targetOf c external path ref) r := by
  unfold targetOf
  split
  · exact (tame_pure _).accounts r
  · refine accounts_get ?_
    split
    · exact (tame_pure _).accounts r
    · split
      · exact (tame_pure _).accounts r
      · exact accounts_fail hlook (.pointer _)

-- The program goes on with the file that was found for the reference.
theorem ensures_locate {scope : Scope} {f : Location → ResolveM α}
    (hf : ∀ l r', Finds c r'.events node ref scope.base l → Accounts c (f l) r') :
    Ensures (locate c scope node ref >>= f) r
      (fun _ r' => Logs c r r' ∧ .lookedUp node ref scope.base ∈ r'.events) fun e r' =>
        (Logs c r r' ∧ .lookedUp node ref scope.base ∈ r'.events) ∧
          (e = .fault .stackExhausted ∨ Blamed c r'.events e) := by
  have hlogs : Logs c r { r with events := r.events ++ [.lookedUp node ref scope.base] } :=
    logs_append rfl fun _ hin => by cases List.mem_singleton.mp hin
  have hlook : .lookedUp node ref scope.base ∈ r.events ++ [.lookedUp node ref scope.base] :=
    List.mem_append_right _ (List.mem_singleton_self _)
  unfold locate
  simp only [ensures_bind, ensures_report]
  split
  next l hl =>
    refine ensures_pure.mpr (Ensures.mono (hf l _ ⟨hlook, hl⟩) (fun _ _ h => ?_) fun _ _ h => ?_)
    · exact ⟨hlogs.trans h, h.kept hlook⟩
    · exact ⟨⟨hlogs.trans h.1, h.1.kept hlook⟩, h.2⟩
  next e he =>
    exact ensures_fail.mpr ⟨⟨hlogs, hlook⟩, .inr ⟨node, ref, _, hlook, .notFound he⟩⟩

theorem accounts_recover {body : ResolveM (Option Entries)} (h : Accounts c body r) :
    Accounts c (recover ref body) r := by
  unfold recover Accounts
  rw [ensures_tryCatch]
  refine Ensures.mono h (fun _ _ h' => h') fun e r' h' => ?_
  split
  · refine Ensures.mono (((tame_limit _).bind fun _ => tame_pure _).accounts r')
      (fun _ _ h'' => h'.1.trans h'') fun _ _ h'' => ⟨h'.1.trans h''.1, h''.2⟩
  · exact ensures_throw.mpr h'

end Steps

section Walk

variable {c : Context} {walk : Walker} (hw : ∀ scope chain v r, Accounts c (walk scope chain v) r)
include hw

theorem accounts_load {r : Run} {node : NodeId} {ref : String} {base : Option String} {l : Location}
    (h : Finds c r.events node ref base l) (chain : Chain) (key : String) :
    Accounts c (load c walk chain l key) r := by
  have hlook := h.1
  unfold load
  refine accounts_get ?_
  split
  · exact (tame_pure _).accounts r
  · refine accounts_getStore ?_
    split
    next e hx => exact accounts_fail hlook (.unread h.2 hx)
    next f hx =>
      exact ensures_throw.mpr ⟨.refl c r, .inr ⟨node, ref, base, hlook, .unread h.2 hx⟩⟩
    next d s hx =>
      have hlogs : Logs c r { r with
          store := s, loaded := r.loaded.insert key d, events := r.events ++ [.loaded l.path] } := by
        refine logs_append rfl fun path hin => ⟨node, ref, base, l, ?_, ?_⟩
        · exact h.mono (List.subset_append_left _ _)
        · cases List.mem_singleton.mp hin
          rfl
      unfold Accounts
      simp only [ensures_bind, ensures_modify, ensures_report]
      refine Ensures.mono (hw _ _ _ _) (fun _ _ h' => ?_) fun _ _ h' => ⟨hlogs.trans h'.1, h'.2⟩
      exact ensures_pure.mpr (hlogs.trans h')

theorem accounts_inlineMapping {r : Run} {node : NodeId} {ref : String} {base : Option String}
    (hlook : .lookedUp node ref base ∈ r.events) (scope : Scope) (chain : Chain) (id target : NodeId)
    (name : Option String) :
    Accounts c (inlineMapping c (fun id => walk scope chain (.node id)) id target ref name) r := by
  have hwalked (r : Run) : Accounts c (do
      walk scope chain (.node target)
      takeWalked c id target ref name) r :=
    (hw _ _ _ r).bind fun _ r' _ => (tame_takeWalked _ _ _ _).accounts r'
  unfold inlineMapping
  refine accounts_getStore ?_
  split
  · exact (accounts_fail hlook .notMapping).bind fun _ r' _ => hwalked r'
  · exact hwalked r

theorem accounts_inlineTarget {r : Run} {node : NodeId} {ref : String} {base : Option String}
    {l : Location} (h : Finds c r.events node ref base l) (chain : Chain) (key : String)
    (path : List String) (name : Option String) :
    Accounts c (inlineTarget c walk chain node ref key l path name) r := by
  unfold inlineTarget
  refine (accounts_load hw h chain key).bind fun external r₁ h₁ => ?_
  have hlook₁ := h₁.kept h.1
  refine (accounts_targetOf hlook₁ external path).bind fun v r₂ h₂ => ?_
  have hlook₂ := h₂.kept hlook₁
  split
  · exact accounts_inlineMapping hw hlook₂ _ _ _ _ _
  · exact accounts_fail hlook₂ .notMapping

-- The reference is nested too deep, or it is looked up.
theorem lookedUp_inlineExternal (scope : Scope) (chain : Chain) (node : NodeId) (ref : String) (r : Run) :
    Ensures (inlineExternal c walk scope chain node ref) r
      (fun _ r' => Logs c r r' ∧
        (c.settings.maxRefDepth ≤ chain.length ∨ .lookedUp node ref scope.base ∈ r'.events))
      fun e r' => (Logs c r r' ∧
        (c.settings.maxRefDepth ≤ chain.length ∨ .lookedUp node ref scope.base ∈ r'.events)) ∧
          (e = .fault .stackExhausted ∨ Blamed c r'.events e) := by
  unfold inlineExternal
  dsimp only
  split
  next hdeep =>
    exact Ensures.mono (((tame_limit _).bind fun _ => tame_pure _).accounts r)
      (fun _ _ h => ⟨h, .inl hdeep⟩) fun _ _ h => ⟨⟨h.1, .inl hdeep⟩, h.2⟩
  next =>
    refine Ensures.mono (ensures_locate fun l r₁ hfinds => ?_)
      (fun _ _ h => ⟨h.1, .inr h.2⟩) fun _ _ h => ⟨⟨h.1.1, .inr h.1.2⟩, h.2⟩
    split
    · exact (tame_markCircular _ _ _).accounts r₁
    · refine (accounts_recover (accounts_inlineTarget hw hfinds _ _ _ _)).bind fun own r₂ _ => ?_
      split
      · exact accounts_forM (hw scope chain) _ r₂
      · exact (tame_pure _).accounts r₂

theorem accounts_inlineExternal (scope : Scope) (chain : Chain) (node : NodeId) (ref : String) (r : Run) :
    Accounts c (inlineExternal c walk scope chain node ref) r :=
  (lookedUp_inlineExternal hw scope chain node ref r).mono (fun _ _ h => h.1) fun _ _ h => ⟨h.1.1, h.2⟩

theorem accounts_walkMapping (scope : Scope) (chain : Chain) (id : NodeId) (m : Entries) (r : Run) :
    Accounts c (walkMapping c walk scope chain id m) r := by
  have hvalues (r : Run) : Accounts c (do
      visit id
      ((← getStore).entries id).values.forM (walk scope chain)) r :=
    ((tame_visit id).accounts r).bind fun _ r' _ => accounts_getStore (accounts_forM (hw scope chain) _ r')
  unfold walkMapping
  refine accounts_getStore ?_
  dsimp only
  split
  · exact accounts_inlineExternal hw scope chain id _ r
  · split
    · exact ((tame_noteInternal _ _).accounts r).bind fun _ r' _ => hvalues r'
    · exact hvalues r

theorem accounts_expand (scope : Scope) (chain : Chain) (id : NodeId) (container : Container) (r : Run) :
    Accounts c (expand c walk scope chain id container) r := by
  cases container with
  | set _ => exact (tame_pure _).accounts r
  | sequence items =>
      exact ((tame_visit _).accounts r).bind fun _ r' _ => accounts_forM (hw scope chain) _ r'
  | mapping m => exact accounts_walkMapping hw scope chain id m r

end Walk

theorem accounts_walk (c : Context) (allowance : Nat) (scope : Scope) (chain : Chain) (v : Value)
    (r : Run) : Accounts c (walk c allowance scope chain v) r := by
  induction allowance generalizing scope chain v r with
  | zero => exact ensures_throw.mpr ⟨.refl c r, .inl rfl⟩
  | succ allowance ih =>
      refine ensures_walk (fun _ => .refl c r) fun id container _ _ _ _ _ => ?_
      refine Ensures.mono ((tame_countNode scope).accounts r) (fun counted r₁ h₁ => ?_) fun _ _ h => h
      split
      · exact Ensures.mono (accounts_expand ih scope chain id container r₁) (fun _ _ => h₁.trans)
          fun _ _ h => ⟨h₁.trans h.1, h.2⟩
      · exact h₁

-- The whole run does not end for its depth.
theorem accounts_run (c : Context) (scope : Scope) (r : Run) :
    Ensures (run c scope) r (fun _ r' => Logs c r r') fun e r' => Logs c r r' ∧ Blamed c r'.events e := by
  have hroot : Ensures (walkRoot c scope) r (fun _ r' => Logs c r r')
      fun e r' => Logs c r r' ∧ Blamed c r'.events e := by
    unfold walkRoot
    rw [ensures_tryCatch]
    refine (accounts_walk c _ scope [] _ r).mono (fun _ _ h => h) fun e r' h => ?_
    split
    · exact (tame_limit _ r').mono (fun _ _ hq => h.1.trans hq.logs) fun _ _ hfalse => hfalse.elim
    next hother => exact ensures_throw.mpr ⟨h.1, h.2.resolve_left hother⟩
  unfold run
  rw [ensures_bind]
  refine hroot.mono (fun _ r' h => ?_) fun _ _ h => h
  exact (tame_end scope r').mono (fun _ _ hq => h.trans hq.logs) fun _ _ hfalse => hfalse.elim

section Call

variable {s : Store} {q : Request} {e : Failure ResolutionError}

theorem refuses_or_blamed (h : (references s q).result = .error e) :
    q.Refuses e ∨ Blamed q.context (references s q).events e := by
  refine (refuses_or_runs h).imp_right fun hrun => ?_
  have hends := accounts_run q.context q.scope (startRun s q.document q.scope)
  rw [hrun] at h ⊢
  unfold Request.ending at h ⊢
  rcases hend : (run q.context q.scope).run.run (startRun s q.document q.scope) with ⟨e' | a, r⟩
  · rw [hend] at h
    obtain rfl : e' = e := Except.error.inj h
    exact ((ensures_of_error hend).mp hends).2
  · rw [hend] at h
    cases h

theorem traced_references (s : Store) (q : Request) : Traced q.context (references s q).events := by
  have hnone : Traced q.context (startRun s q.document q.scope).events := nofun
  rcases references_cases s q with ⟨e, hidle, -⟩ | hrun
  · rw [hidle]
    exact nofun
  · have hends := accounts_run q.context q.scope (startRun s q.document q.scope)
    have hlogs := Ensures.state (hends.mono (fun _ _ h => h) fun _ _ h => h.1)
    rw [hrun]
    dsimp only [Outcome.of, Request.ending]
    exact hlogs.traced hnone

end Call

end ApiGraph.Resolve
