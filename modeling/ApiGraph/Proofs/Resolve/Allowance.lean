import ApiGraph.Proofs.Alike
import ApiGraph.Proofs.Resolve.Budget
import ApiGraph.Proofs.Resolve.WalkRecording

namespace ApiGraph.Resolve

section Same

variable {α β : Type} {n : Nat}

-- The programs do the same from wherever that many containers were counted, and count no less.
def SameFrom (n : Nat) (x y : ResolveM α) : Prop :=
  ∀ r : Run, n ≤ r.walked → RunsAlike (fun t t' => t = t' ∧ n ≤ t.walked) x y r r

theorem KeepsRun.sameFrom {x : ResolveM α} (h : KeepsRun (fun r => n ≤ r.walked) x) :
    SameFrom n x x :=
  fun r hr => ⟨rfl, rfl, (h r hr).state⟩

theorem SameFrom.bind {x y : ResolveM α} {f g : α → ResolveM β} (h : SameFrom n x y)
    (hf : ∀ a, SameFrom n (f a) (g a)) : SameFrom n (x >>= f) (y >>= g) := by
  intro r hr
  refine (h r hr).bind fun a t t' ht => ?_
  obtain ⟨rfl, hn⟩ := ht
  exact hf a t hn

theorem SameFrom.get_bind {f g : Run → ResolveM β} (hf : ∀ r, SameFrom n (f r) (g r)) :
    SameFrom n (get >>= f) (get >>= g) :=
  fun r hr => runsAlike_get_bind (hf r r hr)

theorem SameFrom.getStore_bind {f g : Store → ResolveM β} (hf : ∀ s, SameFrom n (f s) (g s)) :
    SameFrom n (getStore >>= f) (getStore >>= g) :=
  fun r hr => hf r.store r hr

theorem SameFrom.forM {f g : β → ResolveM Unit} (h : ∀ b, SameFrom n (f b) (g b)) (l : List β) :
    SameFrom n (l.forM f) (l.forM g) := by
  intro r hr
  refine runsAlike_forM (L := Eq) (List.forall₂_same.mpr fun _ _ => rfl) (fun b b' t t' ht hb => ?_)
    ⟨rfl, hr⟩
  obtain ⟨rfl, hn⟩ := ht
  exact hb ▸ h b t hn

theorem SameFrom.tryCatch {x y : ResolveM α} {f : Failure ResolutionError → ResolveM α}
    (h : SameFrom n x y) (hf : ∀ e, SameFrom n (f e) (f e)) :
    SameFrom n (tryCatch x f) (tryCatch y f) := by
  intro r hr
  refine (h r hr).tryCatch fun e t t' ht => ?_
  obtain ⟨rfl, hn⟩ := ht
  exact hf e t hn

theorem SameFrom.mono {m : Nat} {x y : ResolveM α} {r : Run} (h : SameFrom n x y) (hr : n ≤ r.walked)
    (hm : m ≤ n) : RunsAlike (fun t t' => t = t' ∧ m ≤ t.walked) x y r r := by
  obtain ⟨hresult, hstate, hwalked⟩ := h r hr
  exact ⟨hresult, hstate, Nat.le_trans hm hwalked⟩

end Same

theorem same_locate {n : Nat} (c : Context) (scope : Scope) (node : NodeId) (ref : String) :
    SameFrom n (locate c scope node ref) (locate c scope node ref) := by
  refine KeepsRun.sameFrom ((keepsRun_report (steady_walked n) rfl rfl rfl).bind fun _ => ?_)
  split
  · exact keepsRun_pure _
  · exact keepsRun_fail _

theorem counts_takeWalked {n : Nat} (c : Context) (node target : NodeId) (ref : String)
    (name : Option String) : KeepsRun (fun r => n ≤ r.walked) (takeWalked c node target ref name) := by
  have hcounts := steady_walked n
  refine .getStore_bind fun s => ?_
  dsimp only
  split
  · exact (keepsRun_markCircular hcounts (fun _ h => h) _).bind fun _ => keepsRun_pure _
  · exact fun _ => ensures_takeContent_of_steady hcounts hcounts (fun _ h => h) c _

section Walk

variable {c : Context} {n : Nat} {walk walk' : Walker}
  (hw : ∀ scope chain v, SameFrom n (walk scope chain v) (walk' scope chain v))
include hw

theorem same_load (chain : Chain) (l : Location) (key : String) :
    SameFrom n (load c walk chain l key) (load c walk' chain l key) := by
  have hcounts := steady_walked n
  unfold load
  refine .get_bind fun r => ?_
  split
  · exact (keepsRun_pure _).sameFrom
  · refine .getStore_bind fun s => ?_
    split
    · exact (keepsRun_fail _).sameFrom
    · exact (keepsRun_throw _).sameFrom
    · refine SameFrom.bind (KeepsRun.sameFrom fun r h => ensures_modify.mpr h) fun _ => ?_
      refine SameFrom.bind (KeepsRun.sameFrom fun r h => ensures_report.mpr h) fun _ => ?_
      exact (hw _ _ _).bind fun _ => (keepsRun_pure _).sameFrom

theorem same_inlineTarget (chain : Chain) (node : NodeId) (ref key : String) (l : Location)
    (path : List String) (name : Option String) :
    SameFrom n (inlineTarget c walk chain node ref key l path name)
      (inlineTarget c walk' chain node ref key l path name) := by
  unfold inlineTarget
  refine (same_load hw chain l key).bind fun external => ?_
  refine (keepsRun_targetOf c external path ref).sameFrom.bind fun v => ?_
  split
  · have hwalked (id : NodeId) : SameFrom n (do
        walk (scopeOf c external key l) chain (.node id)
        takeWalked c node id ref name) (do
        walk' (scopeOf c external key l) chain (.node id)
        takeWalked c node id ref name) :=
      (hw _ _ _).bind fun _ => (counts_takeWalked c _ _ _ _).sameFrom
    unfold inlineMapping
    refine .getStore_bind fun s => ?_
    split
    · exact (keepsRun_fail _).sameFrom.bind fun _ => hwalked _
    · exact hwalked _
  · exact (keepsRun_fail _).sameFrom

theorem same_inlineExternal (scope : Scope) (chain : Chain) (node : NodeId) (ref : String) :
    SameFrom n (inlineExternal c walk scope chain node ref)
      (inlineExternal c walk' scope chain node ref) := by
  have hcounts := steady_walked n
  unfold inlineExternal
  dsimp only
  split
  · exact ((keepsRun_limit hcounts (by simp)).bind fun _ => keepsRun_pure _).sameFrom
  · refine (same_locate c scope node ref).bind fun l => ?_
    split
    · exact ((keepsRun_markCircular hcounts (fun _ h => h) _).bind fun _ => keepsRun_pure _).sameFrom
    · have hinner := same_inlineTarget (c := c) hw
      refine SameFrom.bind (.tryCatch (hinner _ _ _ _ _ _ _) fun e => ?_) fun own => ?_
      · split
        · exact ((keepsRun_limit hcounts (by simp)).bind fun _ => keepsRun_pure _).sameFrom
        · exact (keepsRun_throw _).sameFrom
      · split
        · exact .forM (fun v => hw scope chain v) _
        · exact (keepsRun_pure _).sameFrom

theorem same_walkMapping (scope : Scope) (chain : Chain) (id : NodeId) (m : Entries) :
    SameFrom n (walkMapping c walk scope chain id m) (walkMapping c walk' scope chain id m) := by
  have hvalues : SameFrom n (do
      visit id
      ((← getStore).entries id).values.forM (walk scope chain)) (do
      visit id
      ((← getStore).entries id).values.forM (walk' scope chain)) := by
    refine SameFrom.bind (KeepsRun.sameFrom fun r h => ensures_visit.mpr h) fun _ => ?_
    exact .getStore_bind fun s => .forM (fun v => hw scope chain v) _
  unfold walkMapping
  refine .getStore_bind fun s => ?_
  dsimp only
  split
  · exact same_inlineExternal hw scope chain id _
  · split
    · exact (keepsRun_noteInternal (steady_walked n) c scope _).sameFrom.bind fun _ => hvalues
    · exact hvalues

end Walk

-- What a container is counted for happens with one more counted, and only within the bound.
theorem SameFrom.counted {c : Context} {n : Nat} {x y : ResolveM Unit} {r : Run} (scope : Scope)
    (hr : n ≤ r.walked)
    (h : ((n + 1 : Nat) : Int) ≤ c.settings.maxNodes → SameFrom (n + 1) x y) :
    RunsAlike (fun t t' => t = t' ∧ n ≤ t.walked)
      (do if ← countNode c scope then x) (do if ← countNode c scope then y) r r := by
  have hcount : Ensures (countNode c scope) r
      (fun counted r' => r'.walked = r.walked + 1 ∧
        (counted = true → (r'.walked : Int) ≤ c.settings.maxNodes)) fun _ _ => False := by
    unfold countNode
    simp only [ensures_bind, ensures_modify, ensures_get]
    split
    next hbound => exact ensures_pure.mpr ⟨rfl, fun _ => hbound⟩
    next =>
      split
      · simp [ensures_limit]
      · simp
  have hsame : SameFrom n (countNode c scope) (countNode c scope) := by
    refine KeepsRun.sameFrom fun t ht => ?_
    unfold countNode
    simp only [ensures_bind, ensures_modify, ensures_get]
    split
    · exact ensures_pure.mpr (by dsimp only; omega)
    · split
      · simp only [ensures_bind, ensures_set, ensures_limit, ensures_pure]
        omega
      · exact ensures_pure.mpr (by dsimp only; omega)
  refine (hsame r hr).bind_of_ensures hcount fun counted t t' ht hq => ?_
  obtain ⟨rfl, hn⟩ := ht
  obtain ⟨hwalked, hbound⟩ := hq
  split
  next hc =>
    have hle := hbound hc
    exact (h (by omega)).mono (by omega) (by omega)
  next => exact runsAlike_pure ⟨rfl, hn⟩ _

-- With one container more counted there is one walk less to come.
theorem same_walk (c : Context) {n allowance allowance' : Nat} (hpos : 0 < allowance)
    (h : c.settings.maxNodes < ((n + allowance : Nat) : Int)) (hpos' : 0 < allowance')
    (h' : c.settings.maxNodes < ((n + allowance' : Nat) : Int)) (scope : Scope) (chain : Chain)
    (v : Value) : SameFrom n (walk c allowance scope chain v) (walk c allowance' scope chain v) := by
  induction allowance generalizing n allowance' scope chain v with
  | zero => omega
  | succ allowance ih =>
      obtain ⟨allowance', rfl⟩ := Nat.exists_eq_succ_of_ne_zero (Nat.ne_of_gt hpos')
      have hnext (hn : ((n + 1 : Nat) : Int) ≤ c.settings.maxNodes) (scope : Scope) (chain : Chain)
          (v : Value) : SameFrom (n + 1) (walk c allowance scope chain v)
            (walk c allowance' scope chain v) :=
        ih (by omega) (by omega) (by omega) (by omega) scope chain v
      intro r hr
      unfold walk
      split
      next id =>
        refine runsAlike_get_bind ?_
        split
        next container hget =>
          split
          · exact runsAlike_pure ⟨rfl, hr⟩ _
          · split
            · exact runsAlike_pure ⟨rfl, hr⟩ _
            · refine SameFrom.counted scope hr fun hn => ?_
              refine SameFrom.bind (KeepsRun.sameFrom fun r h => ensures_visit.mpr h) fun _ => ?_
              exact .forM (fun v => hnext hn scope chain v) _
            · exact SameFrom.counted scope hr fun hn => same_walkMapping (hnext hn) scope chain id _
        next => exact runsAlike_pure ⟨rfl, hr⟩ _
      next => exact runsAlike_pure ⟨rfl, hr⟩ _

end ApiGraph.Resolve
