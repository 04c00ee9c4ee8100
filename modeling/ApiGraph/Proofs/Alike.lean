import ApiGraph.Proofs.Ensures
import Mathlib.Data.List.Forall2

namespace ApiGraph

section RunsAlike

variable {ε σ σ' α β γ γ' : Type}

-- The programs do the same from states that correspond: the same value or the same failure, and
-- states that correspond again.
def RunsAlike (R : σ → σ' → Prop) (x : ExceptT ε (StateM σ) α) (y : ExceptT ε (StateM σ') α)
    (s : σ) (s' : σ') : Prop :=
  (x.run.run s).1 = (y.run.run s').1 ∧ R (x.run.run s).2 (y.run.run s').2

variable {R : σ → σ' → Prop} {x : ExceptT ε (StateM σ) α} {y : ExceptT ε (StateM σ') α}
  {f : α → ExceptT ε (StateM σ) β} {g : α → ExceptT ε (StateM σ') β} {s : σ} {s' : σ'}

theorem runsAlike_pure (h : R s s') (a : α) :
    RunsAlike R (pure a : ExceptT ε (StateM σ) α) (pure a) s s' := ⟨rfl, h⟩

theorem runsAlike_throw (h : R s s') (e : ε) :
    RunsAlike R (throw e : ExceptT ε (StateM σ) α) (throw e) s s' := ⟨rfl, h⟩

theorem runsAlike_modify {u : σ → σ} {u' : σ' → σ'} (h : R (u s) (u' s')) :
    RunsAlike R (modify u : ExceptT ε (StateM σ) PUnit) (modify u') s s' := ⟨rfl, h⟩

theorem run_bind (x : ExceptT ε (StateM σ) α) (f : α → ExceptT ε (StateM σ) β) (s : σ) :
    (x >>= f).run.run s = (ExceptT.bindCont f (x.run.run s).1).run (x.run.run s).2 := rfl

theorem run_tryCatch (x : ExceptT ε (StateM σ) α) (r : ε → ExceptT ε (StateM σ) α) (s : σ) :
    (tryCatch x r).run.run s = (match (x.run.run s).1 with
      | .ok a => pure (.ok a)
      | .error e => (r e).run : StateM σ (Except ε α)).run (x.run.run s).2 := rfl

theorem run_get_bind (f : σ → ExceptT ε (StateM σ) β) (s : σ) :
    (get >>= f).run.run s = (f s).run.run s := rfl

-- What comes next may use what the first program ensures.
theorem RunsAlike.bind_of_ensures {Q : α → σ → Prop} {E : ε → σ → Prop} (h : RunsAlike R x y s s')
    (hx : Ensures x s Q E) (hf : ∀ a t t', R t t' → Q a t → RunsAlike R (f a) (g a) t t') :
    RunsAlike R (x >>= f) (y >>= g) s s' := by
  unfold RunsAlike at h ⊢
  rw [run_bind, run_bind]
  have hend : ∀ a t, x.run.run s = (.ok a, t) → Q a t := fun a t ha => (ensures_of_ok ha).mp hx
  generalize x.run.run s = p at h hend ⊢
  generalize y.run.run s' = p' at h ⊢
  obtain ⟨e | a, t⟩ := p
  all_goals
    obtain ⟨_, t'⟩ := p'
    obtain ⟨rfl, ht⟩ := h
  · exact ⟨rfl, ht⟩
  · exact hf a t t' ht (hend a t rfl)

theorem RunsAlike.bind (h : RunsAlike R x y s s')
    (hf : ∀ a t t', R t t' → RunsAlike R (f a) (g a) t t') :
    RunsAlike R (x >>= f) (y >>= g) s s' := by
  have hx : Ensures x s (fun _ _ => True) fun _ _ => True := by
    rcases hend : x.run.run s with ⟨e | a, t⟩
    · exact (ensures_of_error hend).mpr trivial
    · exact (ensures_of_ok hend).mpr trivial
  exact h.bind_of_ensures hx fun a t t' ht _ => hf a t t' ht

-- The second program has a step of its own first.
theorem RunsAlike.bind_right {y : ExceptT ε (StateM σ') γ} {g : γ → ExceptT ε (StateM σ') α} {a : γ}
    {t' : σ'} (hy : y.run.run s' = (.ok a, t')) (h : RunsAlike R x (g a) s t') :
    RunsAlike R x (y >>= g) s s' := by
  unfold RunsAlike at h ⊢
  rw [run_bind y, hy]
  exact h

-- The first program has one.
theorem RunsAlike.bind_left {x : ExceptT ε (StateM σ) γ} {f : γ → ExceptT ε (StateM σ) α} {a : γ}
    {t : σ} (hx : x.run.run s = (.ok a, t)) (h : RunsAlike R (f a) y t s') :
    RunsAlike R (x >>= f) y s s' := by
  unfold RunsAlike at h ⊢
  rw [run_bind x, hx]
  exact h

theorem runsAlike_get_bind {f : σ → ExceptT ε (StateM σ) β} {g : σ' → ExceptT ε (StateM σ') β}
    (h : RunsAlike R (f s) (g s') s s') : RunsAlike R (get >>= f) (get >>= g) s s' := h

theorem RunsAlike.discard (h : RunsAlike R x y s s') :
    RunsAlike R (Functor.discard x) (Functor.discard y) s s' := by
  show RunsAlike R ((fun _ => PUnit.unit) <$> x) ((fun _ => PUnit.unit) <$> y) s s'
  rw [map_eq_pure_bind, map_eq_pure_bind]
  exact h.bind fun _ _ _ ht => runsAlike_pure ht _

theorem RunsAlike.tryCatch {r : ε → ExceptT ε (StateM σ) α} {r' : ε → ExceptT ε (StateM σ') α}
    (h : RunsAlike R x y s s') (hr : ∀ e t t', R t t' → RunsAlike R (r e) (r' e) t t') :
    RunsAlike R (tryCatch x r) (tryCatch y r') s s' := by
  unfold RunsAlike at h ⊢
  rw [run_tryCatch, run_tryCatch]
  generalize x.run.run s = p at h ⊢
  generalize y.run.run s' = p' at h ⊢
  obtain ⟨e | a, t⟩ := p
  all_goals
    obtain ⟨_, t'⟩ := p'
    obtain ⟨rfl, ht⟩ := h
  · exact hr e t t' ht
  · exact ⟨rfl, ht⟩

theorem run_tryFinally {x : ExceptT ε (StateM σ) α} {z : ExceptT ε (StateM σ) β} {s t u : σ}
    {a : Except ε α} {b : β} (hx : x.run.run s = (a, t)) (hz : z.run.run t = (.ok b, u)) :
    (tryFinally x z).run.run s = (a, u) := by
  -- Only the two runs matter, so that each program may be one that just returns its run.
  let run (r : Except ε α × σ) (z : ExceptT ε (StateM σ) β) : Except ε α × σ :=
    ExceptT.run (tryFinally (ExceptT.mk fun _ => r : ExceptT ε (StateM σ) α) z) s
  have hrun : (tryFinally x z).run.run s = run (x.run.run s) z := rfl
  have hend : run (a, t) z = run (a, t) (ExceptT.mk fun _ => z.run.run t) := by
    cases a with
    | ok a => rfl
    | error e => rfl
  rw [hrun, hx, hend, hz]
  cases a with
  | ok a => rfl
  | error e => rfl

-- Something is done at the end of the first program, however it ends.
theorem RunsAlike.tryFinally {S : σ → σ' → Prop} {z : ExceptT ε (StateM σ) β}
    (h : RunsAlike R x y s s')
    (hz : ∀ t t', R t t' → ∃ b u, z.run.run t = (.ok b, u) ∧ S u t') :
    RunsAlike S (tryFinally x z) y s s' := by
  obtain ⟨hresult, hstate⟩ := h
  obtain ⟨b, u, hrun, hend⟩ := hz _ _ hstate
  unfold RunsAlike
  rw [run_tryFinally (Prod.eta _).symm hrun]
  exact ⟨hresult, hend⟩

theorem runsAlike_forM {L : γ → γ' → Prop} {l : List γ} {l' : List γ'}
    {f : γ → ExceptT ε (StateM σ) PUnit} {g : γ' → ExceptT ε (StateM σ') PUnit} (hl : List.Forall₂ L l l')
    (hf : ∀ a a' t t', R t t' → L a a' → RunsAlike R (f a) (g a') t t') (h : R s s') :
    RunsAlike R (l.forM f) (l'.forM g) s s' := by
  induction hl generalizing s s' with
  | nil => exact runsAlike_pure h _
  | cons ha _ ih => exact (hf _ _ s s' h ha).bind fun _ _ _ ht => ih ht

-- The second program returns whatever the first one returns.
def ReturnsAs (x y : ExceptT ε (StateM σ) α) : Prop :=
  ∀ s a s', x.run.run s = (.ok a, s') → y.run.run s = (.ok a, s')

theorem ReturnsAs.refl (x : ExceptT ε (StateM σ) α) : ReturnsAs x x := fun _ _ _ => id

theorem ReturnsAs.bind {x y : ExceptT ε (StateM σ) α} {f g : α → ExceptT ε (StateM σ) β}
    (h : ReturnsAs x y) (hf : ∀ a, ReturnsAs (f a) (g a)) : ReturnsAs (x >>= f) (y >>= g) := by
  intro s b s' hrun
  rw [run_bind] at hrun ⊢
  rcases hx : x.run.run s with ⟨e | a, t⟩
  · rw [hx] at hrun
    cases hrun
  · rw [hx] at hrun
    rw [h s a t hx]
    exact hf a t b s' hrun

end RunsAlike

section GivesAlike

variable {ε σ σ' α β γ γ' : Type}

inductive EndsAlike (R : σ → σ' → Prop) : Except ε (α × σ) → Except ε (α × σ') → Prop
  | ok {a : α} {s : σ} {s' : σ'} (h : R s s') : EndsAlike R (.ok (a, s)) (.ok (a, s'))
  | error (e : ε) : EndsAlike R (.error e) (.error e)

def GivesAlike (R : σ → σ' → Prop) (x : StateT σ (Except ε) α) (y : StateT σ' (Except ε) α)
    (s : σ) (s' : σ') : Prop :=
  EndsAlike R (x.run s) (y.run s')

variable {R : σ → σ' → Prop} {x : StateT σ (Except ε) α} {y : StateT σ' (Except ε) α}
  {f : α → StateT σ (Except ε) β} {g : α → StateT σ' (Except ε) β} {s : σ} {s' : σ'}

theorem givesAlike_pure (h : R s s') (a : α) :
    GivesAlike R (pure a : StateT σ (Except ε) α) (pure a) s s' := .ok h

theorem givesAlike_throw (e : ε) :
    GivesAlike R (throw e : StateT σ (Except ε) α) (throw e) s s' := .error e

theorem givesAlike_modify {u : σ → σ} {u' : σ' → σ'} (h : R (u s) (u' s')) :
    GivesAlike R (modify u : StateT σ (Except ε) PUnit) (modify u') s s' := .ok h

-- What does not touch the state.
theorem givesAlike_lift (h : R s s') (r : Except ε α) :
    GivesAlike R (liftM r : StateT σ (Except ε) α) (liftM r) s s' := by
  cases r with
  | error e => exact .error e
  | ok a => exact .ok h

theorem GivesAlike.ends (h : GivesAlike R x y s s') :
    (∃ e, x.run s = .error e ∧ y.run s' = .error e) ∨
      ∃ a t t', x.run s = .ok (a, t) ∧ y.run s' = .ok (a, t') ∧ R t t' := by
  unfold GivesAlike at h
  generalize x.run s = p at h ⊢
  generalize y.run s' = p' at h ⊢
  cases h with
  | error e => exact .inl ⟨e, rfl, rfl⟩
  | ok ht => exact .inr ⟨_, _, _, rfl, rfl, ht⟩

theorem GivesAlike.bind (h : GivesAlike R x y s s')
    (hf : ∀ a t t', R t t' → GivesAlike R (f a) (g a) t t') :
    GivesAlike R (x >>= f) (y >>= g) s s' := by
  have hrun {σ : Type} (x : StateT σ (Except ε) α) (f : α → StateT σ (Except ε) β) (s : σ) :
      (x >>= f).run s = (x.run s) >>= fun p => (f p.1).run p.2 := rfl
  unfold GivesAlike at h ⊢
  rw [hrun, hrun]
  generalize x.run s = p at h ⊢
  generalize y.run s' = p' at h ⊢
  cases h with
  | error e => exact .error e
  | ok ht => exact hf _ _ _ ht

theorem givesAlike_get_bind {f : σ → StateT σ (Except ε) β} {g : σ' → StateT σ' (Except ε) β}
    (h : GivesAlike R (f s) (g s') s s') : GivesAlike R (get >>= f) (get >>= g) s s' := h

theorem givesAlike_forM {L : γ → γ' → Prop} {l : List γ} {l' : List γ'}
    {f : γ → StateT σ (Except ε) PUnit} {g : γ' → StateT σ' (Except ε) PUnit} (hl : List.Forall₂ L l l')
    (hf : ∀ a a' t t', R t t' → L a a' → GivesAlike R (f a) (g a') t t') (h : R s s') :
    GivesAlike R (l.forM f) (l'.forM g) s s' := by
  induction hl generalizing s s' with
  | nil => exact givesAlike_pure h _
  | cons ha _ ih => exact (hf _ _ s s' h ha).bind fun _ _ _ ht => ih ht

end GivesAlike

end ApiGraph
