namespace ApiGraph

section Ensures

variable {ε σ α β : Type}

-- Run from the state, the program returns a value as in `Q` or fails as in `E`.
def Ensures (x : ExceptT ε (StateM σ) α) (s : σ) (Q : α → σ → Prop) (E : ε → σ → Prop) : Prop :=
  match x.run.run s with
  | (.ok a, s') => Q a s'
  | (.error e, s') => E e s'

variable {x : ExceptT ε (StateM σ) α} {s : σ} {Q R : α → σ → Prop} {E F : ε → σ → Prop}

theorem ensures_of_ok {a : α} {s' : σ} (h : x.run.run s = (.ok a, s')) :
    Ensures x s Q E ↔ Q a s' := by
  unfold Ensures
  rw [h]

theorem ensures_of_error {e : ε} {s' : σ} (h : x.run.run s = (.error e, s')) :
    Ensures x s Q E ↔ E e s' := by
  unfold Ensures
  rw [h]

theorem ensures_congr {y : ExceptT ε (StateM σ) α} {s' : σ} (h : x.run.run s = y.run.run s') :
    Ensures x s Q E ↔ Ensures y s' Q E := by
  unfold Ensures
  rw [h]

-- What holds however the program ends.
theorem Ensures.state {P : σ → Prop} (h : Ensures x s (fun _ => P) fun _ => P) :
    P (x.run.run s).2 := by
  rcases hx : x.run.run s with ⟨e | a, s'⟩
  · exact (ensures_of_error hx).mp h
  · exact (ensures_of_ok hx).mp h

theorem Ensures.mono (h : Ensures x s Q E) (hQ : ∀ a s', Q a s' → R a s')
    (hE : ∀ e s', E e s' → F e s') : Ensures x s R F := by
  rcases hx : x.run.run s with ⟨e | a, s'⟩
  · exact (ensures_of_error hx).mpr (hE _ _ ((ensures_of_error hx).mp h))
  · exact (ensures_of_ok hx).mpr (hQ _ _ ((ensures_of_ok hx).mp h))

theorem Ensures.and (h : Ensures x s Q E) (h' : Ensures x s R F) :
    Ensures x s (fun a s' => Q a s' ∧ R a s') fun e s' => E e s' ∧ F e s' := by
  rcases hx : x.run.run s with ⟨e | a, s'⟩
  · exact (ensures_of_error hx).mpr ⟨(ensures_of_error hx).mp h, (ensures_of_error hx).mp h'⟩
  · exact (ensures_of_ok hx).mpr ⟨(ensures_of_ok hx).mp h, (ensures_of_ok hx).mp h'⟩

@[simp] theorem ensures_pure {a : α} : Ensures (pure a) s Q E ↔ Q a s := Iff.rfl

@[simp] theorem ensures_throw {e : ε} : Ensures (throw e) s Q E ↔ E e s := Iff.rfl

@[simp] theorem ensures_get {Q : σ → σ → Prop} :
    Ensures (get : ExceptT ε (StateM σ) σ) s Q E ↔ Q s s := Iff.rfl

@[simp] theorem ensures_set {Q : PUnit → σ → Prop} {s' : σ} :
    Ensures (set s' : ExceptT ε (StateM σ) PUnit) s Q E ↔ Q ⟨⟩ s' := Iff.rfl

@[simp] theorem ensures_modify {Q : PUnit → σ → Prop} {f : σ → σ} :
    Ensures (modify f : ExceptT ε (StateM σ) PUnit) s Q E ↔ Q ⟨⟩ (f s) := Iff.rfl

-- What does not touch the state.
theorem ensures_lift {r : Except ε α} (hQ : ∀ a, r = .ok a → Q a s) (hE : ∀ e, r = .error e → E e s) :
    Ensures (liftM r : ExceptT ε (StateM σ) α) s Q E := by
  cases r with
  | error e => exact hE e rfl
  | ok a => exact hQ a rfl

@[simp] theorem ensures_bind {f : α → ExceptT ε (StateM σ) β} {Q : β → σ → Prop} :
    Ensures (x >>= f) s Q E ↔ Ensures x s (fun a s' => Ensures (f a) s' Q E) E := by
  have h : (x >>= f).run.run s =
      (fun p : Except ε α × σ => (ExceptT.bindCont f p.1).run p.2) (x.run.run s) := rfl
  rcases hx : x.run.run s with ⟨e | a, s'⟩
  · have hend : (x >>= f).run.run s = (.error e, s') := by
      rw [h, hx]
      rfl
    rw [ensures_of_error hx, ensures_of_error hend]
  · rw [ensures_of_ok hx]
    unfold Ensures
    rw [h, hx]
    rfl

@[simp] theorem ensures_map {f : α → β} {Q : β → σ → Prop} :
    Ensures (f <$> x) s Q E ↔ Ensures x s (fun a s' => Q (f a) s') E := by
  rw [map_eq_pure_bind]
  exact ensures_bind

@[simp] theorem ensures_discard {Q : PUnit → σ → Prop} :
    Ensures (discard x) s Q E ↔ Ensures x s (fun _ s' => Q ⟨⟩ s') E :=
  ensures_map

@[simp] theorem ensures_tryCatch {f : ε → ExceptT ε (StateM σ) α} :
    Ensures (tryCatch x f) s Q E ↔ Ensures x s Q fun e s' => Ensures (f e) s' Q E := by
  have h : (tryCatch x f).run.run s =
      (fun p : Except ε α × σ => match p with
        | (.ok a, s') => (.ok a, s')
        | (.error e, s') => (f e).run.run s') (x.run.run s) := by
    show (fun p : Except ε α × σ => (match p.1 with
      | .ok a => pure (.ok a)
      | .error e => (f e).run : StateM σ (Except ε α)).run p.2) (x.run.run s) = _
    rcases x.run.run s with ⟨e | a, s'⟩ <;> rfl
  rcases hx : x.run.run s with ⟨e | a, s'⟩
  · rw [ensures_of_error hx]
    unfold Ensures
    rw [h, hx]
  · have hend : (tryCatch x f).run.run s = (.ok a, s') := by rw [h, hx]
    rw [ensures_of_ok hx, ensures_of_ok hend]

@[simp] theorem ensures_ite {p : Prop} [Decidable p] {y : ExceptT ε (StateM σ) α} :
    Ensures (if p then x else y) s Q E ↔ if p then Ensures x s Q E else Ensures y s Q E := by
  split <;> rfl

-- A pass over a list keeps what holds between what is left of the list and the state.
theorem ensures_forM {l : List β} {f : β → ExceptT ε (StateM σ) PUnit} {I : List β → σ → Prop}
    (hs : I l s)
    (h : ∀ a rest s, I (a :: rest) s → Ensures (f a) s (fun _ s' => I rest s') E) :
    Ensures (l.forM f) s (fun _ s' => I [] s') E := by
  induction l generalizing s with
  | nil => exact hs
  | cons a rest ih =>
      show Ensures (f a >>= fun _ => rest.forM f) s _ _
      rw [ensures_bind]
      exact (h a rest s hs).mono (fun _ _ => ih) fun _ _ => id

-- The lemmas above are the only way in, so that no proof runs the program by unfolding.
attribute [irreducible] Ensures

end Ensures

section Gives

variable {ε σ α β : Type}

-- Where a failure loses the state, only what is returned is spoken of.
def Gives (x : StateT σ (Except ε) α) (s : σ) (Q : α → σ → Prop) : Prop :=
  ∀ a s', x.run s = .ok (a, s') → Q a s'

variable {x : StateT σ (Except ε) α} {s : σ} {Q R : α → σ → Prop}

theorem Gives.mono (h : Gives x s Q) (hQ : ∀ a s', Q a s' → R a s') : Gives x s R :=
  fun a s' hx => hQ a s' (h a s' hx)

@[simp] theorem gives_pure {a : α} : Gives (pure a : StateT σ (Except ε) α) s Q ↔ Q a s := by
  refine ⟨fun h => h a s rfl, fun h a' s' hx => ?_⟩
  cases hx
  exact h

@[simp] theorem gives_throw {e : ε} : Gives (throw e : StateT σ (Except ε) α) s Q := by
  intro a s' hx
  cases hx

@[simp] theorem gives_get {Q : σ → σ → Prop} :
    Gives (get : StateT σ (Except ε) σ) s Q ↔ Q s s :=
  gives_pure (ε := ε) (a := s)

@[simp] theorem gives_set {Q : PUnit → σ → Prop} {s' : σ} :
    Gives (set s' : StateT σ (Except ε) PUnit) s Q ↔ Q ⟨⟩ s' :=
  gives_pure (ε := ε) (a := PUnit.unit) (s := s')

@[simp] theorem gives_modifyGet {f : σ → α × σ} :
    Gives (modifyGet f : StateT σ (Except ε) α) s Q ↔ Q (f s).1 (f s).2 :=
  gives_pure (ε := ε) (a := (f s).1) (s := (f s).2)

@[simp] theorem gives_modify {Q : PUnit → σ → Prop} {f : σ → σ} :
    Gives (modify f : StateT σ (Except ε) PUnit) s Q ↔ Q ⟨⟩ (f s) :=
  gives_modifyGet

@[simp] theorem gives_bind {f : α → StateT σ (Except ε) β} {Q : β → σ → Prop} :
    Gives (x >>= f) s Q ↔ Gives x s fun a s' => Gives (f a) s' Q := by
  have hrun : (x >>= f).run s = (x.run s) >>= fun p => (f p.1).run p.2 := rfl
  constructor
  · intro h a s' hx b s'' hf
    refine h b s'' ?_
    rw [hrun, hx]
    exact hf
  · intro h b s'' hx
    rw [hrun] at hx
    cases hr : x.run s with
    | error e =>
        rw [hr] at hx
        cases hx
    | ok p =>
        rw [hr] at hx
        exact h p.1 p.2 hr b s'' hx

@[simp] theorem gives_map {f : α → β} {Q : β → σ → Prop} :
    Gives (f <$> x) s Q ↔ Gives x s fun a s' => Q (f a) s' := by
  rw [map_eq_pure_bind, gives_bind]
  simp

end Gives

section Ends

variable {ε σ α β : Type}

-- What is returned, or else what is thrown.
def Ends (x : StateT σ (Except ε) α) (s : σ) (Q : α → σ → Prop) (E : ε → Prop) : Prop :=
  match x.run s with
  | .ok (a, s') => Q a s'
  | .error e => E e

variable {x : StateT σ (Except ε) α} {s : σ} {Q R : α → σ → Prop} {E F : ε → Prop}

theorem ends_of_ok {a : α} {s' : σ} (h : x.run s = .ok (a, s')) : Ends x s Q E ↔ Q a s' := by
  unfold Ends
  rw [h]

theorem ends_of_error {e : ε} (h : x.run s = .error e) : Ends x s Q E ↔ E e := by
  unfold Ends
  rw [h]

theorem Ends.mono (h : Ends x s Q E) (hQ : ∀ a s', Q a s' → R a s') (hE : ∀ e, E e → F e) :
    Ends x s R F := by
  rcases hx : x.run s with e | ⟨a, s'⟩
  · exact (ends_of_error hx).mpr (hE _ ((ends_of_error hx).mp h))
  · exact (ends_of_ok hx).mpr (hQ _ _ ((ends_of_ok hx).mp h))

@[simp] theorem ends_pure {a : α} : Ends (pure a : StateT σ (Except ε) α) s Q E ↔ Q a s := Iff.rfl

@[simp] theorem ends_throw {e : ε} : Ends (throw e : StateT σ (Except ε) α) s Q E ↔ E e := Iff.rfl

@[simp] theorem ends_get {Q : σ → σ → Prop} :
    Ends (get : StateT σ (Except ε) σ) s Q E ↔ Q s s := Iff.rfl

@[simp] theorem ends_modify {Q : PUnit → σ → Prop} {f : σ → σ} :
    Ends (modify f : StateT σ (Except ε) PUnit) s Q E ↔ Q ⟨⟩ (f s) := Iff.rfl

-- What does not touch the state.
theorem ends_lift {r : Except ε α} (hQ : ∀ a, r = .ok a → Q a s) (hE : ∀ e, r = .error e → E e) :
    Ends (liftM r : StateT σ (Except ε) α) s Q E := by
  cases r with
  | error e => exact hE e rfl
  | ok a => exact hQ a rfl

@[simp] theorem ends_bind {f : α → StateT σ (Except ε) β} {Q : β → σ → Prop} :
    Ends (x >>= f) s Q E ↔ Ends x s (fun a s' => Ends (f a) s' Q E) E := by
  have hrun : (x >>= f).run s = (x.run s) >>= fun p => (f p.1).run p.2 := rfl
  rcases hx : x.run s with e | ⟨a, s'⟩
  · have hend : (x >>= f).run s = .error e := by
      rw [hrun, hx]
      rfl
    rw [ends_of_error hx, ends_of_error hend]
  · rw [ends_of_ok hx]
    unfold Ends
    rw [hrun, hx]
    rfl

-- A pass over a list keeps what holds between the list, what is left of it and the state.
theorem ends_forM {l : List β} {f : β → StateT σ (Except ε) PUnit} {I : List β → σ → Prop} (hs : I l s)
    (h : ∀ a rest s, I (a :: rest) s → Ends (f a) s (fun _ s' => I rest s') E) :
    Ends (l.forM f) s (fun _ s' => I [] s') E := by
  induction l generalizing s with
  | nil => exact hs
  | cons a rest ih =>
      show Ends (f a >>= fun _ => rest.forM f) s _ _
      rw [ends_bind]
      exact (h a rest s hs).mono (fun _ _ => ih) fun _ => id

end Ends

section Confined

variable {ε σ α β : Type}

-- From every state as in `I` the program ends in such a state, or it fails as in `E`.
def Confined (I : σ → Prop) (E : ε → Prop) (x : StateT σ (Except ε) α) : Prop :=
  ∀ s, I s → Ends x s (fun _ => I) E

variable {I : σ → Prop} {E : ε → Prop} {x : StateT σ (Except ε) α}

theorem confined_pure (a : α) : Confined I E (pure a : StateT σ (Except ε) α) :=
  fun _ hs => ends_pure.mpr hs

theorem confined_throw {e : ε} (he : E e) : Confined I E (throw e : StateT σ (Except ε) α) :=
  fun _ _ => ends_throw.mpr he

theorem confined_modify {f : σ → σ} (hf : ∀ s, I s → I (f s)) :
    Confined I E (modify f : StateT σ (Except ε) PUnit) := fun s hs => ends_modify.mpr (hf s hs)

theorem Confined.bind {f : α → StateT σ (Except ε) β} (hx : Confined I E x)
    (hf : ∀ a, Confined I E (f a)) : Confined I E (x >>= f) := by
  intro s hs
  rw [ends_bind]
  exact (hx s hs).mono (fun a s' hs' => hf a s' hs') fun _ => id

theorem confined_get_bind {f : σ → StateT σ (Except ε) β} (hf : ∀ s, I s → Ends (f s) s (fun _ => I) E) :
    Confined I E (get >>= f) := by
  intro s hs
  rw [ends_bind, ends_get]
  exact hf s hs

theorem confined_get : Confined I E (get : StateT σ (Except ε) σ) := fun _ hs => ends_get.mpr hs

theorem confined_throw_bind {f : α → StateT σ (Except ε) β} {e : ε} (he : E e) :
    Confined I E ((throw e : StateT σ (Except ε) α) >>= f) := by
  intro s _
  rw [ends_bind, ends_throw]
  exact he

-- What does not touch the state.
theorem confined_lift_bind {r : Except ε β} {f : β → StateT σ (Except ε) α} (he : ∀ e, r = .error e → E e)
    (hf : ∀ b, r = .ok b → Confined I E (f b)) : Confined I E ((liftM r : StateT σ (Except ε) β) >>= f) := by
  intro s hs
  rw [ends_bind]
  exact ends_lift (fun b hb => hf b hb s hs) he

-- A step that is taken only sometimes.
theorem Confined.when {p : Prop} [Decidable p] {x : StateT σ (Except ε) PUnit}
    {y : StateT σ (Except ε) α} (hx : Confined I E x) (hy : Confined I E y) : Confined I E (do
      if p then x
      y) := by
  split
  · exact hx.bind fun _ => hy
  · exact hy

theorem Confined.discard (hx : Confined I E x) : Confined I E (discard x) :=
  hx.bind fun _ => confined_pure _

theorem confined_mapM {f : β → StateT σ (Except ε) α} (hf : ∀ b, Confined I E (f b)) (l : List β) :
    Confined I E (l.mapM f) := by
  induction l with
  | nil =>
      rw [List.mapM_nil]
      exact confined_pure []
  | cons b rest ih =>
      rw [List.mapM_cons]
      exact (hf b).bind fun _ => ih.bind fun _ => confined_pure _

theorem confined_forM {f : β → StateT σ (Except ε) PUnit} (hf : ∀ b, Confined I E (f b)) (l : List β) :
    Confined I E (l.forM f) := fun _ hs =>
  ends_forM (I := fun _ => I) hs fun b _ s => hf b s

end Confined

section Within

variable {ε σ α β : Type}

-- The same for a program whose failure keeps the state: the state is not spoken of there.
def Leaves (x : EStateM ε σ α) (s : σ) (Q : α → σ → Prop) (E : ε → Prop) : Prop :=
  match x.run s with
  | .ok a s' => Q a s'
  | .error e _ => E e

def Within (I : σ → Prop) (E : ε → Prop) (x : EStateM ε σ α) : Prop :=
  ∀ s, I s → Leaves x s (fun _ => I) E

variable {I : σ → Prop} {E F : ε → Prop} {x : EStateM ε σ α} {s : σ} {Q R : α → σ → Prop}

theorem leaves_of_ok {a : α} {s' : σ} (h : x.run s = .ok a s') : Leaves x s Q E ↔ Q a s' := by
  unfold Leaves
  rw [h]

theorem leaves_of_error {e : ε} {s' : σ} (h : x.run s = .error e s') : Leaves x s Q E ↔ E e := by
  unfold Leaves
  rw [h]

theorem Leaves.mono (h : Leaves x s Q E) (hQ : ∀ a s', Q a s' → R a s') (hE : ∀ e, E e → F e) :
    Leaves x s R F := by
  cases hx : x.run s with
  | ok a s' => exact (leaves_of_ok hx).mpr (hQ _ _ ((leaves_of_ok hx).mp h))
  | error e s' => exact (leaves_of_error hx).mpr (hE _ ((leaves_of_error hx).mp h))

@[simp] theorem leaves_pure {a : α} : Leaves (pure a : EStateM ε σ α) s Q E ↔ Q a s := Iff.rfl

@[simp] theorem leaves_throw {e : ε} : Leaves (throw e : EStateM ε σ α) s Q E ↔ E e := Iff.rfl

@[simp] theorem leaves_get {Q : σ → σ → Prop} :
    Leaves (get : EStateM ε σ σ) s Q E ↔ Q s s := Iff.rfl

@[simp] theorem leaves_set {Q : PUnit → σ → Prop} {s' : σ} :
    Leaves (set s' : EStateM ε σ PUnit) s Q E ↔ Q ⟨⟩ s' := Iff.rfl

@[simp] theorem leaves_modify {Q : PUnit → σ → Prop} {f : σ → σ} :
    Leaves (modify f : EStateM ε σ PUnit) s Q E ↔ Q ⟨⟩ (f s) := Iff.rfl

@[simp] theorem leaves_bind {f : α → EStateM ε σ β} {Q : β → σ → Prop} :
    Leaves (x >>= f) s Q E ↔ Leaves x s (fun a s' => Leaves (f a) s' Q E) E := by
  cases hx : x.run s with
  | error e s' =>
      have hend : (x >>= f).run s = .error e s' := by
        show EStateM.bind x f s = _
        unfold EStateM.bind
        rw [show x s = _ from hx]
      rw [leaves_of_error hx, leaves_of_error hend]
  | ok a s' =>
      have hrun : (x >>= f).run s = (f a).run s' := by
        show EStateM.bind x f s = _
        unfold EStateM.bind
        rw [show x s = _ from hx]
        rfl
      rw [leaves_of_ok hx]
      unfold Leaves
      rw [hrun]

theorem within_pure (a : α) : Within I E (pure a : EStateM ε σ α) := fun _ hs => leaves_pure.mpr hs

theorem within_throw {e : ε} (he : E e) : Within I E (throw e : EStateM ε σ α) :=
  fun _ _ => leaves_throw.mpr he

theorem within_get : Within I E (get : EStateM ε σ σ) := fun _ hs => leaves_get.mpr hs

theorem within_modify {f : σ → σ} (hf : ∀ s, I s → I (f s)) :
    Within I E (modify f : EStateM ε σ PUnit) := fun s hs => leaves_modify.mpr (hf s hs)

theorem Within.bind {f : α → EStateM ε σ β} (hx : Within I E x) (hf : ∀ a, Within I E (f a)) :
    Within I E (x >>= f) := by
  intro s hs
  rw [leaves_bind]
  exact (hx s hs).mono (fun a s' hs' => hf a s' hs') fun _ => id

theorem Within.when {p : Prop} [Decidable p] {x : EStateM ε σ PUnit} {y : EStateM ε σ α}
    (hx : Within I E x) (hy : Within I E y) : Within I E (do
      if p then x
      y) := by
  split
  · exact hx.bind fun _ => hy
  · exact hy

theorem Within.discard (hx : Within I E x) : Within I E (discard x) :=
  hx.bind fun _ => within_pure _

end Within

end ApiGraph
