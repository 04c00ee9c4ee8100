import ApiGraph.Proofs.Resolve.Completeness

namespace ApiGraph.Resolve

open Store Reference

section Pending

variable {s s' s'' : Store} {m : Entries} {document : NodeId}

-- A reference that a walk resolves when it comes by.
def isPending (s : Store) (m : Entries) : Bool := ((pendingRef? s m).filter isExternal).isSome

theorem isPending_iff : isPending s m ↔ isExternalRef m ∧
    ∀ v, m.get? (.str circularRefKey) = some v → s.isTruthy v = false := by
  unfold isPending
  constructor
  · intro h
    obtain ⟨ref, hf⟩ := Option.isSome_iff_exists.mp h
    obtain ⟨href, hexternal⟩ := Option.filter_eq_some_iff.mp hf
    obtain ⟨hm, hmark⟩ := pendingRef?_eq_some href
    exact ⟨isExternalRef_iff.mpr ⟨ref, hm, hexternal⟩, hmark⟩
  · rintro ⟨hext, hmark⟩
    cases hf : (pendingRef? s m).filter isExternal with
    | none =>
        obtain ⟨v, hv, htruthy⟩ := truthy_of_not_pending hext hf
        rw [hmark v hv] at htruthy
        cases htruthy
    | some ref => rfl

-- No reference to resolve is left within reach of the document.
def Quiet (s : Store) (document : NodeId) : Prop :=
  ∀ id m, s.Reach document id → s.mapping? id = some m → isPending s m = false

-- A reference that was to be resolved is none any more, or it has got a mark.
structure Disturbed (s : Store) (document : NodeId) (s' : Store) (id : NodeId) (m m' : Entries) :
    Prop where
  size : s.nodes.size ≤ s'.nodes.size
  reach : s.Reach document id
  before : s.mapping? id = some m
  pending : isPending s m = true
  after : s'.mapping? id = some m'
  changed : isExternalRef m' = false ∨
    m'.get? (.str circularRefKey) = some (.scalar (.bool true)) ∨
      ∃ j : Nat, (s.nodes.size ≤ j ∧ j < s'.nodes.size) ∧ m'.get? (.str circularRefKey) = some (.node j)

def Changed (s : Store) (document : NodeId) (s' : Store) : Prop :=
  ∃ id m m', Disturbed s document s' id m m'

theorem Changed.mono (h : Changed s document s') (hk : Keeps s' s'') : Changed s document s'' := by
  obtain ⟨id, m, m', h⟩ := h
  obtain ⟨m'', hm''⟩ := hk.exists_mapping? h.after
  refine ⟨id, m, m'', Nat.le_trans h.size hk.size, h.reach, h.before, h.pending, hm'', ?_⟩
  have hstays {v : Value} (hv : m'.get? (.str circularRefKey) = some v) :=
    hk.value id m' m'' _ v h.after hm'' (by decide) hv
  rcases h.changed with hext | htrue | ⟨j, hj, hnode⟩
  · refine .inl (Bool.eq_false_iff.mpr fun hext'' => ?_)
    rw [isExternalRef_congr (hk.reference id m' m'' h.after hm'' hext''), hext] at hext''
    cases hext''
  · rcases hstays htrue with hv | ⟨-, hv⟩ | ⟨i, hi, hv, -⟩
    · exact .inr (.inl hv)
    · exact .inr (.inl hv)
    · exact .inr (.inr ⟨i, ⟨Nat.le_trans h.size hi.1, hi.2⟩, hv⟩)
  · rcases hstays hnode with hv | ⟨-, hv⟩ | ⟨i, hi, hv, -⟩
    · exact .inr (.inr ⟨j, ⟨hj.1, Nat.lt_of_lt_of_le hj.2 hk.size⟩, hv⟩)
    · exact .inr (.inl hv)
    · exact .inr (.inr ⟨i, ⟨Nat.le_trans h.size hi.1, hi.2⟩, hv⟩)

-- What was changed is not what it was.
theorem Changed.get?_ne (h : Changed s document s') :
    ∃ id, s.Reach document id ∧ s'.get? id ≠ s.get? id := by
  obtain ⟨id, m, m', h⟩ := h
  rcases Classical.em (s'.get? id = s.get? id) with hsame | hne
  case inr => exact ⟨id, h.reach, hne⟩
  have hm : m' = m := by
    have hafter := mapping?_eq_some.mp h.after
    rw [hsame, mapping?_eq_some.mp h.before] at hafter
    cases hafter
    rfl
  obtain ⟨hext, hmark⟩ := isPending_iff.mp h.pending
  have hchanged := h.changed
  rw [hm] at hchanged
  rcases hchanged with hnone | htrue | ⟨j, hj, hnode⟩
  · rw [hnone] at hext
    cases hext
  · exact absurd (hmark _ htrue) (by simp [Store.isTruthy, Scalar.isTruthy])
  · -- The mark names nothing in the one store, and something in the other.
    refine ⟨j, h.reach.step ((mem_children_iff h.before).mpr ⟨_, hnode⟩), ?_⟩
    rw [get?_eq_none hj.1, get?, Array.getElem?_eq_getElem hj.2]
    exact Option.some_ne_none _

end Pending

section Touch

variable {c : Context} {s : Store} {r : Run} {walk : Walker} {id : NodeId} {m : Entries}
  {ref : String} {name : Option String} {chain : Chain}

-- The reference to resolve that a run met, from the document as the run found it.
structure Meets (c : Context) (s : Store) (r : Run) (id : NodeId) (m : Entries) : Prop where
  keeps : Keeps s r.store
  root : HasRoot c r
  reach : s.Reach c.document id
  before : s.mapping? id = some m
  pending : isPending s m = true

theorem Meets.mono {r' : Run} (h : Meets c s r id m) (hg : Grows r r') : Meets c s r' id m :=
  { h with keeps := h.keeps.trans hg.store, root := h.root.mono hg }

theorem Meets.mapping (h : Meets c s r id m) : (r.store.mapping? id).isSome :=
  h.keeps.mapping id (by simp [h.before])

theorem Meets.changed (h : Meets c s r id m) {m₁ m' : Entries} (hm : r.store.mapping? id = some m₁)
    (hm' : isExternalRef m' = false ∨
      m'.get? (.str circularRefKey) = some (.scalar (.bool true))) :
    Changed s c.document (r.store.set id (.mapping m')) := by
  refine ⟨id, m, m', ?_, h.reach, h.before, h.pending, mapping?_set_self hm, hm'.imp_right .inl⟩
  rw [size_set]
  exact h.keeps.size

theorem changed_markCircular (h : Meets c s r id m) :
    Ensures (markCircular id ref name) r (fun _ r' => Changed s c.document r'.store)
      fun _ _ => True := by
  obtain ⟨m₁, hm₁⟩ := Option.isSome_iff_exists.mp h.mapping
  unfold markCircular
  simp only [ensures_bind, ensures_getStore, ensures_setStore, ensures_report,
    entries_of_mapping? hm₁]
  exact h.changed hm₁ (.inr (get?_markedContent_circularRefKey name))

theorem changed_replaceContent {target : NodeId} (h : Meets c s r id m) :
    Ensures (replaceContent id target name) r (fun _ r' => Changed s c.document r'.store)
      fun _ _ => True := by
  obtain ⟨m₁, hm₁⟩ := Option.isSome_iff_exists.mp h.mapping
  unfold replaceContent
  simp only [ensures_bind, ensures_getStore, ensures_setStore, ensures_pure, set_set,
    entries_of_mapping? hm₁]
  exact h.changed hm₁ (.inl (isExternalRef_of_ref?_eq_none ref?_inlinedContent))

-- What was changed stays so while the run goes on.
theorem Changed.ensures {α : Type} {x : ResolveM α} (h : Changed s c.document r.store)
    (hg : GrowsFrom r x) :
    Ensures x r (fun _ r' => Changed s c.document r'.store) fun _ _ => True :=
  Ensures.mono hg (fun _ _ hg => h.mono hg.store) fun _ _ _ => trivial

theorem changed_takeContent {target : NodeId} (h : Meets c s r id m) :
    Ensures (takeContent c id target ref name) r (fun _ r' => Changed s c.document r'.store)
      fun _ _ => True := by
  unfold takeContent
  rw [ensures_bind]
  have hreplaced : Ensures (replaceContent id target name) r
      (fun _ r' => Grows r r' ∧ Changed s c.document r'.store) fun _ _ => True :=
    (growsFrom_replaceContent h.mapping name).ensures (changed_replaceContent h)
  refine hreplaced.mono (fun own r₁ h₁ => ?_) fun _ _ h => h
  obtain ⟨hg₁, hchanged⟩ := h₁
  have hroot := h.root.mono hg₁
  refine hchanged.ensures ((growsFrom_report _).bind fun _ r₂ hg₂ =>
    (growsFrom_visit _).bind fun _ r₃ hg₃ => ?_)
  split
  · exact (growsFrom_registerSchema (hroot.mono (hg₂.trans hg₃)) _ _ _).bind
      fun _ _ _ => growsFrom_pure _
  · exact growsFrom_pure _

theorem changed_takeWalked {target : NodeId} (h : Meets c s r id m) :
    Ensures (takeWalked c id target ref name) r (fun _ r' => Changed s c.document r'.store)
      fun _ _ => True := by
  unfold takeWalked
  rw [ensures_bind, ensures_getStore]
  dsimp only
  split
  · rw [ensures_bind]
    exact (changed_markCircular h).mono (fun _ _ h => ensures_pure.mpr h) fun _ _ h => h
  · exact changed_takeContent h

variable (hw : ∀ scope chain v r, HasRoot c r → GrowsFrom r (walk scope chain v))
include hw

theorem changed_inlineTarget (h : Meets c s r id m) {key : String} {at_ : Location}
    {path : List String} :
    Ensures (inlineTarget c walk chain id ref key at_ path name) r
      (fun _ r' => Changed s c.document r'.store) fun _ _ => True := by
  unfold inlineTarget
  rw [ensures_bind]
  refine Ensures.mono (growsFrom_load hw h.root _ _ _) (fun external r₁ hg₁ => ?_)
    fun _ _ _ => trivial
  rw [ensures_bind]
  refine Ensures.mono (growsFrom_targetOf _ _ _) (fun v r₂ hg₂ => ?_) fun _ _ _ => trivial
  have h₂ := h.mono (hg₁.trans hg₂)
  cases v with
  | scalar _ => exact ensures_fail.mpr trivial
  | pair _ _ => exact ensures_fail.mpr trivial
  | node target =>
      unfold inlineMapping
      rw [ensures_bind, ensures_getStore]
      split
      · rw [ensures_bind]
        exact ensures_fail.mpr trivial
      · rw [ensures_bind]
        refine Ensures.mono (hw _ _ _ _ h₂.root) (fun _ r₃ hg₃ => ?_) fun _ _ _ => trivial
        exact changed_takeWalked (h₂.mono hg₃)

-- A reference to resolve is changed when the walk comes by, or a limit is left behind.
theorem changed_inlineExternal {scope : Scope} (h : Meets c s r id m) :
    Ensures (inlineExternal c walk scope chain id ref) r
      (fun _ r' => r'.limits ≠ [] ∨ Changed s c.document r'.store) fun _ _ => True := by
  unfold inlineExternal
  dsimp only
  split
  · simp only [ensures_bind, ensures_limit, ensures_pure]
    exact .inl (by simp)
  · rw [ensures_bind]
    refine Ensures.mono (growsFrom_locate _ _ _) (fun at_ r₁ hg₁ => ?_) fun _ _ _ => trivial
    have h₁ := h.mono hg₁
    split
    · rw [ensures_bind]
      exact (changed_markCircular h₁).mono (fun _ _ h => ensures_pure.mpr (.inr h)) fun _ _ h => h
    · have hinner := growsFrom_inlineTarget hw h₁.root h₁.mapping
      rw [ensures_bind]
      refine (ensures_recover (Q := fun _ r' => r'.limits ≠ [] ∨ Changed s c.document r'.store)
        ((hinner _ _ _ _ _ _).ensures ((changed_inlineTarget hw h₁).mono (fun _ _ => .inr)
          fun _ _ h => h)) (hinner _ _ _ _ _ _) fun _ => .inl).mono
        (fun own r₂ h => ?_) fun _ _ h => h
      obtain ⟨hg₂, h₂⟩ := h
      split
      · refine Ensures.mono (GrowsFrom.forM (fun _ _ hg h => h.mono hg) (fun v _ hr => hw _ _ v _ hr)
          (h₁.root.mono hg₂) _) (fun _ r₃ hg₃ => ?_) fun _ _ _ => trivial
        refine h₂.imp (fun hlimits hnone => hlimits ?_) fun hchanged => hchanged.mono hg₃.store
        exact List.prefix_nil.mp (hnone ▸ hg₃.limits)
      · exact ensures_pure.mpr h₂

end Touch

end ApiGraph.Resolve
