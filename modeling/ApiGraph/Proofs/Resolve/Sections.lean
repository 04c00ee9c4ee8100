import ApiGraph.Proofs.Resolve.Cover
import ApiGraph.Proofs.Resolve.History

namespace ApiGraph.Resolve

open Store

section Sections

variable {s s' : Store} {id child : NodeId} {key : String} {m : Entries}

theorem str_beq_eq_false {other : String} (h : key ≠ other) : (Key.str key == .str other) = false :=
  Bool.eq_false_iff.mpr fun heq => h (Key.str_beq.mp heq)

-- A mapping under the key stays.
def IsFixed (key : String) : Prop := key ≠ refKey ∧ key ≠ circularRefKey

instance (key : String) : Decidable (IsFixed key) := inferInstanceAs (Decidable (_ ∧ _))

theorem Keeps.fieldMapping? (h : Keeps s s') (href : key ≠ refKey) (hmark : key ≠ circularRefKey)
    (hf : s.fieldMapping? id key = some (child, m)) :
    ∃ m', s'.fieldMapping? id key = some (child, m') := by
  obtain ⟨mid, hmid, hk⟩ := mapping?_of_fieldMapping? hf
  obtain ⟨-, hchild⟩ := fieldMapping?_eq_some.mp hf
  obtain ⟨mid', hmid'⟩ := h.exists_mapping? hmid
  obtain ⟨m', hm'⟩ := h.exists_mapping? hchild
  refine ⟨m', fieldMapping?_eq_some.mpr ⟨?_, hm'⟩⟩
  rw [entries_of_mapping? hmid']
  rcases h.value id mid mid' _ _ hmid hmid' (str_beq_eq_false href) hk with
    hsame | ⟨hcirc, -⟩ | ⟨j, -, -, hnone⟩
  · exact hsame
  · rw [str_beq_eq_false hmark] at hcirc
    cases hcirc
  · rcases hnone with hcirc | hnone
    · rw [str_beq_eq_false hmark] at hcirc
      cases hcirc
    · simp [Store.asMapping?, hchild] at hnone

-- A section of components is found again, whatever else a run does.
theorem Keeps.components? {document : NodeId} {kind : String} (h : Keeps s s') (hkind : IsFixed kind)
    (hsection : s.components? document kind = some (child, m)) :
    ∃ m', s'.components? document kind = some (child, m') := by
  obtain ⟨p, mp, hp, hq⟩ := components?_eq_some.mp hsection
  obtain ⟨mp', hp'⟩ := h.fieldMapping? (by decide) (by decide) hp
  obtain ⟨m', hq'⟩ := h.fieldMapping? hkind.1 hkind.2 hq
  exact ⟨m', components?_eq_some.mpr ⟨p, mp', hp', hq'⟩⟩

theorem fieldMapping?_ensureField (h : (s.mapping? id).isSome) (key : String) :
    ∃ m, (s.ensureField id key).2.fieldMapping? id key = some ((s.ensureField id key).1, m) := by
  obtain ⟨mid, hmid⟩ := Option.isSome_iff_exists.mp h
  obtain ⟨m, hm⟩ := Option.isSome_iff_exists.mp (keeps_ensureField h key).2
  refine ⟨m, fieldMapping?_eq_some.mpr ⟨?_, hm⟩⟩
  unfold ensureField
  split
  · next child n hf => exact (fieldMapping?_eq_some.mp hf).1
  · have hlt : id < (s.alloc (.mapping .empty)).2.nodes.size := by
      rw [size_alloc]
      exact Nat.lt_succ_of_lt (lt_size_of_mapping? hmid)
    rw [entries_put_self _ _ _ hlt, OrderedMap.get?_insert]
    simp

theorem fieldMapping?_ensureComponents {document : NodeId} (hd : (s.mapping? document).isSome)
    (kind : String) : ∃ m, (s.ensureComponents document kind).2.fieldMapping? document "components" =
      some ((s.ensureField document "components").1, m) := by
  obtain ⟨-, hplace⟩ := keeps_ensureField hd "components"
  obtain ⟨m, hm⟩ := fieldMapping?_ensureField hd "components"
  exact (keeps_ensureField hplace kind).1.fieldMapping? (by decide) (by decide) hm

theorem components?_ensureComponents {document : NodeId} (hd : (s.mapping? document).isSome)
    (kind : String) : ∃ m, (s.ensureComponents document kind).2.components? document kind =
      some ((s.ensureComponents document kind).1, m) := by
  obtain ⟨mp, hp⟩ := fieldMapping?_ensureComponents hd kind
  obtain ⟨m, hm⟩ := fieldMapping?_ensureField (keeps_ensureField hd "components").2 kind
  exact ⟨m, components?_eq_some.mpr ⟨_, mp, hp, hm⟩⟩

-- Once the sections are there, they are not made again.
theorem ensureComponents_of_keeps {document : NodeId} {kind : String}
    (hd : (s.mapping? document).isSome) (href : kind ≠ refKey) (hmark : kind ≠ circularRefKey)
    (hk : Keeps (s.ensureComponents document kind).2 s') :
    (s'.entries document).isEmpty = false ∧ (s'.ensureComponents document kind).2 = s' := by
  obtain ⟨-, hplace⟩ := keeps_ensureField hd "components"
  obtain ⟨m₁, hfirst⟩ := fieldMapping?_ensureComponents hd kind
  obtain ⟨m₂, hsecond⟩ := fieldMapping?_ensureField hplace kind
  obtain ⟨m₁', hfirst'⟩ := Keeps.fieldMapping? hk (by decide) (by decide) hfirst
  obtain ⟨m₂', hsecond'⟩ := Keeps.fieldMapping? hk href hmark hsecond
  constructor
  · exact OrderedMap.isEmpty_eq_false_of_get? (fieldMapping?_eq_some.mp hfirst').1
  · unfold ensureComponents
    rw [ensureField_of_fieldMapping? hfirst']
    dsimp only
    rw [ensureField_of_fieldMapping? hsecond']

theorem Keeps.componentIn? {document : NodeId} {kind name : String} (h : Keeps s s')
    (hkind : IsFixed kind) (hname : IsFixed name)
    (hin : componentIn? s document kind name = some id) :
    componentIn? s' document kind name = some id := by
  obtain ⟨p, mp, q, mq, mi, hp, hq, hi⟩ := componentIn?_eq_some_iff.mp hin
  obtain ⟨mp', hp'⟩ := h.fieldMapping? (by decide) (by decide) hp
  obtain ⟨mq', hq'⟩ := h.fieldMapping? hkind.1 hkind.2 hq
  obtain ⟨mi', hi'⟩ := h.fieldMapping? hname.1 hname.2 hi
  exact componentIn?_eq_some_iff.mpr ⟨p, mp', q, mq', mi', hp', hq', hi'⟩

theorem isBound_iff {c : Context} {kind name : String} :
    isBound c s kind name = true ↔
      ∃ q mq, s.components? c.document kind = some (q, mq) ∧ (mq.get? (.str name)).isSome := by
  unfold isBound
  cases s.components? c.document kind with
  | none => simp
  | some e => simp [Entries.has, OrderedMap.contains_eq_isSome_get?, Prod.ext_iff]

-- What is bound stays bound.
theorem Keeps.isBound {c : Context} {kind name : String} (h : Keeps s s') (hkind : IsFixed kind)
    (hname : name ≠ refKey) (hb : isBound c s kind name = true) : isBound c s' kind name = true := by
  obtain ⟨q, mq, hsection, hn⟩ := isBound_iff.mp hb
  obtain ⟨mq', hsection'⟩ := h.components? hkind hsection
  refine isBound_iff.mpr ⟨q, mq', hsection', ?_⟩
  obtain ⟨v, hv⟩ := Option.isSome_iff_exists.mp hn
  have hmq := mapping?_of_components? hsection
  have hmq' := mapping?_of_components? hsection'
  rcases h.value q mq mq' _ v hmq hmq' (str_beq_eq_false hname) hv with
    hsame | ⟨-, hsame⟩ | ⟨j, -, hsame, -⟩
  · simp [hsame]
  · simp [hsame]
  · simp [hsame]

theorem isBound_bound {c : Context} {kind : String} (hroot : (s.mapping? c.document).isSome)
    (hkind : IsFixed kind) (name : String) (target : NodeId) :
    isBound c (bound s c.document kind name target) kind name = true := by
  obtain ⟨mq, hsection⟩ := components?_ensureComponents hroot kind
  have hmq := mapping?_of_components? hsection
  unfold bound
  dsimp only
  split
  · next hhas =>
    rw [entries_of_mapping? hmq, Entries.has, OrderedMap.contains_eq_isSome_get?] at hhas
    exact isBound_iff.mpr ⟨_, mq, hsection, hhas⟩
  · next hhas =>
    rw [entries_of_mapping? hmq, Entries.has, OrderedMap.contains_eq_isSome_get?] at hhas
    have hkeeps := keeps_put (k := .str name) (j := target) (.refl _) hmq
      fun v hv => absurd (by rw [hv]; rfl) hhas
    obtain ⟨mq', hsection'⟩ := hkeeps.components? hkind hsection
    refine isBound_iff.mpr ⟨_, mq', hsection', ?_⟩
    rw [put_of_mapping? hmq] at hsection'
    rw [← Option.some.inj ((mapping?_set_self hmq).symm.trans (mapping?_of_components? hsection')),
      OrderedMap.get?_insert]
    simp

end Sections

end ApiGraph.Resolve
