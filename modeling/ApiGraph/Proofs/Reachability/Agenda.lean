import ApiGraph.Proofs.Reachability.Growth
import ApiGraph.Proofs.Reachability.Met

namespace ApiGraph.Reachability

open Store

variable {c : Scope} {R T T' : List Value} {N : List Key} {p p' : Progress}

section Settled

-- What the walk of a mapping has achieved. A mapping that is not entered is passed over.
def Done (c : Scope) (p : Progress) (id : NodeId) (m : Entries) : Prop :=
  match referenceName? m with
  | none =>
      if isArray c.store m then id ∈ p.visited ∧ ∀ w ∈ sideParts c.store m, w ∈ p.passedOver
      else id ∈ p.visited ∨ .node id ∈ p.passedOver
  | some name =>
      if isOwnBody c.registry id m ∧ isArray c.store m = false then
        .str name ∈ p.names ∧ (id ∈ p.visited ∨ ∀ w ∈ parts c.store m, w ∈ p.passedOver)
      else .str name ∈ p.names ∨ .node id ∈ p.passedOver

def Settled (c : Scope) (p : Progress) (v : Value) : Prop :=
  ∀ id m, c.store.asMapping? v = some (id, m) → Done c p id m

variable {id : NodeId} {m : Entries} {v : Value} {name : String}

theorem Done.mono (h : Done c p id m) (hg : Grows p p') : Done c p' id m := by
  have hn (k : Key) (hk : k ∈ p.names) : k ∈ p'.names := hg.names.subset hk
  have hv (i : NodeId) (hi : i ∈ p.visited) : i ∈ p'.visited := hg.visited.subset hi
  have ho (w : Value) (hw : w ∈ p.passedOver) : w ∈ p'.passedOver := hg.passedOver.subset hw
  unfold Done at h ⊢
  split
  next hr =>
    simp only [hr] at h
    split
    next ha =>
      rw [if_pos ha] at h
      exact ⟨hv _ h.1, fun w hw => ho _ (h.2 w hw)⟩
    next ha =>
      rw [if_neg ha] at h
      exact h.imp (hv _) (ho _)
  next name hr =>
    simp only [hr] at h
    split
    next hb =>
      rw [if_pos hb] at h
      exact ⟨hn _ h.1, h.2.imp (hv _) fun h w hw => ho _ (h w hw)⟩
    next hb =>
      rw [if_neg hb] at h
      exact h.imp (hn _) (ho _)

theorem Settled.mono (h : Settled c p v) (hg : Grows p p') : Settled c p' v :=
  fun id m hv => (h id m hv).mono hg

-- Values other than mappings have nothing to give.
theorem settled_of_none (h : c.store.asMapping? v = none) : Settled c p v := by
  intro id m hv
  rw [h] at hv
  cases hv

theorem settled_iff (h : c.store.asMapping? v = some (id, m)) :
    Settled c p v ↔ Done c p id m := by
  refine ⟨fun hs => hs id m h, fun hd id' m' hv => ?_⟩
  rw [h] at hv
  cases hv
  exact hd

-- The cases in which a mapping is done, as the walk meets them.
theorem done_of_array (hr : referenceName? m = none) (ha : isArray c.store m = true)
    (hv : id ∈ p.visited) (ho : ∀ w ∈ sideParts c.store m, w ∈ p.passedOver) :
    Done c p id m := by
  unfold Done
  simp only [hr, if_pos ha]
  exact ⟨hv, ho⟩

theorem done_of_unnamed (hr : referenceName? m = none) (ha : isArray c.store m = false)
    (h : id ∈ p.visited ∨ .node id ∈ p.passedOver) : Done c p id m := by
  unfold Done
  simp only [hr]
  rw [if_neg (by simp [ha])]
  exact h

theorem done_of_named (hr : referenceName? m = some name)
    (hb : ¬(isOwnBody c.registry id m = true ∧ isArray c.store m = false))
    (h : .str name ∈ p.names ∨ .node id ∈ p.passedOver) : Done c p id m := by
  unfold Done
  simp only [hr, if_neg hb]
  exact h

theorem done_of_ownBody (hr : referenceName? m = some name) (hn : .str name ∈ p.names)
    (h : id ∈ p.visited ∨ ∀ w ∈ parts c.store m, w ∈ p.passedOver) : Done c p id m := by
  unfold Done
  simp only [hr]
  split
  · exact ⟨hn, h⟩
  · exact .inl hn

-- What a mapping that is done has in each of these cases.
theorem Done.array (h : Done c p id m) (hr : referenceName? m = none)
    (ha : isArray c.store m = true) :
    id ∈ p.visited ∧ ∀ w ∈ sideParts c.store m, w ∈ p.passedOver := by
  unfold Done at h
  simpa only [hr, if_pos ha] using h

theorem Done.unnamed (h : Done c p id m) (hr : referenceName? m = none)
    (ha : isArray c.store m = false) : id ∈ p.visited ∨ .node id ∈ p.passedOver := by
  unfold Done at h
  simp only [hr] at h
  rwa [if_neg (by simp [ha])] at h

theorem Done.named (h : Done c p id m) (hr : referenceName? m = some name) :
    .str name ∈ p.names ∨ .node id ∈ p.passedOver := by
  unfold Done at h
  simp only [hr] at h
  split at h
  · exact .inl h.1
  · exact h

theorem Done.ownBody (h : Done c p id m) (hb : isOwnBody c.registry id m = true)
    (ha : isArray c.store m = false) :
    id ∈ p.visited ∨ ∀ w ∈ parts c.store m, w ∈ p.passedOver := by
  unfold Done at h
  cases hr : referenceName? m with
  | none => simp [isOwnBody, hr] at hb
  | some name =>
      simp only [hr, if_pos (And.intro hb ha)] at h
      exact h.2

end Settled

section Agenda

-- The values through which a component's body is walked.
def dueOf (s : Store) (registry : Entries) (name : Key) : List Value :=
  match (registry.get? name).bind s.asMapping? with
  | none => []
  | some (id, m) => if isArray s m then (m.field? "items").toList else [.node id]

-- The parts through which a schema without a name is walked.
def coreParts (s : Store) (m : Entries) : List Value :=
  if isArray s m then (m.field? "items").toList else parts s m

-- What is not settled yet is on the agenda of the callers.
def Owed (c : Scope) (T : List Value) (p : Progress) (v : Value) : Prop :=
  Settled c p v ∨ v ∈ T

-- What is owed below a visited mapping. An array with a name can have been visited for it alone.
structure VisitOwed (c : Scope) (T : List Value) (p : Progress) (id : NodeId) (m : Entries) :
    Prop where
  unnamed : referenceName? m = none → ∀ w ∈ coreParts c.store m, Owed c T p w
  named : (referenceName? m).isSome → isArray c.store m = false → Done c p id m
  ownBody : isOwnBody c.registry id m → isArray c.store m = false →
    ∀ w ∈ parts c.store m, Owed c T p w

def NameOwed (c : Scope) (T : List Value) (p : Progress) (k : Key) : Prop :=
  (∀ w ∈ bodyOf c.store c.registry k, w ∈ p.passedOver) ∨
    ∀ w ∈ dueOf c.store c.registry k, Owed c T p w

theorem dueOf_of_some {k : Key} {id : NodeId} {m : Entries}
    (hreg : (c.registry.get? k).bind c.store.asMapping? = some (id, m)) :
    dueOf c.store c.registry k =
      if isArray c.store m then (m.field? "items").toList else [.node id] := by
  unfold dueOf
  rw [hreg]

-- Nothing is owed for a name without a component.
theorem nameOwed_of_none {k : Key}
    (hnone : (c.registry.get? k).bind c.store.asMapping? = none) : NameOwed c T p k := by
  refine .inl fun w hw => ?_
  unfold bodyOf at hw
  rw [hnone] at hw
  cases hw

-- A component that was visited owes no more than what is noted as unread.
theorem VisitOwed.nameOwed {k : Key} {id : NodeId} {m : Entries} (ho : VisitOwed c T p id m)
    (hid : id ∈ p.visited) (hreg : (c.registry.get? k).bind c.store.asMapping? = some (id, m)) :
    NameOwed c T { p with passedOver := p.passedOver ++ unreadBody c.store m } k := by
  have hgrows : Grows p { p with passedOver := p.passedOver ++ unreadBody c.store m } :=
    ⟨List.prefix_rfl, List.suffix_rfl, List.prefix_rfl, List.prefix_append _ _⟩
  obtain ⟨v, -, hv⟩ := Option.bind_eq_some_iff.mp hreg
  have hnode := asMapping?_eq_some.mpr ⟨rfl, (asMapping?_eq_some.mp hv).2⟩
  cases ha : isArray c.store m with
  | false =>
      refine .inr fun w hw => .inl ?_
      rw [dueOf_of_some hreg, if_neg (by simp [ha]), List.mem_singleton] at hw
      subst hw
      refine ((settled_iff hnode).mpr ?_).mono hgrows
      cases hr : referenceName? m with
      | none => exact done_of_unnamed hr ha (.inl hid)
      | some _ => exact ho.named (by simp [hr]) ha
  | true =>
      cases hr : referenceName? m with
      | none =>
          refine .inr fun w hw => (ho.unnamed hr w ?_).imp_left fun hs => hs.mono hgrows
          rw [dueOf_of_some hreg, if_pos ha] at hw
          rwa [coreParts, if_pos ha]
      | some _ =>
          refine .inl fun w hw => List.mem_append_right _ ?_
          unfold bodyOf at hw
          rw [hreg] at hw
          simp only [if_pos ha] at hw
          simpa [unreadBody, ha, hr] using hw

-- The agenda `T` covers what the bodies `R`, the visited mappings and the names `N` still owe.
structure Agenda (c : Scope) (R T : List Value) (N : List Key) (p : Progress) : Prop where
  bodies : ∀ v ∈ R, Owed c T p v
  visited : ∀ id ∈ p.visited, ∀ m, c.store.mapping? id = some m → VisitOwed c T p id m
  names : ∀ k ∈ N, NameOwed c T p k

-- Nothing is said about a pass that met a limit.
def OnAgenda (c : Scope) (R T : List Value) (p : Progress) : Prop :=
  p.limits = [] → Agenda c R T p.names p

theorem OnAgenda.of_limits (h : p.limits ≠ []) : OnAgenda c R T p := fun h' => absurd h' h

theorem Owed.settled {v : Value} (h : Owed c [] p v) : Settled c p v := h.resolve_right List.not_mem_nil

theorem Owed.update {v : Value} (h : Owed c T p v) (hg : Grows p p')
    (ht : ∀ w ∈ T, Owed c T' p' w) : Owed c T' p' v :=
  h.elim (fun hs => .inl (hs.mono hg)) (ht v)

-- Progress keeps the agenda if all that was on it is still owed and what is new is covered.
theorem Agenda.update (h : Agenda c R T N p) (hg : Grows p p')
    (ht : ∀ w ∈ T, Owed c T' p' w)
    (hv : ∀ id ∈ p'.visited, id ∉ p.visited →
      ∀ m, c.store.mapping? id = some m → VisitOwed c T' p' id m)
    {N' : List Key} (hn : ∀ k ∈ N', k ∉ N → NameOwed c T' p' k) : Agenda c R T' N' p' where
  bodies v hr := (h.bodies v hr).update hg ht
  visited id hid m hm := by
    by_cases hold : id ∈ p.visited
    · have ho := h.visited id hold m hm
      exact ⟨fun hr w hw => (ho.unnamed hr w hw).update hg ht,
        fun hr ha => (ho.named hr ha).mono hg,
        fun hb ha w hw => (ho.ownBody hb ha w hw).update hg ht⟩
    · exact hv id hid hold m hm
  names k hk := by
    by_cases hold : k ∈ N
    · refine (h.names k hold).imp (fun ho w hw => ?_) fun ho w hw => (ho w hw).update hg ht
      exact hg.passedOver.subset (ho w hw)
    · exact hn k hk hold

theorem OnAgenda.update (h : OnAgenda c R T p) (hg : Grows p p')
    (ht : ∀ w ∈ T, Owed c T' p' w)
    (hv : ∀ id ∈ p'.visited, id ∉ p.visited →
      ∀ m, c.store.mapping? id = some m → VisitOwed c T' p' id m)
    (hn : ∀ k ∈ p'.names, k ∉ p.names → NameOwed c T' p' k) : OnAgenda c R T' p' := by
  intro hl
  have hl' : p.limits = [] := List.prefix_nil.mp (hl ▸ hg.limits)
  exact (h hl').update hg ht hv hn

-- A mapping is visited: with that it is done, and what it owes is on the agenda.
theorem OnAgenda.visit {id : NodeId} {m : Entries} (h : OnAgenda c R (.node id :: T) p)
    (hm : c.store.mapping? id = some m) (hg : Grows p p') (hv : p'.visited = id :: p.visited)
    (hdone : Done c p' id m) (ht : ∀ w ∈ T, w ∈ T') (howed : VisitOwed c T' p' id m)
    (hn : ∀ k ∈ p'.names, k ∉ p.names → NameOwed c T' p' k) : OnAgenda c R T' p' := by
  refine h.update hg (fun w hw => ?_) (fun id' hid' hold m' hm' => ?_) hn
  · rcases List.mem_cons.mp hw with rfl | hw
    · exact .inl ((settled_iff (asMapping?_eq_some.mpr ⟨rfl, hm⟩)).mpr hdone)
    · exact .inr (ht w hw)
  · rw [hv] at hid'
    obtain rfl : id' = id := (List.mem_cons.mp hid').resolve_right hold
    obtain rfl : m' = m := Option.some.inj (hm'.symm.trans hm)
    exact howed

theorem OnAgenda.settle {v : Value} (h : OnAgenda c R (v :: T) p)
    (hs : p.limits = [] → Settled c p v) : OnAgenda c R T p := by
  intro hl
  refine (h hl).update (.refl p) (fun w hw => ?_) (fun _ hid hold => absurd hid hold)
    fun _ hk hold => absurd hk hold
  rcases List.mem_cons.mp hw with rfl | hw
  · exact .inl (hs hl)
  · exact .inr hw

-- The last name was recorded by then and is not covered before the step.
theorem Agenda.cover {name : Key} (h : p.limits = [] → Agenda c R T N p)
    (hp : p.names = N ++ [name]) (hg : Grows p p') (hn : p'.names = p.names)
    (ht : ∀ w ∈ T, Owed c T' p' w)
    (hv : p.limits = [] → ∀ id ∈ p'.visited, id ∉ p.visited →
      ∀ m, c.store.mapping? id = some m → VisitOwed c T' p' id m)
    (hk : p.limits = [] → NameOwed c T' p' name) : OnAgenda c R T' p' := by
  intro hl
  have hl' : p.limits = [] := List.prefix_nil.mp (hl ▸ hg.limits)
  refine (h hl').update hg ht (hv hl') fun k hmem hold => ?_
  rw [hn, hp, List.mem_append, List.mem_singleton] at hmem
  rcases hmem with hmem | rfl
  · exact absurd hmem hold
  · exact hk hl'

theorem OnAgenda.passOver (h : OnAgenda c R T p) (l : List Value) :
    OnAgenda c R T { p with passedOver := p.passedOver ++ l } := by
  refine h.update ⟨List.prefix_rfl, List.suffix_rfl, List.prefix_rfl, List.prefix_append _ _⟩
    (fun w hw => .inr hw) (fun _ hid hold => absurd hid hold) fun _ hk hold => absurd hk hold

section Mapping

variable {id : NodeId} {m : Entries} {name : String}

-- A mapping that was visited before is done, up to what is noted as unread.
theorem OnAgenda.passUnread (h : OnAgenda c R (.node id :: T) p)
    (hm : c.store.mapping? id = some m) (hid : id ∈ p.visited) :
    OnAgenda c R T
      { p with passedOver := p.passedOver ++ unreadOf c.store p.names (.node id) m } := by
  refine (h.passOver _).settle fun hl => ?_
  refine (settled_iff (asMapping?_eq_some.mpr ⟨rfl, hm⟩)).mpr ?_
  have ho := (h.passOver (unreadOf c.store p.names (.node id) m) hl).visited id hid m hm
  cases ha : isArray c.store m with
  | true =>
      cases hr : referenceName? m with
      | none =>
          refine done_of_array hr ha hid fun w hw => List.mem_append_right _ ?_
          simpa [unreadOf, hr, ha] using hw
      | some name =>
          refine done_of_named hr (by simp [ha]) ?_
          cases hn : p.names.contains (.str name) with
          | true => exact .inl (Key.contains_str.mp hn)
          | false => exact .inr (List.mem_append_right _ (by simp only [unreadOf, hr, hn]; simp))
  | false =>
      cases hr : referenceName? m with
      | none => exact done_of_unnamed hr ha (.inl hid)
      | some _ => exact ho.named (by simp [hr]) ha

-- The walk may enter the mapping, and it may as well pass it over.
structure Enterable (c : Scope) (R T : List Value) (p : Progress) (id : NodeId) (m : Entries) :
    Prop where
  passed : OnAgenda c R T { p with
    passedOver := p.passedOver ++
      if isOwnBody c.registry id m then parts c.store m else [.node id] }
  entered : OnAgenda c R (parts c.store m ++ T) { p with visited := id :: p.visited }

theorem isOwnBody_of_none (hr : referenceName? m = none) : isOwnBody c.registry id m = false := by
  simp [isOwnBody, hr]

theorem OnAgenda.enterable_of_unnamed (h : OnAgenda c R (.node id :: T) p)
    (hm : c.store.mapping? id = some m) (hr : referenceName? m = none)
    (ha : isArray c.store m = false) : Enterable c R T p id m := by
  have hnode : c.store.asMapping? (.node id) = some (id, m) := asMapping?_eq_some.mpr ⟨rfl, hm⟩
  constructor
  · refine (h.passOver _).settle fun _ => (settled_iff hnode).mpr ?_
    refine done_of_unnamed hr ha (.inr (List.mem_append_right _ ?_))
    simp [isOwnBody_of_none hr]
  · refine h.visit hm
      ⟨List.prefix_rfl, List.suffix_cons _ _, List.prefix_rfl, List.prefix_rfl⟩ rfl
      (done_of_unnamed hr ha (.inl List.mem_cons_self)) (fun w hw => List.mem_append_right _ hw)
      ⟨fun _ w hw => .inr (List.mem_append_left _ ?_), fun hs => ?_, fun hb => ?_⟩
      fun _ hk hold => absurd hk hold
    · simpa [coreParts, ha] using hw
    · simp [hr] at hs
    · simp [isOwnBody_of_none hr] at hb

theorem OnAgenda.enterable_of_named (h : OnAgenda c R (.node id :: T) p)
    (hm : c.store.mapping? id = some m) (hr : referenceName? m = some name)
    (hb : isOwnBody c.registry id m = false) (hn : .str name ∈ p.names) :
    Enterable c R T p id m := by
  have hnode : c.store.asMapping? (.node id) = some (id, m) := asMapping?_eq_some.mpr ⟨rfl, hm⟩
  have hdone {q : Progress} (hq : .str name ∈ q.names) : Done c q id m :=
    done_of_named hr (by simp [hb]) (.inl hq)
  constructor
  · exact (h.passOver _).settle fun _ => (settled_iff hnode).mpr (hdone hn)
  · refine h.visit hm
      ⟨List.prefix_rfl, List.suffix_cons _ _, List.prefix_rfl, List.prefix_rfl⟩ rfl (hdone hn)
      (fun w hw => List.mem_append_right _ hw)
      ⟨fun hs => ?_, fun _ _ => hdone hn, fun hb' => ?_⟩ fun _ hk hold => absurd hk hold
    · simp [hr] at hs
    · simp [hb] at hb'

-- A component that names itself, with its name recorded if it was not before.
theorem OnAgenda.enterable_of_ownBody {names : List Key} (h : OnAgenda c R (.node id :: T) p)
    (hm : c.store.mapping? id = some m) (hr : referenceName? m = some name)
    (hb : isOwnBody c.registry id m = true) (hpre : p.names <+: names)
    (hn : .str name ∈ names) (hnew : ∀ k ∈ names, k ∉ p.names → k = .str name) :
    Enterable c R T { p with names } id m := by
  have hnode : c.store.asMapping? (.node id) = some (id, m) := asMapping?_eq_some.mpr ⟨rfl, hm⟩
  have hreg : (c.registry.get? (.str name)).bind c.store.asMapping? = some (id, m) := by
    have hfield : c.registry.field? name = some (.node id) := by simpa [isOwnBody, hr] using hb
    rw [show c.registry.get? (.str name) = some (.node id) from hfield]
    exact hnode
  constructor
  · refine h.update ⟨hpre, List.suffix_rfl, List.prefix_rfl, List.prefix_append _ _⟩ ?_
      (fun _ hid hold => absurd hid hold) ?_
    · intro w hw
      rcases List.mem_cons.mp hw with rfl | hw
      · refine .inl ((settled_iff hnode).mpr (done_of_ownBody hr hn (.inr fun w hw => ?_)))
        exact List.mem_append_right _ (by simpa [hb] using hw)
      · exact .inr hw
    · intro k hk hold
      obtain rfl := hnew k hk hold
      refine .inl fun w hw => List.mem_append_right _ ?_
      unfold bodyOf at hw
      rw [hreg] at hw
      simp only [hb, if_true] at hw ⊢
      split at hw
      · exact mem_parts.mpr (.inl hw)
      · exact hw
  · have hdone : Done c { p with names, visited := id :: p.visited } id m :=
      done_of_ownBody hr hn (.inl List.mem_cons_self)
    refine h.visit hm ⟨hpre, List.suffix_cons _ _, List.prefix_rfl, List.prefix_rfl⟩ rfl hdone
      (fun w hw => List.mem_append_right _ hw)
      ⟨fun hs => ?_, fun _ _ => hdone, fun _ _ w hw => .inr (List.mem_append_left _ hw)⟩
      fun k hk hold => ?_
    · simp [hr] at hs
    · obtain rfl := hnew k hk hold
      refine .inr fun w hw => ?_
      rw [dueOf_of_some hreg] at hw
      split at hw
      · exact .inr (List.mem_append_left _ (mem_parts.mpr (.inl hw)))
      · rw [List.mem_singleton] at hw
        exact hw ▸ .inl ((settled_iff hnode).mpr hdone)

end Mapping

end Agenda

end ApiGraph.Reachability
