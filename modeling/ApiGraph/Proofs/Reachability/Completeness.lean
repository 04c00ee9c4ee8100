import ApiGraph.Proofs.Reachability.Agenda

namespace ApiGraph.Reachability

open Store

variable {c : Scope} {R T T' : List Value} {N : List Key} {p p' : Progress}

section Walk

variable {walk : Value → Walk Unit} {v : Value}

-- Walking a value takes it off the agenda.
def Walks (c : Scope) (walk : Value → Walk Unit) : Prop :=
  ∀ R T p v, OnAgenda c R (v :: T) p →
    Ensures (walk v) p (fun _ p' => OnAgenda c R T p') fun _ _ => True

theorem ensures_limit {kind : LimitKind} {detail : String} {E : Fault → Progress → Prop} :
    Ensures (limit kind detail) p (fun _ p' => p'.limits ≠ []) E := by
  unfold limit
  rw [ensures_modify]
  split
  next h =>
    intro hl
    simp [hl] at h
  next => simp

theorem ensures_isFull {Q : Bool → Progress → Prop} (h : ∀ b, Q b p) :
    Ensures (isFull c) p Q fun _ _ => True := by
  unfold isFull
  simp only [ensures_bind, ensures_get, ensures_pure]
  exact h _

theorem ensures_mayEnter {depth : Nat} :
    Ensures (mayEnter c depth) p
      (fun b p' => if b then p' = p else p'.limits ≠ []) fun _ _ => True := by
  have refuse {kind : LimitKind} {detail : String} :
      Ensures (do limit kind detail; return false) p
        (fun b p' => if b then p' = p else p'.limits ≠ []) fun _ _ => True := by
    rw [ensures_bind]
    exact ensures_limit.mono (fun _ _ h => by simpa using h) fun _ _ => id
  unfold mayEnter
  dsimp only
  split
  · exact refuse
  · rw [ensures_bind]
    refine ensures_isFull fun full => ?_
    split
    · exact refuse
    · split
      · exact refuse
      · simp

section Parts

variable (hw : Walks c walk)
include hw

theorem ensures_forM_agenda {l : List Value} (h : OnAgenda c R (l ++ T) p) :
    Ensures (l.forM walk) p (fun _ p' => OnAgenda c R T p') fun _ _ => True :=
  ensures_forM (I := fun l p => OnAgenda c R (l ++ T) p) h fun v _ p hp => hw R _ p v hp

theorem ensures_walkBranches {m : Entries} {keywords : List String}
    (h : OnAgenda c R (keywords.flatMap (branches c.store m) ++ T) p) :
    Ensures (walkBranches c walk m keywords) p (fun _ p' => OnAgenda c R T p')
      fun _ _ => True := by
  induction keywords generalizing p with
  | nil => exact ensures_pure.mpr h
  | cons keyword rest ih =>
      rw [List.flatMap_cons, List.append_assoc] at h
      unfold walkBranches
      dsimp only
      split
      next hne =>
        split
        next hmany =>
          rw [ensures_bind]
          refine ensures_limit.mono (fun _ q hq => ?_) fun _ _ => id
          rw [ensures_bind]
          exact (ensures_forM_agenda hw (.of_limits hq)).mono (fun _ _ h => ih h) fun _ _ => id
        next hfew =>
          have hall : firstBranches c.settings.maxBranches (branches c.store m keyword) =
              branches c.store m keyword := by
            unfold firstBranches
            rw [if_pos (by omega)]
            exact List.take_of_length_le (by omega)
          rw [ensures_bind, hall]
          exact (ensures_forM_agenda hw h).mono (fun _ _ h => ih h) fun _ _ => id
      next hnil =>
        have hl : branches c.store m keyword = [] := by simpa using hnil
        rw [hl, List.nil_append] at h
        exact ih h

-- Only as many properties as are walked have to be on the agenda.
theorem ensures_walkProperties {l : List Value} {count : Nat}
    (h : OnAgenda c R (l.take (c.settings.maxProperties - count).toNat ++ T) p) :
    Ensures (walkProperties c walk l count) p (fun _ p' => OnAgenda c R T p')
      fun _ _ => True := by
  induction l generalizing count p with
  | nil => simpa [walkProperties] using h
  | cons v rest ih =>
      unfold walkProperties
      split
      next hlast =>
        have hzero : (c.settings.maxProperties - count).toNat = 0 := by omega
        rw [hzero] at h
        exact ensures_pure.mpr h
      next hmore =>
        rw [ensures_bind]
        refine ensures_isFull fun full => ?_
        split
        · rw [ensures_bind]
          exact ensures_limit.mono (fun _ _ hq => ensures_pure.mpr (.of_limits hq)) fun _ _ => id
        · have hsucc : (c.settings.maxProperties - count).toNat =
              (c.settings.maxProperties - (count + 1 : Nat)).toNat + 1 := by omega
          rw [hsucc, List.take_succ_cons] at h
          rw [ensures_bind]
          exact (hw R _ p v h).mono (fun _ _ h => ih h) fun _ _ => id

theorem ensures_walkAllProperties {m : Entries}
    (h : OnAgenda c R ((properties c.store m).values ++ T) p) :
    Ensures (walkAllProperties c walk m) p (fun _ p' => OnAgenda c R T p') fun _ _ => True := by
  unfold walkAllProperties
  dsimp only
  split
  next =>
    rw [ensures_bind]
    refine ensures_limit.mono (fun _ _ hr => ?_) fun _ _ => id
    exact ensures_walkProperties hw (.of_limits hr)
  next hfew =>
    have hall : (properties c.store m).values.take
        (c.settings.maxProperties - (0 : Nat)).toNat = (properties c.store m).values := by
      apply List.take_of_length_le
      simp only [OrderedMap.values, List.length_map]
      simp only [OrderedMap.isEmpty, OrderedMap.size] at hfew
      cases hl : (properties c.store m).entries with
      | nil => simp
      | cons e rest =>
          simp only [hl, List.isEmpty_cons, Bool.not_false, Bool.true_and,
            decide_eq_true_eq] at hfew
          omega
    apply ensures_walkProperties hw
    rw [hall]
    exact h

theorem ensures_walkItems {m : Entries} (h : OnAgenda c R ((m.field? "items").toList ++ T) p) :
    Ensures (walkItems walk m) p (fun _ p' => OnAgenda c R T p') fun _ _ => True := by
  unfold walkItems
  cases hi : m.field? "items" with
  | none =>
      rw [hi] at h
      exact ensures_pure.mpr h
  | some items =>
      rw [hi] at h
      exact hw R T p items h

theorem ensures_walkParts {m : Entries} (h : OnAgenda c R (parts c.store m ++ T) p) :
    Ensures (walkParts c walk m) p (fun _ p' => OnAgenda c R T p') fun _ _ => True := by
  rw [parts, List.append_assoc, List.append_assoc] at h
  unfold walkParts
  rw [ensures_bind]
  refine (ensures_walkBranches hw h).mono (fun _ q hq => ?_) fun _ _ => id
  rw [ensures_bind]
  exact (ensures_walkItems hw hq).mono (fun _ _ h => ensures_walkAllProperties hw h)
    fun _ _ => id

-- The name has just been recorded and is not covered yet.
theorem ensures_walkComponent (depth : Nat) {name : String}
    (hp : p.names = N ++ [.str name]) (h : p.limits = [] → Agenda c R T N p) :
    Ensures (walkComponent c walk depth name) p (fun _ p' => OnAgenda c R T p')
      fun _ _ => True := by
  have passed (l : List Value) : Grows p { p with passedOver := p.passedOver ++ l } :=
    ⟨List.prefix_rfl, List.suffix_rfl, List.prefix_rfl, List.prefix_append _ _⟩
  unfold walkComponent
  split
  next hnone =>
    exact ensures_pure.mpr (Agenda.cover h hp (.refl p) rfl (fun _ => .inr)
      (fun _ _ hid hold => absurd hid hold) fun _ => nameOwed_of_none hnone)
  next id m hsome =>
    have hreg : (c.registry.get? (.str name)).bind c.store.asMapping? = some (id, m) := hsome
    have hm : c.store.mapping? id = some m := by
      obtain ⟨v, -, hv⟩ := Option.bind_eq_some_iff.mp hreg
      exact (asMapping?_eq_some.mp hv).2
    have hdue := dueOf_of_some hreg
    simp only [ensures_bind, ensures_get]
    split
    next hvis =>
      have hid : id ∈ p.visited := List.contains_iff_mem.mp hvis
      simp only [passOver, ensures_bind, ensures_modify, ensures_pure]
      exact Agenda.cover h hp (passed _) rfl (fun _ => .inr) (fun _ _ hid hold => absurd hid hold)
        fun hl => ((h hl).visited id hid m hm).nameOwed hid hreg
    next =>
      split
      next =>
        simp only [passOver, ensures_bind, ensures_modify, ensures_pure]
        exact Agenda.cover h hp (passed _) rfl (fun _ => .inr) (fun _ _ hid hold => absurd hid hold)
          fun _ => .inl fun w hw => List.mem_append_right _ hw
      next =>
        split
        next ha =>
          have hitems {w : Value} (hw : w ∈ (m.field? "items").toList) :
              w ∈ (m.field? "items").getD .null :: T := by
            rw [Option.mem_toList] at hw
            simp [hw]
          simp only [visit, ensures_bind, ensures_modify, ensures_pure]
          refine hw R T _ _ (Agenda.cover h hp
            ⟨List.prefix_rfl, List.suffix_cons _ _, List.prefix_rfl, List.prefix_rfl⟩ rfl
            (fun w hw => .inr (List.mem_cons_of_mem _ hw)) (fun _ id' hid' hold m' hm' => ?_)
            fun _ => .inr fun w hw => .inr (hitems ?_))
          · obtain rfl : id' = id := (List.mem_cons.mp hid').resolve_right hold
            obtain rfl : m' = m := Option.some.inj (hm'.symm.trans hm)
            refine ⟨fun _ w hw => .inr (hitems ?_), fun _ ha' => ?_, fun _ ha' => ?_⟩
            · rwa [coreParts, if_pos ha] at hw
            · simp [ha] at ha'
            · simp [ha] at ha'
          · rwa [hdue, if_pos ha] at hw
        next ha =>
          simp only [ensures_bind, ensures_pure]
          refine hw R T p _ (Agenda.cover h hp (.refl p) rfl
            (fun w hw => .inr (List.mem_cons_of_mem _ hw))
            (fun _ _ hid hold => absurd hid hold) fun _ => .inr fun w hw => .inr ?_)
          rw [hdue, if_neg ha, List.mem_singleton] at hw
          exact hw ▸ List.mem_cons_self

theorem ensures_enter {depth : Nat} {id : NodeId} {m : Entries} (h : Enterable c R T p id m) :
    Ensures (enter c walk depth id m) p (fun _ p' => OnAgenda c R T p') fun _ _ => True := by
  unfold enter
  split
  · simp only [passOver, ensures_bind, ensures_modify, ensures_pure]
    exact h.passed
  · simp only [visit, ensures_bind, ensures_modify]
    exact ensures_walkParts hw h.entered

end Parts

theorem ensures_add {k : Key} {Q : Bool → Progress → Prop} {E : Fault → Progress → Prop} :
    Ensures (add k) p Q E ↔
      if p.names.contains k then Q false p else Q true { p with names := p.names ++ [k] } := by
  unfold add
  rw [ensures_bind, ensures_get]
  split
  · exact ensures_pure
  · rw [ensures_bind, ensures_modify, ensures_pure]

-- With the name recorded, a mapping that is not its own body owes nothing more.
theorem ensures_finishNamed {id : NodeId} {m : Entries} {name : String} {found : Bool}
    (h : OnAgenda c R (.node id :: T) p) (hm : c.store.mapping? id = some m)
    (hr : referenceName? m = some name) (hb : isOwnBody c.registry id m = false)
    (hn : .str name ∈ p.names) :
    Ensures (finishNamed id m found) p
      (fun all p' => if all then OnAgenda c R T p' else Enterable c R T p' id m)
      fun _ _ => True := by
  unfold finishNamed
  split
  · simp only [visit, ensures_bind, ensures_modify, ensures_pure, if_true]
    have hdone : Done c { p with visited := id :: p.visited } id m :=
      done_of_named hr (by simp [hb]) (.inl hn)
    refine h.visit hm
      ⟨List.prefix_rfl, List.suffix_cons _ _, List.prefix_rfl, List.prefix_rfl⟩ rfl hdone
      (fun _ hw => hw) ⟨fun hs => ?_, fun _ _ => hdone, fun hb' => ?_⟩
      fun _ hk hold => absurd hk hold
    · simp [hr] at hs
    · simp [hb] at hb'
  · exact ensures_pure.mpr (h.enterable_of_named hm hr hb hn)

theorem ensures_walkNamed {depth : Nat} {id : NodeId} {m : Entries} {name : String}
    (hw : Walks c walk) (hg : ∀ v, Growing (walk v)) (h : OnAgenda c R (.node id :: T) p)
    (hm : c.store.mapping? id = some m) (hr : referenceName? m = some name) :
    Ensures (walkNamed c walk depth id m name) p
      (fun all p' => if all then OnAgenda c R T p' else Enterable c R T p' id m)
      fun _ _ => True := by
  unfold walkNamed
  cases hb : isOwnBody c.registry id m with
  | true =>
      simp only [if_true, ensures_bind, ensures_discard, ensures_add, ensures_pure]
      split
      next hk =>
        exact h.enterable_of_ownBody hm hr hb List.prefix_rfl (Key.contains_str.mp hk)
          fun _ hk hold => absurd hk hold
      next =>
        refine h.enterable_of_ownBody hm hr hb (List.prefix_append _ _) (by simp)
          fun k hk hold => ?_
        exact List.mem_singleton.mp ((List.mem_append.mp hk).resolve_left hold)
  | false =>
      simp only [Bool.false_eq_true, if_false, ensures_bind, ensures_add]
      split
      next hk =>
        rw [ensures_pure]
        exact ensures_finishNamed h hm hr hb (Key.contains_str.mp hk)
      next hk =>
        have hnew (hl : p.limits = []) : Agenda c R (.node id :: T) p.names
            { p with names := p.names ++ [.str name] } := by
          have hgrows : Grows p { p with names := p.names ++ [.str name] } :=
            ⟨List.prefix_append _ _, List.suffix_rfl, List.prefix_rfl, List.prefix_rfl⟩
          exact (h hl).update hgrows (fun w hw => .inr hw) (fun _ hid hold => absurd hid hold)
            fun _ hk hold => absurd hk hold
        have hwalk := ensures_walkComponent hw depth
          (p := { p with names := p.names ++ [.str name] }) rfl hnew
        rw [if_pos trivial, ensures_bind]
        refine (hwalk.and (growing_walkComponent hg depth name _)).mono
          (fun found q hq => ensures_finishNamed hq.1 hm hr hb ?_) fun _ _ h => h.1
        exact hq.2.names.subset (by simp)

theorem ensures_walkArray {isSeed : Bool} {id : NodeId} {m : Entries} (hw : Walks c walk)
    (h : OnAgenda c R (.node id :: T) p) (hm : c.store.mapping? id = some m)
    (hr : referenceName? m = none) (ha : isArray c.store m = true) :
    Ensures (walkArray c walk isSeed id m) p (fun _ p' => OnAgenda c R T p')
      fun _ _ => True := by
  have hvisited : OnAgenda c R ((m.field? "items").toList ++ T)
      { p with
        visited := id :: p.visited, passedOver := p.passedOver ++ sideParts c.store m } := by
    refine h.visit hm
      ⟨List.prefix_rfl, List.suffix_cons _ _, List.prefix_rfl, List.prefix_append _ _⟩ rfl
      (done_of_array hr ha List.mem_cons_self fun w hw => List.mem_append_right _ hw)
      (fun w hw => List.mem_append_right _ hw)
      ⟨fun _ w hw => .inr (List.mem_append_left _ ?_), fun hs => ?_, fun _ ha' => ?_⟩
      fun _ hk hold => absurd hk hold
    · simpa [coreParts, ha] using hw
    · simp [hr] at hs
    · simp [ha] at ha'
  unfold walkArray
  simp only [visit, passOver, ensures_bind, ensures_modify]
  split
  next name _ =>
    simp only [ensures_bind, ensures_discard, ensures_add, ensures_modify]
    split
    · exact ensures_walkItems hw (hvisited.passOver _)
    · refine ensures_walkItems hw (hvisited.update
        ⟨List.prefix_append _ _, List.suffix_rfl, List.prefix_rfl, List.prefix_append _ _⟩
        (fun w hw => .inr hw) (fun _ hid hold => absurd hid hold) fun k hk hold => ?_)
      obtain rfl : k = name := by
        rcases List.mem_append.mp hk with hk | hk
        · exact absurd hk hold
        · exact List.mem_singleton.mp hk
      exact .inl fun w hw => List.mem_append_right _ hw
  next => exact ensures_walkItems hw hvisited

theorem ensures_walkFresh {depth : Nat} {isSeed : Bool} {id : NodeId} {m : Entries}
    (hw : Walks c walk) (hg : ∀ v, Growing (walk v)) (h : OnAgenda c R (.node id :: T) p)
    (hm : c.store.mapping? id = some m) :
    Ensures (walkFresh c walk depth isSeed id m) p (fun _ p' => OnAgenda c R T p')
      fun _ _ => True := by
  unfold walkFresh
  split
  next name hr =>
    rw [ensures_bind]
    refine (ensures_walkNamed hw hg h hm hr).mono (fun all q hq => ?_) fun _ _ h => h
    split
    next hall =>
      rw [if_pos hall] at hq
      exact ensures_pure.mpr hq
    next hall =>
      rw [if_neg hall] at hq
      exact ensures_enter hw hq
  next hr =>
    split
    next ha =>
      simp only [ensures_bind, ensures_pure]
      exact ensures_walkArray hw h hm hr ha
    next ha => exact ensures_enter hw (h.enterable_of_unnamed hm hr (by simpa using ha))

end Walk

theorem walks_walk (c : Scope) (allowance depth : Nat) (isSeed : Bool) :
    Walks c (walk c allowance depth isSeed) := by
  induction allowance generalizing depth isSeed with
  | zero => exact fun _ _ _ _ _ => ensures_throw.mpr trivial
  | succ allowance ih =>
      intro R T p v h
      have hw := ih (depth + 1) false
      have hg := growing_walk c allowance (depth + 1) false
      unfold walk
      rw [ensures_bind]
      refine ensures_mayEnter.mono (fun entered q hq => ?_) fun _ _ => id
      split
      next hstop =>
        rw [if_neg (by simpa using hstop)] at hq
        exact ensures_pure.mpr (.of_limits hq)
      next hgo =>
        rw [if_pos (by simpa using hgo)] at hq
        subst hq
        dsimp only
        split
        next hv => exact ensures_pure.mpr (h.settle fun _ => settled_of_none hv)
        next id m hv =>
          obtain ⟨rfl, hm⟩ := asMapping?_eq_some.mp hv
          rw [ensures_bind, ensures_get]
          split
          next hvis =>
            simp only [passOver, ensures_bind, ensures_modify, ensures_pure]
            exact h.passUnread hm (List.contains_iff_mem.mp hvis)
          next => exact ensures_walkFresh hw hg h hm

end ApiGraph.Reachability
