import ApiGraph.Document.Equality
import ApiGraph.Proofs.Document.Content

namespace ApiGraph

-- The containers that the value names, inside pairs too, are among the first ones.
def Value.within (size : Nat) : Value → Bool
  | .scalar _ => true
  | .node id => decide (id < size)
  | .pair a b => a.within size && b.within size

namespace Store

def Closed (s : Store) : Prop := ∀ id, ∀ v ∈ s.children id, v.within s.nodes.size = true

theorem closed_iff {s : Store} :
    s.Closed ↔ ∀ id < s.nodes.size, ∀ v ∈ s.children id, v.within s.nodes.size = true :=
  ⟨fun h id _ => h id, fun h id v hv => h id (lt_size_of_mem_children hv) v hv⟩

instance {s : Store} : Decidable s.Closed := decidable_of_iff _ closed_iff.symm

-- The second store holds the containers of the first one as they are there.
structure Retains (s s' : Store) : Prop where
  size : s.nodes.size ≤ s'.nodes.size
  old : ∀ id < s.nodes.size, s'.get? id = s.get? id

-- The comparison of the two comes to an end and finds no difference.
def Same (s : Store) (v w : Value) : Prop := ∃ allowance, s.equal allowance v w = .ok true

section AllM

variable {α : Type} {p q : α → Except Fault Bool} {l : List α} {b : Bool} {f : Fault}

theorem allM_cons {a : α} : allM p (a :: l) = (p a >>= fun b => if b then allM p l else pure false) := by
  rw [allM]

theorem allM_eq_ok_true : allM p l = .ok true ↔ ∀ a ∈ l, p a = .ok true := by
  induction l with
  | nil => simp [allM]
  | cons a rest ih =>
      rw [allM_cons, List.forall_mem_cons, ← ih]
      rcases hp : p a with f | b
      · simp [bind, Except.bind]
      · cases b <;> simp [bind, Except.bind, pure, Except.pure]

theorem exists_of_allM_eq_ok_false (h : allM p l = .ok false) : ∃ a ∈ l, p a = .ok false := by
  induction l with
  | nil => cases h
  | cons a rest ih =>
      rw [allM_cons] at h
      rcases hp : p a with f | b
      · rw [hp] at h
        cases h
      · rw [hp] at h
        cases b with
        | false => exact ⟨a, List.mem_cons_self, hp⟩
        | true =>
            obtain ⟨a', ha', hfalse⟩ := ih h
            exact ⟨a', List.mem_cons_of_mem _ ha', hfalse⟩

theorem exists_of_allM_eq_error (h : allM p l = .error f) : ∃ a ∈ l, p a = .error f := by
  induction l with
  | nil => cases h
  | cons a rest ih =>
      rw [allM_cons] at h
      rcases hp : p a with f' | b
      · rw [hp] at h
        cases h
        exact ⟨a, List.mem_cons_self, hp⟩
      · rw [hp] at h
        cases b with
        | false => cases h
        | true =>
            obtain ⟨a', ha', herror⟩ := ih h
            exact ⟨a', List.mem_cons_of_mem _ ha', herror⟩

theorem allM_mono (hpq : ∀ a ∈ l, ∀ b, p a = .ok b → q a = .ok b) (h : allM p l = .ok b) :
    allM q l = .ok b := by
  induction l with
  | nil => exact h
  | cons a rest ih =>
      rw [allM_cons] at h ⊢
      rcases hp : p a with f | b'
      · rw [hp] at h
        cases h
      · rw [hp] at h
        rw [hpq a List.mem_cons_self b' hp]
        cases b' with
        | false => exact h
        | true => exact ih (fun a' ha' => hpq a' (List.mem_cons_of_mem _ ha')) h

theorem allM_congr (hpq : ∀ a ∈ l, p a = q a) : allM p l = allM q l := by
  induction l with
  | nil => rfl
  | cons a rest ih =>
      rw [allM_cons, allM_cons, hpq a List.mem_cons_self,
        ih fun a' ha' => hpq a' (List.mem_cons_of_mem _ ha')]

end AllM

-- The parts of two containers that have to be equal, if the containers are not different at once. A part
-- of the first one may be without a counterpart.
def counterparts : Option Container → Option Container → Option (List (Value × Option Value))
  | some (.mapping m), some (.mapping n) =>
      if m.size ≠ n.size then none else some (m.entries.map fun e => (e.2, n.get? e.1))
  | some (.sequence l), some (.sequence k) =>
      if l.length ≠ k.length then none else some ((l.zip k).map fun e => (e.1, some e.2))
  | some (.set l), some (.set k) =>
      if l.length == k.length && l.all fun x => k.any fun y => x.identity == y.identity then some []
      else none
  | _, _ => none

-- The same for two values.
def toCompare (s : Store) : Value → Value → Option (List (Value × Option Value))
  | .scalar x, .scalar y => if x.identity == y.identity then some [] else none
  | .pair a₁ b₁, .pair a₂ b₂ => some [(a₁, some a₂), (b₁, some b₂)]
  | .node i, .node j => if i = j then some [] else counterparts (s.get? i) (s.get? j)
  | _, _ => none

def equalPart (p : Value → Value → Except Fault Bool) (e : Value × Option Value) : Except Fault Bool :=
  match e.2 with
  | some w => p e.1 w
  | none => .ok false

section Equal

variable {s s' : Store} {n k : Nat} {v w u : Value} {i j : NodeId} {b : Bool} {f : Fault}
  {l l' : List (Value × Option Value)}

theorem allM_map {α β : Type} {p : β → Except Fault Bool} {g : α → β} {l : List α} :
    allM p (l.map g) = allM (fun a => p (g a)) l := by
  induction l with
  | nil => rfl
  | cons a rest ih => rw [List.map_cons, allM_cons, allM_cons, ih]

theorem equal_of_ne (hij : i ≠ j) : s.equal (n + 1) (.node i) (.node j) =
    match counterparts (s.get? i) (s.get? j) with
    | some l => allM (equalPart (s.equal n)) l
    | none => .ok false := by
  rw [equal, if_neg hij]
  generalize s.get? i = c
  generalize s.get? j = d
  rcases c with _ | ⟨m⟩ | ⟨l⟩ | ⟨l⟩ <;> rcases d with _ | ⟨m'⟩ | ⟨l'⟩ | ⟨l'⟩
  case some.mapping.some.mapping =>
    dsimp only [counterparts]
    by_cases hsize : m.size ≠ m'.size
    · rw [if_pos hsize, if_pos hsize]
    · rw [if_neg hsize, if_neg hsize]
      dsimp only
      rw [allM_map]
      rfl
  case some.sequence.some.sequence =>
    dsimp only [counterparts]
    by_cases hlength : l.length ≠ l'.length
    · rw [if_pos hlength, if_pos hlength]
    · rw [if_neg hlength, if_neg hlength]
      dsimp only
      rw [allM_map]
      rfl
  case some.set.some.set =>
    dsimp only [counterparts]
    cases l.length == l'.length && l.all fun x => l'.any fun y => x.identity == y.identity <;> rfl
  all_goals rfl

-- One step of the comparison.
theorem equal_succ : s.equal (n + 1) v w =
    match s.toCompare v w with
    | some l => allM (equalPart (s.equal n)) l
    | none => .ok false := by
  cases v <;> cases w
  case node.node i j =>
    rw [toCompare]
    by_cases hij : i = j
    · rw [equal, if_pos hij, if_pos hij]
      rfl
    · rw [equal_of_ne hij, if_neg hij]
  case scalar.scalar x y =>
    rw [equal, toCompare]
    cases x.identity == y.identity <;> rfl
  case pair.pair =>
    rw [equal, toCompare]
    rfl
  all_goals rw [equal, toCompare] <;> simp

theorem equal_mono (h : s.equal n v w = .ok b) (hle : n ≤ k) : s.equal k v w = .ok b := by
  induction n generalizing k v w b with
  | zero => cases h
  | succ n ih =>
      obtain ⟨k, rfl⟩ : ∃ k', k = k' + 1 := ⟨k - 1, by omega⟩
      rw [equal_succ] at h ⊢
      cases hl : s.toCompare v w with
      | none => rwa [hl] at h
      | some l =>
          rw [hl] at h
          refine allM_mono (fun e _ b' he => ?_) h
          unfold equalPart at he ⊢
          split
          · next u hu =>
            rw [hu] at he
            exact ih he (by omega)
          · next hnone => rwa [hnone] at he

theorem eq_stackExhausted_of_equal (h : s.equal n v w = .error f) : f = .stackExhausted := by
  induction n generalizing v w with
  | zero =>
      cases h
      rfl
  | succ n ih =>
      rw [equal_succ] at h
      cases hl : s.toCompare v w with
      | none =>
          rw [hl] at h
          cases h
      | some l =>
          rw [hl] at h
          obtain ⟨e, -, he⟩ := exists_of_allM_eq_error h
          unfold equalPart at he
          split at he
          · exact ih he
          · cases he

theorem equal_true_iff : s.equal (n + 1) v w = .ok true ↔
    ∃ l, s.toCompare v w = some l ∧ ∀ e ∈ l, ∃ u, e.2 = some u ∧ s.equal n e.1 u = .ok true := by
  rw [equal_succ]
  cases s.toCompare v w with
  | none => simp
  | some l =>
      dsimp only
      rw [allM_eq_ok_true]
      simp only [Option.some.injEq, exists_eq_left']
      refine forall₂_congr fun e _ => ?_
      unfold equalPart
      cases e.2 <;> simp

-- Nothing is left to compare of a value and itself, or its own parts in pairs.
theorem equal_self : ∃ n, s.equal n v v = .ok true := by
  induction v with
  | scalar x => exact ⟨1, equal_true_iff.mpr ⟨[], by simp [toCompare], by simp⟩⟩
  | node i => exact ⟨1, equal_true_iff.mpr ⟨[], by simp [toCompare], by simp⟩⟩
  | pair a b iha ihb =>
      obtain ⟨n, hn⟩ := iha
      obtain ⟨k, hk⟩ := ihb
      refine ⟨max n k + 1, equal_true_iff.mpr ⟨_, rfl, ?_⟩⟩
      rintro e he
      rcases List.mem_cons.mp he with rfl | he
      · exact ⟨a, rfl, equal_mono hn (Nat.le_max_left n k)⟩
      · obtain rfl := List.mem_singleton.mp he
        exact ⟨b, rfl, equal_mono hk (Nat.le_max_right n k)⟩

-- The containers that are not different at once, with the parts that are left to compare.
inductive Facing : Option Container → Option Container → List (Value × Option Value) → Prop
  | mapping {m m' : Entries} (hsize : m.size = m'.size) :
      Facing (some (.mapping m)) (some (.mapping m')) (m.entries.map fun e => (e.2, m'.get? e.1))
  | sequence {l l' : List Value} (hlength : l.length = l'.length) :
      Facing (some (.sequence l)) (some (.sequence l')) ((l.zip l').map fun e => (e.1, some e.2))
  | set {l l' : List Scalar} (hlength : l.length = l'.length)
      (hall : ∀ x ∈ l, ∃ y ∈ l', x.identity = y.identity) : Facing (some (.set l)) (some (.set l')) []

theorem facing_of_counterparts {c d : Option Container} (h : counterparts c d = some l) :
    Facing c d l := by
  unfold counterparts at h
  split at h
  · obtain ⟨hsize, h⟩ := Option.ite_none_left_eq_some.mp h
    cases h
    exact .mapping (not_not.mp hsize)
  · obtain ⟨hlength, h⟩ := Option.ite_none_left_eq_some.mp h
    cases h
    exact .sequence (not_not.mp hlength)
  · obtain ⟨hsame, h⟩ := Option.ite_none_right_eq_some.mp h
    cases h
    obtain ⟨hlength, hall⟩ := Bool.and_eq_true_iff.mp hsame
    exact .set (beq_iff_eq.mp hlength) (by simpa using hall)
  · cases h

theorem Facing.counterparts {c d : Option Container} (h : Facing c d l) :
    counterparts c d = some l := by
  cases h with
  | mapping hsize => exact if_neg (not_not.mpr hsize)
  | sequence hlength => exact if_neg (not_not.mpr hlength)
  | set hlength hall => exact if_pos (by simpa [hlength] using hall)

-- What is left to compare of the first and the third container stands in line with what was compared.
theorem Facing.trans {c d e : Option Container} (h : Facing c d l) (hsome : ∀ a ∈ l, a.2.isSome)
    (h' : Facing d e l') :
    ∃ l'', Facing c e l'' ∧ ∀ a ∈ l'', ∃ y, (a.1, some y) ∈ l ∧ (y, a.2) ∈ l' := by
  cases h with
  | @mapping m m' hsize =>
      cases h' with
      | @mapping _ m'' hsize' =>
          refine ⟨_, .mapping (hsize.trans hsize'), fun a ha => ?_⟩
          obtain ⟨e, he, rfl⟩ := List.mem_map.mp ha
          have hmem : (e.2, m'.get? e.1) ∈ m.entries.map fun e => (e.2, m'.get? e.1) :=
            List.mem_map.mpr ⟨e, he, rfl⟩
          obtain ⟨y, hy⟩ := Option.isSome_iff_exists.mp (hsome _ hmem)
          obtain ⟨e', he', hkey, rfl⟩ := exists_entry_of_get? hy
          refine ⟨e'.2, hy ▸ hmem, List.mem_map.mpr ⟨e', he', ?_⟩⟩
          rw [OrderedMap.get?_congr hkey]
  | @sequence x x' hlength =>
      cases h' with
      | @sequence _ x'' hlength' =>
          refine ⟨_, .sequence (hlength.trans hlength'), fun a ha => ?_⟩
          obtain ⟨e, he, rfl⟩ := List.mem_map.mp ha
          obtain ⟨i, hi, hget⟩ := List.getElem_of_mem he
          rw [List.getElem_zip] at hget
          rw [List.length_zip] at hi
          subst hget
          have hleft : (x[i], x'[i]) ∈ x.zip x' :=
            List.mem_iff_getElem.mpr ⟨i, by rw [List.length_zip]; omega, List.getElem_zip⟩
          have hright : (x'[i], x''[i]) ∈ x'.zip x'' :=
            List.mem_iff_getElem.mpr ⟨i, by rw [List.length_zip]; omega, List.getElem_zip⟩
          exact ⟨x'[i], List.mem_map.mpr ⟨_, hleft, rfl⟩, List.mem_map.mpr ⟨_, hright, rfl⟩⟩
  | @set x x' hlength hall =>
      cases h' with
      | @set _ x'' hlength' hall' =>
          refine ⟨[], .set (hlength.trans hlength') fun y hy => ?_, by simp⟩
          obtain ⟨y', hy', hsame⟩ := hall y hy
          obtain ⟨y'', hy'', hsame'⟩ := hall' y' hy'
          exact ⟨y'', hy'', hsame.trans hsame'⟩

theorem toCompare_node (hij : i ≠ j) :
    s.toCompare (.node i) (.node j) = counterparts (s.get? i) (s.get? j) := if_neg hij

theorem toCompare_trans (hl : s.toCompare v w = some l) (hsome : ∀ a ∈ l, a.2.isSome)
    (hl' : s.toCompare w u = some l') (hvw : v ≠ w) (hwu : w ≠ u) :
    ∃ l'', s.toCompare v u = some l'' ∧ ∀ a ∈ l'', ∃ y, (a.1, some y) ∈ l ∧ (y, a.2) ∈ l' := by
  cases v with
  | scalar x =>
      cases w with
      | scalar y =>
          cases u with
          | scalar z =>
              obtain ⟨hxy, hl⟩ := Option.ite_none_right_eq_some.mp hl
              obtain ⟨hyz, hl'⟩ := Option.ite_none_right_eq_some.mp hl'
              have hxz : (x.identity == z.identity) = true := BEq.trans hxy hyz
              exact ⟨[], if_pos hxz, by simp⟩
          | node k => cases hl'
          | pair a b => cases hl'
      | node j => cases hl
      | pair a b => cases hl
  | pair a b =>
      cases w with
      | scalar y => cases hl
      | node j => cases hl
      | pair a' b' =>
          cases u with
          | scalar z => cases hl'
          | node k => cases hl'
          | pair a'' b'' =>
              cases hl
              cases hl'
              refine ⟨_, rfl, fun e he => ?_⟩
              rcases List.mem_cons.mp he with rfl | he
              · exact ⟨a', List.mem_cons_self, List.mem_cons_self⟩
              · obtain rfl := List.mem_singleton.mp he
                exact ⟨b', by simp, by simp⟩
  | node i =>
      cases w with
      | scalar y => cases hl
      | pair a b => cases hl
      | node j =>
          cases u with
          | scalar z => cases hl'
          | pair a b => cases hl'
          | node k =>
              by_cases hik : i = k
              · exact ⟨[], if_pos hik, by simp⟩
              rw [toCompare_node (by simpa using hvw)] at hl
              rw [toCompare_node (by simpa using hwu)] at hl'
              obtain ⟨l'', hfacing, hline⟩ :=
                (facing_of_counterparts hl).trans hsome (facing_of_counterparts hl')
              exact ⟨l'', by rw [toCompare_node hik, hfacing.counterparts], hline⟩

theorem equal_trans (h : s.equal n v w = .ok true) (h' : s.equal n w u = .ok true) :
    s.equal n v u = .ok true := by
  induction n generalizing v w u with
  | zero => cases h
  | succ n ih =>
      by_cases hvw : v = w
      · exact hvw ▸ h'
      by_cases hwu : w = u
      · exact hwu ▸ h
      obtain ⟨l, hl, hall⟩ := equal_true_iff.mp h
      obtain ⟨l', hl', hall'⟩ := equal_true_iff.mp h'
      have hsome : ∀ a ∈ l, a.2.isSome := fun a ha => by
        obtain ⟨y, hy, -⟩ := hall a ha
        rw [hy]
        rfl
      obtain ⟨l'', hl'', hline⟩ := toCompare_trans hl hsome hl' hvw hwu
      refine equal_true_iff.mpr ⟨l'', hl'', fun a ha => ?_⟩
      obtain ⟨y, hleft, hright⟩ := hline a ha
      obtain ⟨_, hy, hequal⟩ := hall _ hleft
      obtain rfl := Option.some.inj hy
      obtain ⟨z, hz, hequal'⟩ := hall' _ hright
      exact ⟨z, hz, ih hequal hequal'⟩

theorem Same.refl (s : Store) (v : Value) : s.Same v v := equal_self

theorem Same.trans (h : s.Same v w) (h' : s.Same w u) : s.Same v u := by
  obtain ⟨n, hn⟩ := h
  obtain ⟨k, hk⟩ := h'
  exact ⟨max n k, equal_trans (equal_mono hn (Nat.le_max_left n k)) (equal_mono hk (Nat.le_max_right n k))⟩

theorem same_trans (s : Store) (v w u : Value) (h : s.Same v w) (h' : s.Same w u) : s.Same v u := h.trans h'

-- A comparison that found a difference finds it with every allowance.
theorem not_same_of_equal (h : s.equal n v w = .ok false) : ¬s.Same v w := by
  rintro ⟨k, hk⟩
  have hfalse := equal_mono h (Nat.le_max_left n k)
  rw [equal_mono hk (Nat.le_max_right n k)] at hfalse
  cases hfalse

end Equal

section Member

variable {s s' : Store} {v : Value} {l : List Value} {f : Fault}

theorem member_eq : s.member v l =
    (allM (fun w => (s.equal nestingAllowance w v).map not) l).map not := by
  have hmap (x : Except Fault Bool) : (x >>= fun b => pure !b) = x.map not := by cases x <;> rfl
  unfold member
  simp only [hmap]

theorem map_not_eq_ok {x : Except Fault Bool} {b : Bool} : x.map not = .ok b ↔ x = .ok !b := by
  cases x with
  | error f => simp [Except.map]
  | ok b' => cases b <;> simp [Except.map]

theorem map_not_eq_error {x : Except Fault Bool} : x.map not = .error f ↔ x = .error f := by
  cases x <;> simp [Except.map]

theorem exists_same_of_member (h : s.member v l = .ok true) : ∃ w ∈ l, s.Same w v := by
  rw [member_eq, map_not_eq_ok] at h
  obtain ⟨w, hw, hequal⟩ := exists_of_allM_eq_ok_false h
  exact ⟨w, hw, _, map_not_eq_ok.mp hequal⟩

theorem not_same_of_member (h : s.member v l = .ok false) : ∀ w ∈ l, ¬s.Same w v := by
  rw [member_eq, map_not_eq_ok] at h
  exact fun w hw => not_same_of_equal (map_not_eq_ok.mp (allM_eq_ok_true.mp h w hw))

theorem exists_error_of_member (h : s.member v l = .error f) :
    ∃ w ∈ l, s.equal nestingAllowance w v = .error f := by
  rw [member_eq, map_not_eq_error] at h
  obtain ⟨w, hw, hequal⟩ := exists_of_allM_eq_error h
  exact ⟨w, hw, map_not_eq_error.mp hequal⟩

end Member

section Retained

variable {s s' : Store} {n : Nat} {v w : Value} {l : List Value} {id : NodeId}

theorem sequence?_eq_some {l : List Value} :
    s.sequence? id = some l ↔ s.get? id = some (.sequence l) := by
  unfold sequence?
  split
  next h => simp [h]
  next h =>
    simp only [reduceCtorEq, false_iff]
    exact h l

theorem Retains.refl (s : Store) : s.Retains s := ⟨Nat.le_refl _, fun _ _ => rfl⟩

theorem Retains.trans {s'' : Store} (h : s.Retains s') (h' : s'.Retains s'') : s.Retains s'' where
  size := Nat.le_trans h.size h'.size
  old id hid := (h'.old id (Nat.lt_of_lt_of_le hid h.size)).trans (h.old id hid)

theorem Retains.alloc (h : s.Retains s') (c : Container) : s.Retains (s'.alloc c).2 where
  size := by
    have := h.size
    rw [size_alloc]
    omega
  old id hid := by
    rw [get?_alloc_of_lt s' c (Nat.lt_of_lt_of_le hid h.size)]
    exact h.old id hid

theorem within_of_mem_parts (hs : s.Closed) (hv : v.within s.nodes.size = true)
    (hw : w ∈ s.parts v) : w.within s.nodes.size = true := by
  cases v with
  | scalar x => cases hw
  | node id => exact hs id w hw
  | pair a b =>
      obtain ⟨ha, hb⟩ := Bool.and_eq_true_iff.mp hv
      rcases List.mem_cons.mp hw with rfl | hw
      · exact ha
      · obtain rfl := List.mem_singleton.mp hw
        exact hb

theorem mem_of_get? {m : Entries} {k : Key} (h : m.get? k = some v) : v ∈ m.values :=
  OrderedMap.mem_values_iff.mpr ⟨k, h⟩

-- What is left to compare are parts of the two values.
theorem mem_parts_of_facing {i j : NodeId} {l : List (Value × Option Value)}
    (h : Facing (s.get? i) (s.get? j) l) :
    ∀ e ∈ l, e.1 ∈ s.children i ∧ ∀ u ∈ e.2, u ∈ s.children j := by
  generalize hc : s.get? i = c at h
  generalize hd : s.get? j = d at h
  intro e he
  cases h with
  | mapping hsize =>
      obtain ⟨a, ha, rfl⟩ := List.mem_map.mp he
      rw [children_of_get? hc, children_of_get? hd]
      exact ⟨List.mem_map_of_mem ha, fun u hu => mem_of_get? hu⟩
  | sequence hlength =>
      obtain ⟨a, ha, rfl⟩ := List.mem_map.mp he
      rw [children_of_get? hc, children_of_get? hd]
      obtain ⟨hleft, hright⟩ := List.of_mem_zip ha
      refine ⟨hleft, fun u hu => ?_⟩
      obtain rfl := Option.some.inj hu
      exact hright
  | set hlength hall => cases he

theorem mem_parts_of_toCompare {l : List (Value × Option Value)} (h : s.toCompare v w = some l) :
    ∀ e ∈ l, e.1 ∈ s.parts v ∧ ∀ u ∈ e.2, u ∈ s.parts w := by
  intro e he
  cases v with
  | scalar x =>
      cases w with
      | scalar y =>
          obtain ⟨-, h⟩ := Option.ite_none_right_eq_some.mp h
          cases h
          cases he
      | node j => cases h
      | pair a b => cases h
  | pair a b =>
      cases w with
      | scalar y => cases h
      | node j => cases h
      | pair a' b' =>
          cases h
          rcases List.mem_cons.mp he with rfl | he
          · simp [parts]
          · obtain rfl := List.mem_singleton.mp he
            simp [parts]
  | node i =>
      cases w with
      | scalar y => cases h
      | pair a b => cases h
      | node j =>
          by_cases hij : i = j
          · rw [toCompare, if_pos hij] at h
            cases h
            cases he
          · rw [toCompare_node hij] at h
            exact mem_parts_of_facing (facing_of_counterparts h) e he

theorem toCompare_congr (h : s.Retains s') (hv : v.within s.nodes.size = true)
    (hw : w.within s.nodes.size = true) : s'.toCompare v w = s.toCompare v w := by
  cases v <;> cases w
  case node.node i j =>
    rw [toCompare, toCompare, h.old i (of_decide_eq_true hv), h.old j (of_decide_eq_true hw)]
  all_goals rfl

-- A container that is added changes no answer about the old ones.
theorem equal_congr (hs : s.Closed) (h : s.Retains s') (hv : v.within s.nodes.size = true)
    (hw : w.within s.nodes.size = true) : s'.equal n v w = s.equal n v w := by
  induction n generalizing v w with
  | zero => rfl
  | succ n ih =>
      rw [equal_succ, equal_succ, toCompare_congr h hv hw]
      cases hl : s.toCompare v w with
      | none => rfl
      | some l =>
          refine allM_congr fun e he => ?_
          obtain ⟨hleft, hright⟩ := mem_parts_of_toCompare hl e he
          unfold equalPart
          split
          · next u hu =>
            exact ih (within_of_mem_parts hs hv hleft) (within_of_mem_parts hs hw (hright u hu))
          · rfl

theorem member_congr (hs : s.Closed) (h : s.Retains s') (hv : v.within s.nodes.size = true)
    (hl : ∀ w ∈ l, w.within s.nodes.size = true) : s'.member v l = s.member v l := by
  rw [member_eq, member_eq, allM_congr fun w hw => by rw [equal_congr hs h (hl w hw) hv]]

end Retained

end Store

end ApiGraph
