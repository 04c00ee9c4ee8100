import ApiGraph.Document.Access
import ApiGraph.Proofs.Document.Graph
import Mathlib.Data.List.Forall2
import Mathlib.Data.List.Induction

namespace ApiGraph.Store

section Content

-- The values that stand in the value, in their order.
def parts (s : Store) : Value → List Value
  | .scalar _ => []
  | .node id => s.children id
  | .pair a b => [a, b]

abbrev Path := List Nat

-- The value at the place.
def at? (s : Store) (v : Value) (p : Path) : Option Value :=
  p.foldlM (fun w i => (s.parts w)[i]?) v

-- The container stands somewhere in the other one, or is it.
def Contains (s : Store) (d id : NodeId) : Prop := ∃ p, s.at? (.node d) p = some (.node id)

-- What is seen of a value without its parts.
inductive Shape where
  | scalar (value : Scalar)
  | pair
  | mapping (keys : List Key)
  | sequence (length : Nat)
  | set (members : List Scalar)
  | missing

def shape (s : Store) : Value → Shape
  | .scalar x => .scalar x
  | .pair _ _ => .pair
  | .node id =>
      match s.get? id with
      | some (.mapping m) => .mapping m.keys
      | some (.sequence l) => .sequence l.length
      | some (.set l) => .set l
      | none => .missing

def contentAt (s : Store) (v : Value) (p : Path) : Option Shape := (s.at? v p).map s.shape

-- The same is seen at every place.
def SameContent (s s' : Store) (v v' : Value) : Prop := s.contentAt v = s'.contentAt v'

-- Every container stands in one place only.
def AliasFree (s : Store) (d : NodeId) : Prop :=
  ∀ p q id, s.at? (.node d) p = some (.node id) → s.at? (.node d) q = some (.node id) → p = q

end Content

section Places

variable {s s' : Store} {v w : Value} {p q : Path} {id d : NodeId}

@[simp] theorem at?_nil : s.at? v [] = some v := rfl

theorem at?_cons {i : Nat} : s.at? v (i :: p) = ((s.parts v)[i]?).bind (s.at? · p) := rfl

theorem at?_append : s.at? v (p ++ q) = (s.at? v p).bind (s.at? · q) := by
  unfold at?
  rw [List.foldlM_append]
  rfl

theorem at?_concat {i : Nat} : s.at? v (p ++ [i]) = (s.at? v p).bind fun w => (s.parts w)[i]? := by
  rw [at?_append]
  refine Option.bind_congr fun w _ => ?_
  rw [at?_cons]
  simp

-- What is reached stands in some place.
theorem Reach.contains (h : s.Reach d id) : s.Contains d id := by
  induction h with
  | refl => exact ⟨[], rfl⟩
  | step _ hc ih =>
      obtain ⟨p, hp⟩ := ih
      obtain ⟨i, hi, hget⟩ := List.getElem_of_mem hc
      refine ⟨p ++ [i], ?_⟩
      rw [at?_concat, hp]
      exact List.getElem?_eq_some_iff.mpr ⟨hi, hget⟩

-- A place is found again where the containers on the way to it are the same.
theorem at?_congr (h : ∀ q id, q <+: p → q ≠ p → s.at? v q = some (.node id) →
    s'.get? id = s.get? id) : s'.at? v p = s.at? v p := by
  induction p using List.reverseRecOn with
  | nil => rfl
  | append_singleton p i ih =>
      have hpre := List.prefix_append p [i]
      have hinit : s'.at? v p = s.at? v p := by
        refine ih fun q id hq hne => h q id (hq.trans hpre) fun heq => ?_
        have hle := hq.length_le
        rw [heq, List.length_append, List.length_singleton] at hle
        omega
      rw [at?_concat, at?_concat, hinit]
      refine Option.bind_congr fun w hw => ?_
      cases w with
      | scalar x => rfl
      | pair a b => rfl
      | node id =>
          have hget := h p id hpre (by simp) hw
          simp only [parts, children, hget]

-- Nothing is seen of a change outside.
theorem at?_eq_of_contains (h : ∀ id, s.Contains d id → s'.get? id = s.get? id) (p : Path) :
    s'.at? (.node d) p = s.at? (.node d) p :=
  at?_congr fun q id _ _ hq => h id ⟨q, hq⟩

theorem contains_congr (h : ∀ id, s.Contains d id → s'.get? id = s.get? id) :
    s'.Contains d id ↔ s.Contains d id := by
  unfold Contains
  simp only [at?_eq_of_contains h]

theorem shape_congr (h : ∀ id, v = .node id → s'.get? id = s.get? id) : s'.shape v = s.shape v := by
  cases v with
  | scalar x => rfl
  | pair a b => rfl
  | node id => simp only [shape, h id rfl]

theorem contentAt_eq_of_contains (h : ∀ id, s.Contains d id → s'.get? id = s.get? id) :
    s'.contentAt (.node d) = s.contentAt (.node d) := by
  funext p
  unfold contentAt
  rw [at?_eq_of_contains h]
  cases hv : s.at? (.node d) p with
  | none => rfl
  | some v =>
      rw [Option.map_some, Option.map_some,
        shape_congr fun id hid => h id ⟨p, by rw [hv, hid]⟩]

theorem AliasFree.congr (hd : s.AliasFree d) (h : ∀ id, s.Contains d id → s'.get? id = s.get? id) :
    s'.AliasFree d := by
  intro p q id hp hq
  rw [at?_eq_of_contains h] at hp hq
  exact hd p q id hp hq

-- What is under a key stands at the place of its entry.
theorem at?_entry {m : Entries} {e : Key × Value} {i : Nat} (hp : s.at? v p = some (.node id))
    (hm : s.mapping? id = some m) (he : m.entries[i]? = some e) : s.at? v (p ++ [i]) = some e.2 := by
  rw [at?_concat, hp, Option.bind_some, parts, children_of_mapping? hm, OrderedMap.values,
    List.getElem?_map, he]
  rfl

-- A container is under one key only.
theorem AliasFree.entry_eq (hd : s.AliasFree d) {m : Entries} {e e' : Key × Value} {x : NodeId}
    (hp : s.at? (.node d) p = some (.node id)) (hm : s.mapping? id = some m) (he : e ∈ m.entries)
    (he' : e' ∈ m.entries) (hx : e.2 = .node x) (hx' : e'.2 = .node x) : e = e' := by
  obtain ⟨i, hi⟩ := List.getElem?_of_mem he
  obtain ⟨j, hj⟩ := List.getElem?_of_mem he'
  have hplaces := hd _ _ x (hx ▸ at?_entry hp hm hi) (hx' ▸ at?_entry hp hm hj)
  obtain rfl : i = j := by simpa using hplaces
  exact Option.some.inj (hi.symm.trans hj)

theorem exists_entry_of_get? {m : Entries} {k : Key} (h : m.get? k = some v) :
    ∃ e ∈ m.entries, (e.1 == k) = true ∧ e.2 = v := by
  obtain ⟨e, he, hv⟩ := Option.map_eq_some_iff.mp h
  have hkey : (e.1 == k) = true := List.find?_some (p := fun e : Key × Value => e.1 == k) he
  exact ⟨e, List.mem_of_find?_eq_some he, hkey, hv⟩

-- Two keys of one mapping do not hold the same container.
theorem AliasFree.ne_of_get? (hd : s.AliasFree d) {m : Entries} {key other : String} {x y : NodeId}
    (hp : s.at? (.node d) p = some (.node id)) (hm : s.mapping? id = some m)
    (hx : m.get? (.str key) = some (.node x)) (hy : m.get? (.str other) = some (.node y))
    (hne : key ≠ other) : x ≠ y := by
  rintro rfl
  obtain ⟨e, he, hkey, hv⟩ := exists_entry_of_get? hx
  obtain ⟨e', he', hother, hv'⟩ := exists_entry_of_get? hy
  obtain rfl := hd.entry_eq hp hm he he' hv hv'
  exact hne (Key.str_beq.mp (BEq.trans (BEq.symm hkey) hother))

theorem contentAt_append : s.contentAt v (p ++ q) = (s.at? v p).bind (s.contentAt · q) := by
  unfold contentAt
  rw [at?_append, Option.map_bind]
  rfl

theorem contentAt_append_of_at? (h : s.at? v p = some w) :
    s.contentAt v (p ++ q) = s.contentAt w q := by
  rw [contentAt_append, h]
  rfl

end Places

-- Mappings with the same keys in the same order, and values that correspond.
def Alike (L : Value → Value → Prop) (m m' : Entries) : Prop :=
  m.keys = m'.keys ∧ List.Forall₂ L m.values m'.values

section Alike

variable {L L' : Value → Value → Prop} {m m' : Entries}

theorem rel_getElem? {l l' : List Value} (h : List.Forall₂ L l l') (i : Nat) :
    Option.Rel L l[i]? l'[i]? := by
  induction h generalizing i with
  | nil => exact .none
  | cons hvalue _ ih =>
      cases i with
      | zero => exact .some hvalue
      | succ i => exact ih i

theorem forall₂_of_rel_getElem? {l l' : List Value} (h : ∀ i : Nat, Option.Rel L l[i]? l'[i]?) :
    List.Forall₂ L l l' := by
  induction l generalizing l' with
  | nil =>
      cases l' with
      | nil => exact .nil
      | cons v' l' => cases show Option.Rel L none (some v') from h 0
  | cons v l ih =>
      cases l' with
      | nil => cases show Option.Rel L (some v) none from h 0
      | cons v' l' =>
          cases show Option.Rel L (some v) (some v') from h 0 with
          | some hv => exact .cons hv (ih fun i => h (i + 1))

theorem isSome_eq_of_rel {α β : Type} {R : α → β → Prop} {o : Option α} {o' : Option β}
    (h : Option.Rel R o o') : o.isSome = o'.isSome := by
  cases h <;> rfl

theorem forall₂_mem {l l' : List Value} (h : List.Forall₂ L l l') :
    List.Forall₂ (fun v v' => v ∈ l ∧ L v v') l l' :=
  (List.forall₂_and_left l l').mpr ⟨fun _ => id, h⟩

theorem forall₂_of_getElem? {l l' : List Value} (hlength : l.length = l'.length)
    (h : ∀ (i : Nat) v v', l[i]? = some v → l'[i]? = some v' → L v v') : List.Forall₂ L l l' :=
  List.forall₂_iff_get.mpr ⟨hlength, fun i hi hi' =>
    h i _ _ (List.getElem?_eq_getElem hi) (List.getElem?_eq_getElem hi')⟩

theorem forall₂_entries {l l' : List (Key × Value)} (hk : l.map Prod.fst = l'.map Prod.fst)
    (hv : List.Forall₂ L (l.map Prod.snd) (l'.map Prod.snd)) :
    List.Forall₂ (fun e e' => e.1 = e'.1 ∧ L e.2 e'.2) l l' := by
  induction l generalizing l' with
  | nil =>
      cases l' with
      | nil => exact .nil
      | cons e' l' => cases hv
  | cons e l ih =>
      cases l' with
      | nil => cases hv
      | cons e' l' =>
          obtain ⟨hkey, hkeys⟩ := List.cons.inj hk
          cases hv with
          | cons hvalue hvalues => exact .cons ⟨hkey, hvalue⟩ (ih hkeys hvalues)

theorem Alike.entries (h : Alike L m m') :
    List.Forall₂ (fun e e' => e.1 = e'.1 ∧ L e.2 e'.2) m.entries m'.entries :=
  forall₂_entries h.1 h.2

theorem Alike.size (h : Alike L m m') : m.size = m'.size := h.entries.length_eq

-- What is found under a key corresponds, too.
theorem Alike.get? (h : Alike L m m') (k : Key) : Option.Rel L (m.get? k) (m'.get? k) := by
  unfold OrderedMap.get?
  have hentries := h.entries
  generalize m.entries = l at hentries
  generalize m'.entries = l' at hentries
  induction hentries with
  | nil => exact .none
  | @cons e e' l l' he _ ih =>
      obtain ⟨hkey, hvalue⟩ := he
      rw [List.find?_cons, List.find?_cons, hkey]
      split
      · exact .some hvalue
      · exact ih

theorem Alike.has (h : Alike L m m') (key : String) : m.has key = m'.has key := by
  unfold Entries.has
  rw [OrderedMap.contains_eq_isSome_get?, OrderedMap.contains_eq_isSome_get?]
  exact isSome_eq_of_rel (h.get? (.str key))

theorem Alike.looksLikeSchema (h : Alike L m m') : m.looksLikeSchema = m'.looksLikeSchema := by
  unfold Entries.looksLikeSchema
  rw [funext h.has]

-- Texts are kept where values correspond to values with the same text.
theorem Alike.text? (h : Alike L m m') (hL : ∀ v v', L v v' → v.string? = v'.string?) (key : String) :
    m.text? key = m'.text? key := by
  unfold Entries.text? Entries.field?
  have hrel := h.get? (.str key)
  generalize m.get? (.str key) = o at hrel ⊢
  generalize m'.get? (.str key) = o' at hrel ⊢
  cases hrel with
  | none => rfl
  | some hv => exact hL _ _ hv

end Alike

-- How two values correspond: they are of the same kind, and so are their parts.
inductive Matches (s s' : Store) (L : Value → Value → Prop) : Value → Value → Prop
  | scalar (x : Scalar) : Matches s s' L (.scalar x) (.scalar x)
  | pair {a b a' b' : Value} (ha : L a a') (hb : L b b') : Matches s s' L (.pair a b) (.pair a' b')
  | mapping {i j : NodeId} {m m' : Entries} (hm : s.mapping? i = some m) (hm' : s'.mapping? j = some m')
      (h : Alike L m m') : Matches s s' L (.node i) (.node j)
  | sequence {i j : NodeId} {l l' : List Value} (hl : s.get? i = some (.sequence l))
      (hl' : s'.get? j = some (.sequence l')) (h : List.Forall₂ L l l') : Matches s s' L (.node i) (.node j)
  | set {i j : NodeId} {l : List Scalar} (hl : s.get? i = some (.set l))
      (hl' : s'.get? j = some (.set l)) : Matches s s' L (.node i) (.node j)
  | missing {i j : NodeId} (hi : s.get? i = none) (hj : s'.get? j = none) :
      Matches s s' L (.node i) (.node j)

section Matches

variable {s s' : Store} {L : Value → Value → Prop} {v v' : Value}

-- The shape of a value, read back.
inductive HasShape (s : Store) : Value → Shape → Prop
  | scalar (x : Scalar) : HasShape s (.scalar x) (.scalar x)
  | pair (a b : Value) : HasShape s (.pair a b) .pair
  | mapping {id : NodeId} {m : Entries} {keys : List Key} (h : s.get? id = some (.mapping m))
      (hkeys : m.keys = keys) : HasShape s (.node id) (.mapping keys)
  | sequence {id : NodeId} {l : List Value} {length : Nat} (h : s.get? id = some (.sequence l))
      (hlength : l.length = length) : HasShape s (.node id) (.sequence length)
  | set {id : NodeId} {l : List Scalar} (h : s.get? id = some (.set l)) :
      HasShape s (.node id) (.set l)
  | missing {id : NodeId} (h : s.get? id = none) : HasShape s (.node id) .missing

theorem hasShape (s : Store) (v : Value) : HasShape s v (s.shape v) := by
  cases v with
  | scalar x => exact .scalar x
  | pair a b => exact .pair a b
  | node id =>
      unfold shape
      dsimp only
      split
      next m hm => exact .mapping hm rfl
      next l hl => exact .sequence hl rfl
      next l hl => exact .set hl
      next hnone => exact .missing hnone

theorem parts_of_get? {id : NodeId} {c : Container} (h : s.get? id = some c) :
    s.parts (.node id) = c.children := children_of_get? h

-- Values of the same shape match if their parts correspond.
theorem matches_of_shape (hshape : s.shape v = s'.shape v')
    (hparts : List.Forall₂ L (s.parts v) (s'.parts v')) : Matches s s' L v v' := by
  have hleft := hasShape s v
  have hright := hasShape s' v'
  rw [← hshape] at hright
  generalize s.shape v = sh at hleft hright
  cases hleft with
  | scalar x =>
      cases hright
      exact .scalar x
  | pair a b =>
      cases hright
      obtain ⟨ha, hrest⟩ := List.forall₂_cons.mp hparts
      exact .pair ha (List.forall₂_cons.mp hrest).1
  | mapping hm hkeys =>
      cases hright with
      | mapping hm' hkeys' =>
          rw [parts_of_get? hm, parts_of_get? hm'] at hparts
          exact .mapping (mapping?_eq_some.mpr hm) (mapping?_eq_some.mpr hm')
            ⟨hkeys.trans hkeys'.symm, hparts⟩
  | sequence hl hlength =>
      cases hright with
      | sequence hl' hlength' =>
          rw [parts_of_get? hl, parts_of_get? hl'] at hparts
          exact .sequence hl hl' hparts
  | set hl =>
      cases hright with
      | set hl' => exact .set hl hl'
  | missing hi =>
      cases hright with
      | missing hj => exact .missing hi hj

theorem Matches.string? (h : Matches s s' L v v') : v.string? = v'.string? := by
  cases h <;> rfl

end Matches

section SameContent

variable {s s' : Store} {v v' : Value} {i j : NodeId}

theorem SameContent.symm (h : SameContent s s' v v') : SameContent s' s v' v := Eq.symm h

theorem SameContent.shape (h : SameContent s s' v v') : s.shape v = s'.shape v' :=
  Option.some.inj (congrFun h [])

-- The parts have the same content.
theorem SameContent.parts (h : SameContent s s' v v') :
    List.Forall₂ (SameContent s s') (s.parts v) (s'.parts v') := by
  have hcontent (i : Nat) (p : Path) : ((s.parts v)[i]?).bind (s.contentAt · p) =
      ((s'.parts v')[i]?).bind (s'.contentAt · p) := by
    have hat := congrFun h (i :: p)
    unfold contentAt at hat ⊢
    rw [at?_cons, at?_cons, Option.map_bind, Option.map_bind] at hat
    exact hat
  refine forall₂_of_rel_getElem? fun i => ?_
  have hi := hcontent i
  cases hv : (s.parts v)[i]? with
  | none =>
      cases hv' : (s'.parts v')[i]? with
      | none => exact .none
      | some w' =>
          rw [hv, hv'] at hi
          cases hi []
  | some w =>
      cases hv' : (s'.parts v')[i]? with
      | none =>
          rw [hv, hv'] at hi
          cases hi []
      | some w' =>
          rw [hv, hv'] at hi
          exact .some (funext hi)

-- Values that correspond all the way down have the same content.
theorem sameContent_of_simulation {B : Value → Value → Prop}
    (hB : ∀ v v', B v v' → s.shape v = s'.shape v' ∧ List.Forall₂ B (s.parts v) (s'.parts v'))
    (h : B v v') : SameContent s s' v v' := by
  funext p
  induction p generalizing v v' with
  | nil => exact congrArg some (hB v v' h).1
  | cons i p ih =>
      have hparts := (hB v v' h).2
      have hrel := rel_getElem? hparts i
      show ((s.at? v (i :: p)).map s.shape) = (s'.at? v' (i :: p)).map s'.shape
      rw [at?_cons, at?_cons]
      generalize (s.parts v)[i]? = o at hrel ⊢
      generalize (s'.parts v')[i]? = o' at hrel ⊢
      cases hrel with
      | none => rfl
      | some hpart => exact ih hpart

theorem SameContent.matches (h : SameContent s s' v v') : Matches s s' (SameContent s s') v v' :=
  matches_of_shape h.shape h.parts

-- What is reached in the copy is a copy of what is reached.
theorem SameContent.exists_reach (h : SameContent s s' (.node i) (.node j)) {b : NodeId}
    (hb : s'.Reach j b) : ∃ a, s.Reach i a ∧ SameContent s s' (.node a) (.node b) := by
  induction hb with
  | refl => exact ⟨i, .refl, h⟩
  | @step x y _ hy ih =>
      obtain ⟨a, ha, hsame⟩ := ih
      obtain ⟨v, hv, hw⟩ : ∃ v ∈ s.children a, SameContent s s' v (.node y) := by
        obtain ⟨k, hk, hget⟩ := List.getElem_of_mem hy
        have hall := List.forall₂_iff_get.mp hsame.parts
        have hk' : k < (s.children a).length := by
          rw [show (s.children a).length = (s'.children x).length from hall.1]
          exact hk
        refine ⟨(s.children a)[k], List.getElem_mem hk', ?_⟩
        rw [← hget]
        exact hall.2 k hk' hk
      cases hw.matches with
      | mapping => exact ⟨_, ha.step hv, hw⟩
      | sequence => exact ⟨_, ha.step hv, hw⟩
      | set => exact ⟨_, ha.step hv, hw⟩
      | missing => exact ⟨_, ha.step hv, hw⟩

theorem SameContent.string? (h : SameContent s s' v v') : v.string? = v'.string? := h.matches.string?

theorem SameContent.mapping? (h : SameContent s s' (.node i) (.node j)) {m : Entries}
    (hm : s.mapping? i = some m) :
    ∃ m', s'.mapping? j = some m' ∧ Alike (SameContent s s') m m' := by
  have hget := mapping?_eq_some.mp hm
  cases h.matches with
  | mapping hm₂ hm' halike =>
      obtain rfl := Option.some.inj (hm₂.symm.trans hm)
      exact ⟨_, hm', halike⟩
  | sequence hl _ =>
      rw [hget] at hl
      cases hl
  | set hl _ =>
      rw [hget] at hl
      cases hl
  | missing hi _ =>
      rw [hget] at hi
      cases hi

end SameContent

section Homes

variable {s : Store} {d : NodeId} {home : NodeId → Path} {p : Path} {v : Value}

-- Every container of the store is where its home is, seen from the container around it.
def fits (s : Store) (home : NodeId → Path) : Bool :=
  (List.range s.nodes.size).all fun i => (s.children i).zipIdx.all fun e =>
    match e.1 with
    | .scalar _ => true
    | .node j => decide (j < s.nodes.size) && home j == home i ++ [e.2]
    | .pair _ _ => false

theorem at?_of_fits (h : s.fits home = true) (hroot : home d = []) (hd : d < s.nodes.size)
    (hp : s.at? (.node d) p = some v) :
    (∃ x, v = .scalar x) ∨ ∃ id, v = .node id ∧ id < s.nodes.size ∧ p = home id := by
  induction p using List.reverseRecOn generalizing v with
  | nil =>
      obtain rfl := Option.some.inj hp
      exact .inr ⟨d, rfl, hd, hroot.symm⟩
  | append_singleton p k ih =>
      rw [at?_concat] at hp
      obtain ⟨w, hw, hk⟩ := Option.bind_eq_some_iff.mp hp
      rcases ih hw with ⟨x, rfl⟩ | ⟨i, rfl, hi, hhome⟩
      · cases hk
      · have hrow := List.all_eq_true.mp (List.all_eq_true.mp h i (List.mem_range.mpr hi)) (v, k)
          (List.mem_zipIdx_iff_getElem?.mpr hk)
        cases v with
        | scalar x => exact .inl ⟨x, rfl⟩
        | pair a b => cases hrow
        | node j =>
            rw [Bool.and_eq_true, decide_eq_true_eq, beq_iff_eq] at hrow
            exact .inr ⟨j, rfl, hrow.1, by rw [hrow.2, hhome]⟩

theorem aliasFree_of_fits (h : s.fits home = true) (hroot : home d = []) (hd : d < s.nodes.size) :
    s.AliasFree d := by
  have hhome {p : Path} {id : NodeId} (hp : s.at? (.node d) p = some (.node id)) : p = home id := by
    rcases at?_of_fits h hroot hd hp with ⟨x, hx⟩ | ⟨j, hj, -, heq⟩
    · cases hx
    · cases hj
      exact heq
  exact fun p q id hp hq => (hhome hp).trans (hhome hq).symm

theorem lt_of_fits (h : s.fits home = true) (hroot : home d = []) (hd : d < s.nodes.size) {id : NodeId}
    (hid : s.Contains d id) : id < s.nodes.size := by
  obtain ⟨p, hp⟩ := hid
  rcases at?_of_fits h hroot hd hp with ⟨x, hx⟩ | ⟨j, hj, hlt, -⟩
  · cases hx
  · cases hj
    exact hlt

end Homes

end ApiGraph.Store
