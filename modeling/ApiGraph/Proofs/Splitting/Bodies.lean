import ApiGraph.Proofs.Resolve.Rest
import ApiGraph.Proofs.Splitting.Beside
import ApiGraph.Proofs.Splitting.Retelling

namespace ApiGraph.Splitting

open Store Resolve Reference

section Bodies

variable (s : Store) (document : NodeId) (names : List String)

-- The name of the chosen schema that the container is.
def chosen? (id : NodeId) : Option String :=
  names.find? fun n => componentIn? s document "schemas" n = some id

def mapEntries (f : Entries → Entries) : Container → Container
  | .mapping m => .mapping (f m)
  | c => c

-- The description with other content in the chosen schemas.
def withBodies (f : String → Entries → Entries) : Store :=
  ⟨s.nodes.mapIdx fun id c =>
    match chosen? s document names id with
    | some n => mapEntries (f n) c
    | none => c⟩

-- What stands in the place of a schema that has a file of its own.
def fileReference (name : String) : Entries :=
  OrderedMap.empty.insert (.str refKey) (.str (fileName name))

def movedOut : Store := withBodies s document names fun n _ => fileReference n

def noted : Store := withBodies s document names withNote

end Bodies

-- The container is a copy of the other one, made of containers from `low` on.
structure IsCopy (s : Store) (body : NodeId) (t : Store) (low : Nat) (x : NodeId) : Prop where
  same : SameContent s t (.node body) (.node x)
  aliasFree : t.AliasFree x
  fresh : ∀ y, t.Contains x y → low ≤ y ∧ y < t.nodes.size

-- The description can be split at the schemas, and their files are there.
structure Splits (s : Store) (q : Request) (names : List String) : Prop where
  wellFormed : s.WellFormed
  closed : ∀ id, s.Contains q.document id → id < s.nodes.size
  aliasFree : s.AliasFree q.document
  selfContained : SelfContained s q.document
  unmarked : ∀ id m, s.Reach q.document id → s.mapping? id = some m →
    m.has resolvedRefKey = false ∧ m.has circularRefKey = false
  words : ∀ n ∈ names, IsWord n
  bodies : ∀ n ∈ names, ∃ body m, componentIn? s q.document "schemas" n = some body ∧
    s.mapping? body = some m ∧ m.looksLikeSchema = true ∧ m.has refKey = false ∧
    m.has "components" = false
  -- What is read from the file of a schema is the schema.
  files : ∀ n ∈ names, ∃ l, q.beside? n = some l ∧
    q.scope.key ≠ some (locationKey q.tree l) ∧
    ∀ body t, componentIn? s q.document "schemas" n = some body →
      ∃ x t', parseFile q.context l t = .ok (x, t') ∧ IsCopy s body t' t.nodes.size x

section Chosen

variable {s : Store} {document id : NodeId} {names : List String} {n : String}
  {f : String → Entries → Entries}

theorem of_chosen? (h : chosen? s document names id = some n) :
    n ∈ names ∧ componentIn? s document "schemas" n = some id :=
  ⟨List.mem_of_find?_eq_some h, by simpa using List.find?_some h⟩

theorem chosen?_cases (v : Value) : (∀ i, v = .node i → chosen? s document names i = none) ∨
    ∃ i n, v = .node i ∧ chosen? s document names i = some n := by
  cases v with
  | scalar x => exact .inl fun i hi => by cases hi
  | pair a b => exact .inl fun i hi => by cases hi
  | node j =>
      cases hc : chosen? s document names j with
      | none => exact .inl fun i hi => by cases hi; exact hc
      | some n => exact .inr ⟨j, n, rfl, hc⟩

@[simp] theorem size_withBodies : (withBodies s document names f).nodes.size = s.nodes.size := by
  simp [withBodies]

theorem get?_withBodies_of_none (h : chosen? s document names id = none) :
    (withBodies s document names f).get? id = s.get? id := by
  unfold withBodies Store.get?
  rw [Array.getElem?_mapIdx, h, Option.map_id']

theorem mapping?_withBodies {m : Entries} (h : chosen? s document names id = some n)
    (hm : s.mapping? id = some m) : (withBodies s document names f).mapping? id = some (f n m) := by
  have hget := mapping?_eq_some.mp hm
  refine mapping?_eq_some.mpr ?_
  unfold withBodies Store.get? at *
  rw [Array.getElem?_mapIdx, hget, h]
  rfl

end Chosen

section Places

variable {s : Store} {d child id : NodeId} {key kind name : String} {m : Entries}

theorem exists_part_of_fieldMapping? (h : s.fieldMapping? d key = some (child, m)) :
    ∃ i : Nat, (s.parts (.node d))[i]? = some (.node child) := by
  obtain ⟨mid, hmid, hk⟩ := mapping?_of_fieldMapping? h
  have hin : Value.node child ∈ s.children d := (mem_children_iff hmid).mpr ⟨_, hk⟩
  obtain ⟨i, hi, hget⟩ := List.getElem_of_mem hin
  refine ⟨i, ?_⟩
  show (s.children d)[i]? = _
  rw [List.getElem?_eq_getElem hi, hget]

-- A component stands two sections below its document.
theorem exists_place (h : componentIn? s d kind name = some id) :
    ∃ i j k, s.at? (.node d) [i, j, k] = some (.node id) := by
  obtain ⟨p, mp, q, mq, mi, hp, hq, hi⟩ := componentIn?_eq_some_iff.mp h
  obtain ⟨i, hi'⟩ := exists_part_of_fieldMapping? hp
  obtain ⟨j, hj'⟩ := exists_part_of_fieldMapping? hq
  obtain ⟨k, hk'⟩ := exists_part_of_fieldMapping? hi
  refine ⟨i, j, k, ?_⟩
  rw [at?_cons, hi', Option.bind_some, at?_cons, hj', Option.bind_some, at?_cons, hk', Option.bind_some,
    at?_nil]

end Places

section Congr

variable {s t : Store} {id child : NodeId} {key : String} {m : Entries}

theorem mapping?_congr (h : t.get? id = s.get? id) : t.mapping? id = s.mapping? id := by
  unfold mapping?
  rw [h]

theorem entries_congr (h : t.get? id = s.get? id) : t.entries id = s.entries id := by
  unfold entries
  rw [mapping?_congr h]

theorem fieldMapping?_congr (hid : t.get? id = s.get? id) (hchild : t.get? child = s.get? child)
    (h : s.fieldMapping? id key = some (child, m)) : t.fieldMapping? id key = some (child, m) := by
  obtain ⟨hk, hm⟩ := fieldMapping?_eq_some.mp h
  exact fieldMapping?_eq_some.mpr ⟨entries_congr hid ▸ hk, (mapping?_congr hchild).trans hm⟩

end Congr

section Splits

variable {s : Store} {q : Request} {names : List String} {id : NodeId} {n : String}

-- A chosen schema with what is known of it.
structure IsBody (s : Store) (q : Request) (n : String) (body : NodeId) (m : Entries) : Prop where
  component : componentIn? s q.document "schemas" n = some body
  mapping : s.mapping? body = some m
  schema : m.looksLikeSchema = true
  unreferring : m.has refKey = false
  bare : m.has "components" = false

theorem Splits.exists_body (h : Splits s q names) (hn : n ∈ names) : ∃ body m, IsBody s q n body m := by
  obtain ⟨body, m, hcomponent, hm, hschema, href, hbare⟩ := h.bodies n hn
  exact ⟨body, m, hcomponent, hm, hschema, href, hbare⟩

theorem Splits.isBody (h : Splits s q names) (hc : chosen? s q.document names id = some n) :
    ∃ m, IsBody s q n id m := by
  obtain ⟨hn, hid⟩ := of_chosen? hc
  obtain ⟨body, m, hbody⟩ := h.exists_body hn
  obtain rfl : body = id := Option.some.inj (hbody.component.symm.trans hid)
  exact ⟨m, hbody⟩

-- The document and its sections are not moved.
theorem Splits.chosen?_of_short (h : Splits s q names) {p : Path}
    (hp : s.at? (.node q.document) p = some (.node id)) (hshort : p.length ≤ 2) :
    chosen? s q.document names id = none := by
  cases hc : chosen? s q.document names id with
  | none => rfl
  | some n =>
      obtain ⟨i, j, k, hplace⟩ := exists_place (of_chosen? hc).2
      rw [h.aliasFree p [i, j, k] id hp hplace] at hshort
      simp at hshort

-- A container of the document that is not moved stays as it is.
def Preserves (s : Store) (q : Request) (names : List String) (t : Store) : Prop :=
  ∀ id < s.nodes.size, chosen? s q.document names id = none → t.get? id = s.get? id

-- The sections of the schemas, as they are kept.
theorem Splits.exists_sections (h : Splits s q names) {body : NodeId}
    (hbody : componentIn? s q.document "schemas" n = some body) :
    ∃ p mp sq mq, mq.get? (.str n) = some (.node body) ∧ ∀ t, Preserves s q names t →
      t.fieldMapping? q.document "components" = some (p, mp) ∧
      t.fieldMapping? p "schemas" = some (sq, mq) := by
  obtain ⟨p, mp, sq, mq, mi, hp, hq, hi⟩ := componentIn?_eq_some_iff.mp hbody
  have hin : mq.get? (.str n) = some (.node body) := by
    rw [← entries_of_mapping? (fieldMapping?_eq_some.mp hq).2]
    exact (fieldMapping?_eq_some.mp hi).1
  obtain ⟨i, hi'⟩ := exists_part_of_fieldMapping? hp
  obtain ⟨j, hj'⟩ := exists_part_of_fieldMapping? hq
  have hfirst : s.at? (.node q.document) [i] = some (.node p) := by
    rw [at?_cons, hi', Option.bind_some, at?_nil]
  have hsecond : s.at? (.node q.document) [i, j] = some (.node sq) := by
    rw [at?_cons, hi', Option.bind_some, at?_cons, hj', Option.bind_some, at?_nil]
  refine ⟨p, mp, sq, mq, hin, fun t ht => ?_⟩
  have kept {id : NodeId} {path : Path} (hpath : s.at? (.node q.document) path = some (.node id))
      (hshort : path.length ≤ 2) : t.get? id = s.get? id :=
    ht id (h.closed id ⟨path, hpath⟩) (h.chosen?_of_short hpath hshort)
  have hd := kept at?_nil (Nat.zero_le 2)
  have hp' := kept hfirst (by simp)
  have hq' := kept hsecond (by simp)
  exact ⟨fieldMapping?_congr hd hp' hp, fieldMapping?_congr hp' hq' hq⟩

end Splits

end ApiGraph.Splitting
