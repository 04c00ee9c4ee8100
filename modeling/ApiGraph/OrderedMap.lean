namespace ApiGraph

-- The list is the view of the map: every operation below is described by what it does to it.
structure OrderedMap (κ ν : Type) [BEq κ] where
  entries : List (κ × ν)
  distinct : (entries.map Prod.fst).Pairwise fun a b => (a == b) = false

namespace OrderedMap

variable {κ ν ν' : Type} [BEq κ]

instance [DecidableEq κ] [DecidableEq ν] : DecidableEq (OrderedMap κ ν) := fun m n =>
  if h : m.entries = n.entries then
    isTrue (by cases m; cases n; cases h; rfl)
  else
    isFalse fun e => h (congrArg entries e)

theorem ext {m n : OrderedMap κ ν} (h : m.entries = n.entries) : m = n := by
  cases m; cases n; cases h; rfl

def empty : OrderedMap κ ν := ⟨[], .nil⟩

instance : EmptyCollection (OrderedMap κ ν) := ⟨empty⟩
instance : Inhabited (OrderedMap κ ν) := ⟨empty⟩

def keys (m : OrderedMap κ ν) : List κ := m.entries.map Prod.fst

def values (m : OrderedMap κ ν) : List ν := m.entries.map Prod.snd

def size (m : OrderedMap κ ν) : Nat := m.entries.length

def isEmpty (m : OrderedMap κ ν) : Bool := m.entries.isEmpty

def get? (m : OrderedMap κ ν) (k : κ) : Option ν :=
  (m.entries.find? (·.1 == k)).map Prod.snd

def contains (m : OrderedMap κ ν) (k : κ) : Bool := m.entries.any (·.1 == k)

-- The first entry under the key takes the value; without one the entry goes to the end.
def place (k : κ) (v : ν) : List (κ × ν) → List (κ × ν)
  | [] => [(k, v)]
  | e :: rest => if e.1 == k then (e.1, v) :: rest else e :: place k v rest

theorem keys_place (k : κ) (v : ν) (l : List (κ × ν)) :
    (place k v l).map Prod.fst =
      if l.any (·.1 == k) then l.map Prod.fst else l.map Prod.fst ++ [k] := by
  induction l with
  | nil => rfl
  | cons e rest ih =>
      by_cases h : e.1 == k
      · simp [place, h]
      · have h' : (e.1 == k) = false := Bool.eq_false_iff.2 h
        rw [List.any_cons, h', Bool.false_or]
        by_cases hr : rest.any (·.1 == k)
        · rw [if_pos hr] at ih ⊢
          simp [place, h', ih]
        · rw [if_neg hr] at ih ⊢
          simp [place, h', ih]

theorem distinct_place (k : κ) (v : ν) (l : List (κ × ν))
    (h : (l.map Prod.fst).Pairwise fun a b => (a == b) = false) :
    ((place k v l).map Prod.fst).Pairwise fun a b => (a == b) = false := by
  rw [keys_place]
  by_cases hk : l.any (·.1 == k)
  · simpa [hk] using h
  · have hn : ∀ a ∈ l.map Prod.fst, (a == k) = false := by
      intro a ha
      obtain ⟨e, he, rfl⟩ := List.mem_map.1 ha
      have := List.any_eq_false.1 (Bool.eq_false_iff.2 hk) e he
      simpa using this
    rw [if_neg hk, List.pairwise_append]
    exact ⟨h, by simp, fun a ha b hb => by simp at hb; exact hb ▸ hn a ha⟩

def insert (m : OrderedMap κ ν) (k : κ) (v : ν) : OrderedMap κ ν :=
  ⟨place k v m.entries, distinct_place k v m.entries m.distinct⟩

-- Adds the key with the value unless the key is there already.
def insertNew (m : OrderedMap κ ν) (k : κ) (v : ν) : OrderedMap κ ν :=
  if m.contains k then m else m.insert k v

def filterKeys (m : OrderedMap κ ν) (p : κ → Bool) : OrderedMap κ ν :=
  ⟨m.entries.filter (p ·.1), m.distinct.sublist (List.filter_sublist.map _)⟩

def erase (m : OrderedMap κ ν) (k : κ) : OrderedMap κ ν := m.filterKeys fun a => !(a == k)

def mapValues (m : OrderedMap κ ν) (f : ν → ν') : OrderedMap κ ν' :=
  ⟨m.entries.map fun e => (e.1, f e.2), by
    have : (m.entries.map fun e => (e.1, f e.2)).map Prod.fst = m.entries.map Prod.fst := by
      simp [List.map_map, Function.comp_def]
    rw [this]; exact m.distinct⟩

def ofList (l : List (κ × ν)) : OrderedMap κ ν :=
  l.foldl (fun m e => m.insert e.1 e.2) empty

-- Inserts every entry of `n` into `m`, in the order of `n`.
def insertAll (m n : OrderedMap κ ν) : OrderedMap κ ν :=
  n.entries.foldl (fun m e => m.insert e.1 e.2) m

@[simp] theorem entries_empty : (empty : OrderedMap κ ν).entries = [] := rfl

@[simp] theorem entries_insert (m : OrderedMap κ ν) (k : κ) (v : ν) :
    (m.insert k v).entries = place k v m.entries := rfl

@[simp] theorem entries_erase (m : OrderedMap κ ν) (k : κ) :
    (m.erase k).entries = m.entries.filter fun e => !(e.1 == k) := rfl

theorem keys_insert (m : OrderedMap κ ν) (k : κ) (v : ν) :
    (m.insert k v).keys = if m.contains k then m.keys else m.keys ++ [k] :=
  keys_place k v m.entries

theorem contains_eq_isSome_get? (m : OrderedMap κ ν) (k : κ) :
    m.contains k = (m.get? k).isSome := by
  rw [Bool.eq_iff_iff]
  simp [contains, get?]

-- A new key goes to the end.
theorem entries_insert_of_get?_eq_none {m : OrderedMap κ ν} {k : κ} (v : ν)
    (h : m.get? k = none) : (m.insert k v).entries = m.entries ++ [(k, v)] := by
  have hne : ∀ e ∈ m.entries, (e.1 == k) = false := by
    simpa [get?] using h
  rw [entries_insert]
  generalize m.entries = l at hne
  induction l with
  | nil => rfl
  | cons e rest ih =>
      have he := hne e List.mem_cons_self
      simp [place, he, ih fun e' h' => hne e' (List.mem_cons_of_mem _ h')]

theorem isEmpty_eq_false_of_get? {m : OrderedMap κ ν} {k : κ} {v : ν} (h : m.get? k = some v) :
    m.isEmpty = false := by
  cases he : m.entries with
  | nil => simp [get?, he] at h
  | cons e rest => simp [isEmpty, he]

section Lookup

variable [EquivBEq κ]

-- Keys that are the same for one key are the same for every key that equals it.
theorem beq_congr_right {a b k : κ} (h : (a == b) = true) : (a == k) = (b == k) := by
  cases hb : b == k with
  | true => exact BEq.trans h hb
  | false =>
      cases ha : a == k with
      | false => rfl
      | true =>
          have hk : (b == k) = true := BEq.trans (BEq.symm h) ha
          exact absurd hk (by simp [hb])

theorem get?_congr {m : OrderedMap κ ν} {k k' : κ} (h : (k == k') = true) :
    m.get? k = m.get? k' := by
  have hp : (fun e : κ × ν => e.1 == k) = fun e => e.1 == k' := by
    funext e
    cases he : e.1 == k with
    | true => exact (BEq.trans he h).symm
    | false =>
        cases he' : e.1 == k' with
        | false => rfl
        | true =>
            rw [BEq.trans he' (BEq.symm h)] at he
            cases he
  simp only [get?, hp]

theorem find?_place (k k' : κ) (v : ν) (l : List (κ × ν)) :
    ((place k v l).find? (·.1 == k')).map Prod.snd =
      if k == k' then some v else (l.find? (·.1 == k')).map Prod.snd := by
  induction l with
  | nil => by_cases h : k == k' <;> simp [place, h]
  | cons e rest ih =>
      by_cases h : e.1 == k
      · have hc : (e.1 == k') = (k == k') := beq_congr_right h
        by_cases hk : k == k' <;> simp [place, h, hc, hk]
      · simp only [place, h]
        by_cases he : e.1 == k'
        · have hk : ¬ (k == k') = true := fun hk => h (BEq.trans he (BEq.symm hk))
          simp [he, hk]
        · simpa [he] using ih

-- An insertion is seen under its own key and nowhere else.
theorem get?_insert (m : OrderedMap κ ν) (k k' : κ) (v : ν) :
    (m.insert k v).get? k' = if k == k' then some v else m.get? k' :=
  find?_place k k' v m.entries

theorem get?_erase (m : OrderedMap κ ν) (k k' : κ) :
    (m.erase k).get? k' = if k == k' then none else m.get? k' := by
  simp only [get?, entries_erase, List.find?_filter]
  by_cases h : k == k'
  · have hn : ∀ e : κ × ν, (!(e.1 == k) && e.1 == k') = false := by
      intro e
      cases he : e.1 == k' with
      | false => simp
      | true => simp [BEq.trans he (BEq.symm h)]
    simp [h, hn]
  · have hc : ∀ e : κ × ν, (!(e.1 == k) && e.1 == k') = (e.1 == k') := by
      intro e
      cases he : e.1 == k with
      | false => simp
      | true => simp [beq_congr_right he, h]
    simp [h, hc]

-- No other entry is under the key of an entry.
theorem find?_eq_none_of_distinct {e : κ × ν} {rest : List (κ × ν)} {k : κ}
    (h : ((e :: rest).map Prod.fst).Pairwise fun a b => (a == b) = false) (hk : e.1 == k) :
    rest.find? (·.1 == k) = none := by
  rw [List.find?_eq_none]
  intro r hr hrk
  rw [List.map_cons, List.pairwise_cons] at h
  have hne := h.1 r.1 (List.mem_map_of_mem hr)
  rw [BEq.trans hk (BEq.symm hrk)] at hne
  cases hne

-- An entry is what its key looks up.
theorem get?_of_mem {m : OrderedMap κ ν} {k : κ} {v : ν} (h : (k, v) ∈ m.entries) :
    m.get? k = some v := by
  obtain ⟨l, hd⟩ := m
  simp only [get?]
  induction l with
  | nil => cases h
  | cons e rest ih =>
      rw [List.map_cons, List.pairwise_cons] at hd
      rcases List.mem_cons.mp h with rfl | h
      · simp
      · have hne : (e.1 == k) = false := hd.1 k (List.mem_map_of_mem h)
        simpa [hne] using ih hd.2 h

theorem mem_values_iff {m : OrderedMap κ ν} {v : ν} :
    v ∈ m.values ↔ ∃ k, m.get? k = some v := by
  obtain ⟨l, hd⟩ := m
  simp only [values, get?]
  induction l with
  | nil => simp
  | cons e rest ih =>
      have ih := ih (List.pairwise_cons.mp (by simpa using hd)).2
      rw [List.map_cons, List.mem_cons]
      constructor
      · rintro (rfl | hv)
        · exact ⟨e.1, by simp⟩
        · obtain ⟨k, hk⟩ := ih.mp hv
          refine ⟨k, ?_⟩
          cases he : e.1 == k with
          | true =>
              rw [find?_eq_none_of_distinct hd he] at hk
              cases hk
          | false => simpa [he] using hk
      · rintro ⟨k, hk⟩
        cases he : e.1 == k with
        | true => exact .inl (by simpa [he, eq_comm] using hk)
        | false => exact .inr (ih.mpr ⟨k, by simpa [he] using hk⟩)

theorem mem_values_insert {m : OrderedMap κ ν} {k : κ} {v w : ν} (h : w ∈ (m.insert k v).values) :
    w = v ∨ w ∈ m.values := by
  obtain ⟨k', hk'⟩ := mem_values_iff.mp h
  rw [get?_insert] at hk'
  split at hk'
  · exact .inl (Option.some.inj hk').symm
  · exact .inr (mem_values_iff.mpr ⟨k', hk'⟩)

-- What is there wins over a new insertion.
theorem get?_insertNew (m : OrderedMap κ ν) (k k' : κ) (v : ν) :
    (m.insertNew k v).get? k' = (m.get? k').or (if k == k' then some v else none) := by
  unfold insertNew
  rw [contains_eq_isSome_get?]
  cases hk : k == k' with
  | true =>
      rw [get?_congr hk]
      cases hv : m.get? k' with
      | some w => simp [hv]
      | none => simp [get?_insert, hk]
  | false =>
      split
      · simp
      · simp [get?_insert, hk]

-- What is inserted wins over what was there.
theorem get?_insertAll (m n : OrderedMap κ ν) (k : κ) :
    (m.insertAll n).get? k = (n.get? k).or (m.get? k) := by
  obtain ⟨l, hd⟩ := n
  simp only [insertAll]
  induction l generalizing m with
  | nil => simp [get?]
  | cons e rest ih =>
      rw [List.foldl_cons, ih _ (List.pairwise_cons.mp (by simpa using hd)).2, get?_insert]
      cases he : e.1 == k with
      | true =>
          have hnone := find?_eq_none_of_distinct hd he
          simp [get?, he, hnone]
      | false => simp [get?, he]

end Lookup

end OrderedMap

end ApiGraph
