import ApiGraph.Proofs.Document.Graph
import ApiGraph.Reachability.Collect

namespace ApiGraph.Reachability

open Store

-- The items of an array component.
def arrayItems? (s : Store) (v : Value) : Option Entries :=
  (s.asMapping? v).bind fun e => if isArray s e.2 then ArrayIndex.items? s e.2 else none

def hasItemsType (s : Store) (type : String) (e : Key × Value) : Bool :=
  (arrayItems? s e.2).bind s.schemaType? = some type

-- The name of the only entry.
def soleName? : List (Key × Value) → Option Key
  | [e] => some e.1
  | _ => none

theorem soleName?_eq_some {l : List (Key × Value)} {k : Key} :
    soleName? l = some k ↔ ∃ e, l = [e] ∧ e.1 = k := by
  match l with
  | [] => simp [soleName?]
  | [e] => simp [soleName?]
  | e :: e' :: rest => simp [soleName?]

namespace ArrayIndex

-- The index is the one of these components.
structure Describes (s : Store) (l : List (Key × Value)) (ix : ArrayIndex) : Prop where
  identity : ∀ id k, ix.byIdentity.get? id = some k → (k, .node id) ∈ l
  itemsRef : ∀ ref k, ix.byItemsRef.get? ref = some k →
    ∃ v items, (k, v) ∈ l ∧ arrayItems? s v = some items ∧ items.ref? = some ref
  count : ∀ type, (ix.typeCounts.get? type).getD 0 = (l.filter (hasItemsType s type)).length
  itemsType : ∀ type, ix.byItemsType.get? type = soleName? (l.filter (hasItemsType s type))

variable {s : Store} {l : List (Key × Value)} {ix : ArrayIndex} {e : Key × Value}
  {items : Entries} {type : String}

theorem describes_empty (s : Store) : Describes s [] empty where
  identity _ _ h := by simp [empty, OrderedMap.get?] at h
  itemsRef _ _ h := by simp [empty, OrderedMap.get?] at h
  count _ := by simp [empty, OrderedMap.get?]
  itemsType _ := by simp [empty, OrderedMap.get?, soleName?]

-- A component without a type of its items changes no count.
theorem filter_concat_of_none (h : (arrayItems? s e.2).bind s.schemaType? = none) (type : String) :
    (l ++ [e]).filter (hasItemsType s type) = l.filter (hasItemsType s type) := by
  simp [List.filter_append, hasItemsType, h]

theorem Describes.skip (h : Describes s l ix)
    (htype : (arrayItems? s e.2).bind s.schemaType? = none) : Describes s (l ++ [e]) ix where
  identity id k hk := List.mem_append_left _ (h.identity id k hk)
  itemsRef ref k hk := by
    obtain ⟨v, items, hv, hitems⟩ := h.itemsRef ref k hk
    exact ⟨v, items, List.mem_append_left _ hv, hitems⟩
  count type := by rw [filter_concat_of_none htype, h.count type]
  itemsType type := by rw [filter_concat_of_none htype, h.itemsType type]

theorem Describes.addType (h : Describes s l ix)
    (htype : (arrayItems? s e.2).bind s.schemaType? = some type) :
    Describes s (l ++ [e]) (ix.addType e.1 type) where
  identity id k hk := List.mem_append_left _ (h.identity id k hk)
  itemsRef ref k hk := by
    obtain ⟨v, items, hv, hitems⟩ := h.itemsRef ref k hk
    exact ⟨v, items, List.mem_append_left _ hv, hitems⟩
  count other := by
    have hold := h.count other
    simp only [ArrayIndex.addType, OrderedMap.get?_insert, List.filter_append]
    by_cases ho : type = other
    · simp [ho, hold, hasItemsType, htype]
    · simp [ho, hold, hasItemsType, htype]
  itemsType other := by
    have hold := h.itemsType other
    have hcount := h.count other
    simp only [ArrayIndex.addType, List.filter_append]
    by_cases ho : type = other
    · subst ho
      rw [hcount]
      cases hl : l.filter (hasItemsType s type) with
      | nil => simp [OrderedMap.get?_insert, hasItemsType, htype, soleName?]
      | cons first rest => simp [OrderedMap.get?_erase, hasItemsType, htype, soleName?]
    · have hkeep : (ix.addType e.1 type).byItemsType.get? other = ix.byItemsType.get? other := by
        simp only [ArrayIndex.addType]
        split
        · simp [OrderedMap.get?_insert, ho]
        · simp [OrderedMap.get?_erase, ho]
      simp only [ArrayIndex.addType] at hkeep
      rw [hkeep, hold]
      simp [hasItemsType, htype, ho]

theorem Describes.addRef {ref : String} (h : Describes s l ix) (he : e ∈ l)
    (hitems : arrayItems? s e.2 = some items) (href : items.ref? = some ref) :
    Describes s l (ix.addRef e.1 ref) where
  identity := h.identity
  itemsRef other k hk := by
    rw [ArrayIndex.addRef, OrderedMap.get?_insert] at hk
    split at hk
    next ho =>
      obtain rfl : ref = other := by simpa using ho
      obtain rfl : e.1 = k := Option.some.inj hk
      exact ⟨e.2, items, he, hitems, href⟩
    next => exact h.itemsRef other k hk
  count := h.count
  itemsType := h.itemsType

theorem Describes.addIdentity {id : NodeId} (h : Describes s l ix) (he : e ∈ l)
    (hid : e.2 = .node id) :
    Describes s l { ix with byIdentity := ix.byIdentity.insert id e.1 } where
  identity other k hk := by
    rw [OrderedMap.get?_insert] at hk
    split at hk
    next ho =>
      obtain rfl : id = other := by simpa using ho
      obtain rfl : e.1 = k := Option.some.inj hk
      exact hid ▸ he
    next => exact h.identity other k hk
  itemsRef := h.itemsRef
  count := h.count
  itemsType := h.itemsType

-- The reference and the identity are noted beside the type, in whichever order.
theorem addItems_identity (id : NodeId) (name : Key) :
    addItems s { ix with byIdentity := ix.byIdentity.insert id name } name items =
      { addItems s ix name items with
        byIdentity := (addItems s ix name items).byIdentity.insert id name } := by
  unfold addItems
  cases items.ref? with
  | none => cases s.schemaType? items <;> rfl
  | some ref => cases s.schemaType? items <;> rfl

theorem Describes.addItems (h : Describes s l ix) (hitems : arrayItems? s e.2 = some items) :
    Describes s (l ++ [e]) (addItems s ix e.1 items) := by
  have hbind : (arrayItems? s e.2).bind s.schemaType? = s.schemaType? items := by
    rw [hitems, Option.bind_some]
  have hlast : e ∈ l ++ [e] := by simp
  unfold ArrayIndex.addItems
  cases htype : s.schemaType? items with
  | none =>
      have hskip := h.skip (hbind.trans htype)
      cases href : items.ref? with
      | none => exact hskip
      | some ref => exact hskip.addRef hlast hitems href
  | some type =>
      have hadd := h.addType (hbind.trans htype)
      cases href : items.ref? with
      | none => exact hadd
      | some ref => exact hadd.addRef hlast hitems href

theorem Describes.add (h : Describes s l ix) (e : Key × Value) :
    Describes s (l ++ [e]) (add s ix e) := by
  have hlast : e ∈ l ++ [e] := by simp
  unfold ArrayIndex.add
  cases hm : s.asMapping? e.2 with
  | none => exact h.skip (by simp [arrayItems?, hm])
  | some node =>
      obtain ⟨id, m⟩ := node
      have hid : e.2 = .node id := (asMapping?_eq_some.mp hm).1
      have harray : arrayItems? s e.2 = if isArray s m then ArrayIndex.items? s m else none := by
        simp [arrayItems?, hm]
      dsimp only
      split
      next ha =>
        rw [if_pos (by simpa [isArray] using ha)] at harray
        cases hitems : ArrayIndex.items? s m with
        | none => exact (h.skip (by simp [harray, hitems])).addIdentity hlast hid
        | some items =>
            dsimp only
            rw [addItems_identity]
            exact (h.addItems (harray.trans hitems)).addIdentity hlast hid
      next ha =>
        rw [if_neg (by simpa [isArray] using ha)] at harray
        exact (h.skip (by simp [harray])).addIdentity hlast hid

theorem Describes.foldl (h : Describes s l ix) (rest : List (Key × Value)) :
    Describes s (l ++ rest) (rest.foldl (ArrayIndex.add s) ix) := by
  induction rest generalizing l ix with
  | nil => simpa using h
  | cons e rest ih =>
      have hnext := ih (h.add e)
      rwa [List.append_assoc] at hnext

theorem describes_ofRegistry (s : Store) (registry : Entries) :
    Describes s registry.entries (ofRegistry s registry) :=
  (describes_empty s).foldl registry.entries

-- The one and only entry that is an array with items of the type.
structure IsSole (s : Store) (registry : Entries) (type : String) (e : Key × Value) : Prop where
  mem : e ∈ registry.entries
  hasType : hasItemsType s type e = true
  only : ∀ e' ∈ registry.entries, hasItemsType s type e' = true → e' = e

-- An array that is found neither as a component itself nor by the reference of its items.
structure Unmatched (s : Store) (ix : ArrayIndex) (id : NodeId) (m : Entries) : Prop where
  identity : (ix.byIdentity.get? id).filter isName = none
  itemsRef : ∀ items ref, items? s m = some items → items.ref? = some ref →
    ix.byItemsRef.get? ref = none

variable {registry : Entries} {id : NodeId} {m : Entries} {k : Key} {isBody : Bool}

-- Different entries have different keys.
theorem nodup_entries (registry : Entries) : registry.entries.Nodup := by
  have hdistinct := List.pairwise_map.mp registry.distinct
  refine hdistinct.imp fun {a b} hab heq => ?_
  rw [heq, BEq.rfl] at hab
  cases hab

theorem isSole_iff : IsSole s registry type e ↔ registry.entries.filter (hasItemsType s type) = [e] := by
  constructor
  · intro h
    have hnodup : (registry.entries.filter (hasItemsType s type)).Nodup :=
      (nodup_entries registry).filter _
    have hin : e ∈ registry.entries.filter (hasItemsType s type) :=
      List.mem_filter.mpr ⟨h.mem, h.hasType⟩
    have hall : ∀ e' ∈ registry.entries.filter (hasItemsType s type), e' = e := fun e' he' =>
      h.only e' (List.mem_filter.mp he').1 (List.mem_filter.mp he').2
    generalize registry.entries.filter (hasItemsType s type) = l at hnodup hin hall
    match l with
    | [] => cases hin
    | [e'] => rw [hall e' List.mem_cons_self]
    | e' :: e'' :: rest =>
        have hsame : e' = e'' := by
          rw [hall e' (by simp), hall e'' (by simp)]
        simp [hsame] at hnodup
  · intro h
    have hmem (e' : Key × Value) :
        e' ∈ registry.entries ∧ hasItemsType s type e' = true ↔ e' = e := by
      rw [← List.mem_filter, h, List.mem_singleton]
    obtain ⟨hin, htype⟩ := (hmem e).mpr rfl
    exact ⟨hin, htype, fun e' he' htype' => (hmem e').mp ⟨he', htype'⟩⟩

-- After all components a type is known for the one array component that has it.
theorem get?_byItemsType :
    (ofRegistry s registry).byItemsType.get? type = some k ↔ ∃ v, IsSole s registry type (k, v) := by
  rw [(describes_ofRegistry s registry).itemsType type, soleName?_eq_some]
  constructor
  · rintro ⟨e, hsole, rfl⟩
    exact ⟨e.2, isSole_iff.mpr hsole⟩
  · rintro ⟨v, hsole⟩
    exact ⟨(k, v), isSole_iff.mp hsole, rfl⟩

-- What is left is the look-up by the type of the items, for a body whose items are no reference.
theorem Unmatched.find?_eq_some (h : Unmatched s ix id m) :
    ix.find? s id m isBody = some k ↔ isBody = true ∧ isName k = true ∧
      ∃ items type, items? s m = some items ∧ items.ref? = none ∧ s.schemaType? items = some type ∧
        ix.byItemsType.get? type = some k := by
  unfold ArrayIndex.find?
  rw [h.identity]
  cases hitems : items? s m with
  | none => simp
  | some items =>
      cases href : items.ref? with
      | some ref => simp [h.itemsRef items ref hitems href, href]
      | none =>
          cases htype : s.schemaType? items with
          | none => simp [href, htype]
          | some type =>
              cases isBody with
              | false => simp [href]
              | true =>
                  cases hk : ix.byItemsType.get? type with
                  | none => simp [href, htype, hk]
                  | some name =>
                      have hname : (if isName name then some name else none) = some k ↔
                          isName k = true ∧ name = k := by
                        rw [Option.ite_none_right_eq_some, Option.some.injEq]
                        constructor
                        · rintro ⟨hn, rfl⟩
                          exact ⟨hn, rfl⟩
                        · rintro ⟨hn, rfl⟩
                          exact ⟨hn, rfl⟩
                      simpa [href, htype, hk] using hname

end ArrayIndex

-- How an array counts as a copy of the component of the name.
inductive CopyOf (s : Store) (registry : Entries) (isBody : Bool) (id : NodeId) (m : Entries)
    (k : Key) : Prop
  | identity (hk : registry.get? k = some (.node id))
  | itemsRef {v : Value} {items items' : Entries} {ref : String}
      (hk : registry.get? k = some v) (hv : arrayItems? s v = some items')
      (hm : ArrayIndex.items? s m = some items) (href : items.ref? = some ref)
      (href' : items'.ref? = some ref)
  -- Only for a response body, and only if no other array component has items of the type.
  | itemsType {v : Value} {items : Entries} {type : String} (hbody : isBody = true)
      (hk : registry.get? k = some v) (hm : ArrayIndex.items? s m = some items)
      (href : items.ref? = none) (htype : s.schemaType? items = some type)
      (hv : hasItemsType s type (k, v) = true)
      (hsole : ∀ e ∈ registry.entries, hasItemsType s type e = true → e = (k, v))

theorem copyOf_of_find? {s : Store} {registry : Entries} {isBody : Bool} {id : NodeId}
    {m : Entries} {k : Key}
    (h : (ArrayIndex.ofRegistry s registry).find? s id m isBody = some k) :
    CopyOf s registry isBody id m k := by
  have hindex := ArrayIndex.describes_ofRegistry s registry
  generalize ArrayIndex.ofRegistry s registry = ix at h hindex
  simp only [ArrayIndex.find?, Option.orElse_eq_orElse, Option.orElse_eq_or,
    Option.bind_eq_bind] at h
  rcases Option.or_eq_some_iff.mp h with hown | ⟨-, hitems⟩
  · obtain ⟨hid, -⟩ := Option.filter_eq_some_iff.mp hown
    exact .identity (OrderedMap.get?_of_mem (hindex.identity id k hid))
  · obtain ⟨items, hm, hfound⟩ := Option.bind_eq_some_iff.mp hitems
    obtain ⟨name, hname, hk⟩ := Option.bind_eq_some_iff.mp hfound
    obtain rfl : name = k := by
      split at hk
      · exact Option.some.inj hk
      · cases hk
    rcases Option.or_eq_some_iff.mp hname with href | ⟨-, htype⟩
    · obtain ⟨ref, href, hget⟩ := Option.bind_eq_some_iff.mp href
      obtain ⟨v, items', hv, hitems', href'⟩ := hindex.itemsRef ref name hget
      exact .itemsRef (OrderedMap.get?_of_mem hv) hitems' hm href href'
    · split at htype
      next hbody =>
        obtain ⟨type, hitemsType, hget⟩ := Option.bind_eq_some_iff.mp htype
        rw [hindex.itemsType type] at hget
        obtain ⟨e, hfilter, rfl⟩ := soleName?_eq_some.mp hget
        have hsole : ArrayIndex.IsSole s registry type e := ArrayIndex.isSole_iff.mpr hfilter
        obtain ⟨hbody, href⟩ : isBody = true ∧ items.ref? = none := by simpa using hbody
        exact .itemsType hbody (OrderedMap.get?_of_mem hsole.mem) hm href hitemsType hsole.hasType
          hsole.only
      next => cases htype

open ArrayIndex

-- A type of items stands for a component as long as no other array component has it. An array that is
-- found in no other way is found by that alone.
theorem found_by_sole_items_type (s : Store) (registry : Entries) :
    (∀ type k, (ofRegistry s registry).byItemsType.get? type = some k ↔
      ∃ v, IsSole s registry type (k, v)) ∧
    ∀ id m isBody, Unmatched s (ofRegistry s registry) id m →
      (∀ k, (ofRegistry s registry).find? s id m isBody = some k ↔
        isBody = true ∧ isName k = true ∧ ∃ items type v, items? s m = some items ∧
          items.ref? = none ∧ s.schemaType? items = some type ∧ IsSole s registry type (k, v)) ∧
      ∀ items type, items? s m = some items → s.schemaType? items = some type →
        (∃ e ∈ registry.entries, ∃ e' ∈ registry.entries, e ≠ e' ∧
          hasItemsType s type e = true ∧ hasItemsType s type e' = true) →
        (ofRegistry s registry).find? s id m isBody = none := by
  refine ⟨fun type k => get?_byItemsType, fun id m isBody hun => ?_⟩
  have hfound (k : Key) : (ofRegistry s registry).find? s id m isBody = some k ↔
      isBody = true ∧ isName k = true ∧ ∃ items type v, items? s m = some items ∧
        items.ref? = none ∧ s.schemaType? items = some type ∧ IsSole s registry type (k, v) := by
    rw [hun.find?_eq_some]
    simp only [get?_byItemsType, exists_and_left]
  refine ⟨hfound, fun items type hitems htype hshared => ?_⟩
  obtain ⟨e, he, e', he', hne, hhas, hhas'⟩ := hshared
  rw [Option.eq_none_iff_forall_ne_some]
  intro k hk
  obtain ⟨-, -, items', type', v, hitems', -, htype', hsole⟩ := (hfound k).mp hk
  obtain rfl : items = items' := Option.some.inj (hitems.symm.trans hitems')
  obtain rfl : type = type' := Option.some.inj (htype.symm.trans htype')
  exact hne ((hsole.only e he hhas).trans (hsole.only e' he' hhas').symm)

-- One array component of texts and three of numbers, with an array of each outside of the registry.
def sharedItems : Store :=
  ⟨#[
    .ofFields [("Names", .node 1), ("Ids", .node 2), ("Counts", .node 3), ("Sizes", .node 4)],
    .ofFields [("type", .str "array"), ("items", .node 5)],
    .ofFields [("type", .str "array"), ("items", .node 6)],
    .ofFields [("type", .str "array"), ("items", .node 7)],
    .ofFields [("type", .str "array"), ("items", .node 8)],
    .ofFields [("type", .str "string")],
    .ofFields [("type", .str "integer")],
    .ofFields [("type", .str "integer")],
    .ofFields [("type", .str "integer")],
    .ofFields [("type", .str "array"), ("items", .node 5)],
    .ofFields [("type", .str "array"), ("items", .node 6)]]⟩

-- The first array is found, and the second one is not, however many components there are.
theorem sharedItems_found :
    let ix := ofRegistry sharedItems (sharedItems.entries 0)
    Unmatched sharedItems ix 9 (sharedItems.entries 9) ∧
      Unmatched sharedItems ix 10 (sharedItems.entries 10) ∧
      ix.find? sharedItems 9 (sharedItems.entries 9) true = some (.str "Names") ∧
      ix.find? sharedItems 10 (sharedItems.entries 10) true = none := by
  intro ix
  obtain ⟨-, hmatch⟩ := found_by_sole_items_type sharedItems (sharedItems.entries 0)
  have hone : Unmatched sharedItems ix 9 (sharedItems.entries 9) := by
    refine ⟨rfl, fun items ref hitems href => ?_⟩
    obtain rfl : sharedItems.entries 5 = items := Option.some.inj hitems
    cases href
  have htwo : Unmatched sharedItems ix 10 (sharedItems.entries 10) := by
    refine ⟨rfl, fun items ref hitems href => ?_⟩
    obtain rfl : sharedItems.entries 6 = items := Option.some.inj hitems
    cases href
  have hentries : (sharedItems.entries 0).entries = [(.str "Names", .node 1), (.str "Ids", .node 2),
      (.str "Counts", .node 3), (.str "Sizes", .node 4)] := rfl
  have hsole : IsSole sharedItems (sharedItems.entries 0) "string" (.str "Names", .node 1) :=
    isSole_iff.mpr rfl
  refine ⟨hone, htwo, ((hmatch 9 _ true hone).1 _).mpr ?_, (hmatch 10 _ true htwo).2 _ "integer" rfl rfl ?_⟩
  · exact ⟨rfl, rfl, _, "string", _, rfl, rfl, rfl, hsole⟩
  · have hne : ((.str "Ids", .node 2) : Key × Value) ≠ (.str "Sizes", .node 4) := by
      intro heq
      cases congrArg Prod.snd heq
    rw [hentries]
    exact ⟨_, by simp, _, by simp, hne, rfl, rfl⟩

end ApiGraph.Reachability
