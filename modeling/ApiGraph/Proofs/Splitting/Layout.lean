import ApiGraph.Proofs.Splitting.Bodies

namespace ApiGraph.Splitting

open Store Resolve Reference

section Copy

variable {s t t' : Store} {body x : NodeId} {low : Nat}

theorem IsCopy.mono {low' : Nat} (h : IsCopy s body t low x) (hlow : low' ≤ low) :
    IsCopy s body t low' x :=
  ⟨h.same, h.aliasFree, fun y hy => ⟨Nat.le_trans hlow (h.fresh y hy).1, (h.fresh y hy).2⟩⟩

theorem IsCopy.congr (h : IsCopy s body t low x) (hsize : t.nodes.size ≤ t'.nodes.size)
    (hsame : ∀ y, low ≤ y → y < t.nodes.size → t'.get? y = t.get? y) : IsCopy s body t' low x := by
  have hcontained : ∀ y, t.Contains x y → t'.get? y = t.get? y :=
    fun y hy => hsame y (h.fresh y hy).1 (h.fresh y hy).2
  refine ⟨?_, h.aliasFree.congr hcontained, fun y hy => ?_⟩
  · exact h.same.trans (contentAt_eq_of_contains hcontained).symm
  · have hrange := h.fresh y ((contains_congr hcontained).mp hy)
    exact ⟨hrange.1, Nat.lt_of_lt_of_le hrange.2 hsize⟩

-- A mapping without containers in it is copied by a mapping that says the same.
theorem isCopy_of_scalars {m : Entries} (hm : s.mapping? body = some m) (hx : t.mapping? x = some m)
    (hscalars : ∀ v ∈ m.values, ∃ c, v = .scalar c) (hlow : low ≤ x) : IsCopy s body t low x := by
  have honly {p : Path} {y : NodeId} (hp : t.at? (.node x) p = some (.node y)) : p = [] ∧ y = x := by
    cases p with
    | nil => exact ⟨rfl, (Value.node.inj (Option.some.inj hp)).symm⟩
    | cons i p =>
        rw [at?_cons, parts, children_of_mapping? hx] at hp
        obtain ⟨w, hw, hrest⟩ := Option.bind_eq_some_iff.mp hp
        obtain ⟨c, rfl⟩ := hscalars w (List.mem_of_getElem? hw)
        cases p with
        | nil => cases hrest
        | cons j p => cases hrest
  refine ⟨?_, fun p p' y hp hp' => (honly hp).1.trans (honly hp').1.symm, fun y hy => ?_⟩
  · refine sameContent_of_simulation (B := fun v v' => v = .node body ∧ v' = .node x ∨
      ∃ c, v = .scalar c ∧ v' = .scalar c) (fun v v' hv => ?_) (.inl ⟨rfl, rfl⟩)
    rcases hv with ⟨rfl, rfl⟩ | ⟨c, rfl, rfl⟩
    · simp only [shape, parts, mapping?_eq_some.mp hm, mapping?_eq_some.mp hx, children_of_mapping? hm,
        children_of_mapping? hx, true_and]
      refine List.forall₂_same.mpr fun v hv => ?_
      obtain ⟨c, rfl⟩ := hscalars v hv
      exact .inr ⟨c, rfl, rfl⟩
    · exact ⟨rfl, .nil⟩
  · obtain ⟨p, hp⟩ := hy
    rw [(honly hp).2]
    exact ⟨hlow, lt_size_of_mapping? hx⟩

end Copy

section Layout

variable (s : Store) (q : Request)

-- The file of the schema is loaded under the key.
structure Filed (t : Store) (loaded : OrderedMap String NodeId) (n key : String) (x : NodeId) : Prop where
  keyed : q.fileKey? n = some key
  found : loaded.get? key = some x
  copy : ∀ body, componentIn? s q.document "schemas" n = some body →
    IsCopy s body t s.nodes.size x

structure Layout (names : List String) (t : Store) (loaded : OrderedMap String NodeId) : Prop where
  size : s.nodes.size ≤ t.nodes.size
  preserved : Preserves s q names t
  files : ∀ key x, loaded.get? key = some x →
    x = q.document ∧ q.scope.key = some key ∨ ∃ n ∈ names, Filed s q t loaded n key x
  apart : ∀ key key' x x' y, loaded.get? key = some x → loaded.get? key' = some x' →
    x ≠ q.document → x' ≠ q.document → t.Contains x y → t.Contains x' y → key = key'

-- The schema came back from its file.
def Returned (t : Store) (loaded : OrderedMap String NodeId) (n : String) (body : NodeId) : Prop :=
  ∃ key x, Filed s q t loaded n key x ∧ t.mapping? body = some (withNote n (t.entries x))

structure Laid (names : List String) (r : Run) : Prop where
  layout : Layout s q names r.store r.loaded
  body : ∀ id n, chosen? s q.document names id = some n →
    r.store.mapping? id = some (fileReference n) ∨
      id ∈ r.visited ∧ Returned s q r.store r.loaded n id
  log : r.events.filter isRepair = []

end Layout

section Steps

variable {s t t' : Store} {q : Request} {names : List String} {loaded loaded' : OrderedMap String NodeId}
  {n key : String} {x body : NodeId}

theorem Filed.congr (h : Filed s q t loaded n key x) (hl : loaded'.get? key = some x)
    (hsize : t.nodes.size ≤ t'.nodes.size)
    (hsame : ∀ y, s.nodes.size ≤ y → y < t.nodes.size → t'.get? y = t.get? y) :
    Filed s q t' loaded' n key x :=
  ⟨h.keyed, hl, fun body hbody => (h.copy body hbody).congr hsize hsame⟩

-- What is in a file stays so when something else changes.
theorem Filed.contains (hs : Splits s q names) (hn : n ∈ names) (h : Filed s q t loaded n key x)
    (hsame : ∀ y, s.nodes.size ≤ y → y < t.nodes.size → t'.get? y = t.get? y) (y : NodeId) :
    t'.Contains x y ↔ t.Contains x y := by
  obtain ⟨body, m, hbody⟩ := hs.exists_body hn
  have hfresh := (h.copy body hbody.component).fresh
  exact contains_congr fun y hy => hsame y (hfresh y hy).1 (hfresh y hy).2

theorem Filed.range (hs : Splits s q names) (hn : n ∈ names) (h : Filed s q t loaded n key x) {y : NodeId}
    (hy : t.Contains x y) : s.nodes.size ≤ y ∧ y < t.nodes.size := by
  obtain ⟨body, m, hbody⟩ := hs.exists_body hn
  exact (h.copy body hbody.component).fresh y hy

theorem Layout.exists_filed (h : Layout s q names t loaded) (hx : loaded.get? key = some x)
    (hne : x ≠ q.document) : ∃ n ∈ names, Filed s q t loaded n key x :=
  (h.files key x hx).resolve_left fun hroot => hne hroot.1

-- What is found under the key of a schema is its file.
theorem Layout.filed (hs : Splits s q names) (h : Layout s q names t loaded) (hn : n ∈ names)
    (hkey : q.fileKey? n = some key) (hx : loaded.get? key = some x) : Filed s q t loaded n key x := by
  rcases h.files key x hx with ⟨-, hroot⟩ | ⟨n', hn', hfiled⟩
  · obtain ⟨l, hl, hother, -⟩ := hs.files n hn
    unfold Request.fileKey? at hkey
    rw [hl, Option.map_some] at hkey
    rw [hroot, ← hkey] at hother
    exact absurd rfl hother
  · obtain rfl := fileKey?_inj (hs.words n' hn') (hs.words n hn) hfiled.keyed hkey
    exact hfiled

theorem Splits.document_lt (hs : Splits s q names) : q.document < s.nodes.size :=
  hs.closed _ ⟨[], rfl⟩

theorem Filed.ne_document (hs : Splits s q names) (hn : n ∈ names) (h : Filed s q t loaded n key x) :
    x ≠ q.document := by
  rintro rfl
  have hrange := h.range hs hn (y := q.document) ⟨[], rfl⟩
  exact absurd hs.document_lt (Nat.not_lt.mpr hrange.1)

-- A change that is not in a file leaves the files as they are.
theorem Layout.congr (hs : Splits s q names) (h : Layout s q names t loaded)
    (hsize : t.nodes.size ≤ t'.nodes.size) (hpreserved : Preserves s q names t')
    (hsame : ∀ y, s.nodes.size ≤ y → y < t.nodes.size → t'.get? y = t.get? y) :
    Layout s q names t' loaded where
  size := Nat.le_trans h.size hsize
  preserved := hpreserved
  files key x hx := (h.files key x hx).imp_right fun ⟨n, hn, hfiled⟩ =>
    ⟨n, hn, hfiled.congr hx hsize hsame⟩
  apart key key' x x' y hx hx' hne hne' hy hy' := by
    obtain ⟨n, hn, hfiled⟩ := h.exists_filed hx hne
    obtain ⟨n', hn', hfiled'⟩ := h.exists_filed hx' hne'
    exact h.apart key key' x x' y hx hx' hne hne' ((hfiled.contains hs hn hsame y).mp hy)
      ((hfiled'.contains hs hn' hsame y).mp hy')

-- Only a schema that was moved is changed.
theorem Layout.set (hs : Splits s q names) (h : Layout s q names t loaded)
    (hbody : chosen? s q.document names body = some n) (c : Container) :
    Layout s q names (t.set body c) loaded := by
  obtain ⟨m, hm⟩ := hs.isBody hbody
  have hlt : body < s.nodes.size := lt_size_of_mapping? hm.mapping
  refine h.congr hs (Nat.le_of_eq (size_set t body c).symm) (fun id hid hnone => ?_) fun y hy _ => ?_
  · rw [get?_set_of_ne t c, h.preserved id hid hnone]
    rintro rfl
    rw [hbody] at hnone
    cases hnone
  · exact get?_set_of_ne t c (Nat.ne_of_lt (Nat.lt_of_lt_of_le hlt hy))

-- A file is loaded next to the others.
theorem Layout.load (hs : Splits s q names) (h : Layout s q names t loaded) (hext : t.Extends t')
    (hnew : loaded.get? key = none) (hn : n ∈ names) (hkey : q.fileKey? n = some key)
    (hcopy : ∀ body, componentIn? s q.document "schemas" n = some body →
      IsCopy s body t' t.nodes.size x) :
    Layout s q names t' (loaded.insert key x) := by
  have hold : Layout s q names t' loaded :=
    h.congr hs hext.size (fun id hid hnone =>
      (hext.old id (Nat.lt_of_lt_of_le hid h.size)).trans (h.preserved id hid hnone))
      fun y _ hy => hext.old y hy
  have hget {key' : String} {x' : NodeId} (hx : (loaded.insert key x).get? key' = some x') :
      key' = key ∧ x' = x ∨ loaded.get? key' = some x' := by
    rw [OrderedMap.get?_insert] at hx
    split at hx
    · next heq => exact .inl ⟨(eq_of_beq heq).symm, (Option.some.inj hx).symm⟩
    · exact .inr hx
  have hkept {key' : String} {x' : NodeId} (hx : loaded.get? key' = some x') :
      (loaded.insert key x).get? key' = some x' := by
    rw [OrderedMap.get?_insert, if_neg, hx]
    intro heq
    rw [eq_of_beq heq, hx] at hnew
    cases hnew
  -- The new file is made of new containers.
  have hfresh {y : NodeId} (hy : t'.Contains x y) : t.nodes.size ≤ y := by
    obtain ⟨body, m, hbody⟩ := hs.exists_body hn
    exact ((hcopy body hbody.component).fresh y hy).1
  have hrange {key' : String} {x' y : NodeId} (hx : loaded.get? key' = some x') (hne : x' ≠ q.document)
      (hy : t'.Contains x' y) : y < t.nodes.size := by
    obtain ⟨n', hn', hfiled⟩ := h.exists_filed hx hne
    have hbefore := (hfiled.contains hs hn' (fun y _ hy => hext.old y hy) y).mp hy
    exact (hfiled.range hs hn' hbefore).2
  constructor
  · exact hold.size
  · exact hold.preserved
  · intro key' x' hx
    rcases hget hx with ⟨rfl, rfl⟩ | hx'
    · refine .inr ⟨n, hn, hkey, hx, fun body hbody => (hcopy body hbody).mono h.size⟩
    · refine (hold.files key' x' hx').imp_right fun ⟨n', hn', hfiled⟩ => ⟨n', hn', ?_⟩
      exact ⟨hfiled.keyed, hkept hx', hfiled.copy⟩
  · intro key₁ key₂ x₁ x₂ y hx₁ hx₂ hne₁ hne₂ hy₁ hy₂
    rcases hget hx₁ with ⟨rfl, rfl⟩ | hold₁
    · rcases hget hx₂ with ⟨rfl, -⟩ | hold₂
      · rfl
      · exact absurd (hrange hold₂ hne₂ hy₂) (Nat.not_lt.mpr (hfresh hy₁))
    · rcases hget hx₂ with ⟨rfl, rfl⟩ | hold₂
      · exact absurd (hrange hold₁ hne₁ hy₁) (Nat.not_lt.mpr (hfresh hy₂))
      · exact hold.apart key₁ key₂ x₁ x₂ y hold₁ hold₂ hne₁ hne₂ hy₁ hy₂

theorem Returned.congr (hs : Splits s q names) (hn : n ∈ names) (h : Returned s q t loaded n body)
    (hkept : ∀ key x, loaded.get? key = some x → loaded'.get? key = some x)
    (hsize : t.nodes.size ≤ t'.nodes.size)
    (hsame : ∀ y, s.nodes.size ≤ y → y < t.nodes.size → t'.get? y = t.get? y)
    (hbody : t'.get? body = t.get? body) : Returned s q t' loaded' n body := by
  obtain ⟨key, x, hfiled, hm⟩ := h
  refine ⟨key, x, hfiled.congr (hkept key x hfiled.found) hsize hsame, ?_⟩
  obtain ⟨hlow, hhigh⟩ := hfiled.range hs hn (y := x) ⟨[], rfl⟩
  rw [mapping?_congr hbody, entries_congr (hsame x hlow hhigh)]
  exact hm

end Steps

section Laid

variable {s t' : Store} {q : Request} {names : List String} {n key : String} {x id : NodeId} {r : Run}

theorem Laid.isSome_mapping? (h : Laid s q names r) (hc : chosen? s q.document names id = some n) :
    (r.store.mapping? id).isSome := by
  rcases h.body id n hc with hm | ⟨-, key, x, -, hm⟩
  · exact Option.isSome_of_eq_some hm
  · exact Option.isSome_of_eq_some hm

theorem Splits.lt_size_of_chosen? (hs : Splits s q names) (hc : chosen? s q.document names id = some n) :
    id < s.nodes.size := by
  obtain ⟨m, hbody⟩ := hs.isBody hc
  exact lt_size_of_mapping? hbody.mapping

theorem Laid.load (hs : Splits s q names) (h : Laid s q names r) (hext : r.store.Extends t')
    (hnew : r.loaded.get? key = none) (hn : n ∈ names) (hkey : q.fileKey? n = some key)
    (hcopy : ∀ body, componentIn? s q.document "schemas" n = some body →
      IsCopy s body t' r.store.nodes.size x) :
    Laid s q names { r with store := t', loaded := r.loaded.insert key x } where
  layout := h.layout.load hs hext hnew hn hkey hcopy
  body id n' hc := by
    have hget : t'.get? id = r.store.get? id :=
      hext.old id (Nat.lt_of_lt_of_le (hs.lt_size_of_chosen? hc) h.layout.size)
    refine (h.body id n' hc).imp (fun hm => (mapping?_congr hget).trans hm) fun ⟨hv, hreturned⟩ => ⟨hv, ?_⟩
    refine hreturned.congr hs (of_chosen? hc).1 (fun key' x' hx' => ?_) hext.size
      (fun y _ hy => hext.old y hy) hget
    rw [OrderedMap.get?_insert, if_neg, hx']
    intro heq
    rw [eq_of_beq heq, hx'] at hnew
    cases hnew
  log := h.log

-- The schema takes the content of its file.
theorem Laid.take (hs : Splits s q names) (h : Laid s q names r)
    (hc : chosen? s q.document names id = some n) (hfiled : Filed s q r.store r.loaded n key x) :
    Laid s q names { r with
      store := r.store.set id (.mapping (withNote n (r.store.entries x)))
      visited := id :: r.visited } where
  layout := h.layout.set hs hc _
  body id' n' hc' := by
    have hsame : ∀ y, s.nodes.size ≤ y → y < r.store.nodes.size →
        (r.store.set id (.mapping (withNote n (r.store.entries x)))).get? y = r.store.get? y :=
      fun y hy _ => get?_set_of_ne _ _ (Nat.ne_of_lt (Nat.lt_of_lt_of_le (hs.lt_size_of_chosen? hc) hy))
    have hsize := Nat.le_of_eq (size_set r.store id (.mapping (withNote n (r.store.entries x)))).symm
    by_cases heq : id = id'
    · subst heq
      obtain rfl : n = n' := Option.some.inj (hc.symm.trans hc')
      obtain ⟨m, hm⟩ := Option.isSome_iff_exists.mp (h.isSome_mapping? hc)
      have hrange := hfiled.range hs (of_chosen? hc).1 (y := x) ⟨[], rfl⟩
      refine .inr ⟨List.mem_cons_self, key, x, hfiled.congr hfiled.found hsize hsame, ?_⟩
      rw [mapping?_set_self hm]
      exact congrArg (fun e => some (withNote n e)) (entries_congr (hsame x hrange.1 hrange.2)).symm
    · have hget := get?_set_of_ne r.store (.mapping (withNote n (r.store.entries x))) heq
      refine (h.body id' n' hc').imp (fun hm => (mapping?_congr hget).trans hm) fun ⟨hv, hreturned⟩ =>
        ⟨List.mem_cons_of_mem _ hv, ?_⟩
      exact hreturned.congr hs (of_chosen? hc').1 (fun _ _ hx => hx) hsize hsame hget
  log := h.log

end Laid

end ApiGraph.Splitting
