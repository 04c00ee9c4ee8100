import ApiGraph.Proofs.Document.Comparison
import ApiGraph.Proofs.Schema.Leaves

namespace ApiGraph

theorem FirstsAfter.split {α : Type} {same : α → α → Prop} {before l l' kept : List α}
    (h : FirstsAfter same before (l ++ l') kept) :
    ∃ first last, kept = first ++ last ∧ FirstsAfter same before l first ∧
      FirstsAfter same (before ++ l) l' last := by
  induction l generalizing before kept with
  | nil => exact ⟨[], kept, rfl, .nil, by simpa using h⟩
  | cons a rest ih =>
      cases h with
      | keep hnew h =>
          obtain ⟨first, last, rfl, hfirst, hlast⟩ := ih h
          exact ⟨a :: first, last, rfl, .keep hnew hfirst, by simpa using hlast⟩
      | skip hold h =>
          obtain ⟨first, last, rfl, hfirst, hlast⟩ := ih h
          exact ⟨first, last, rfl, .skip hold hfirst, by simpa using hlast⟩

namespace Composition

namespace Declared

def property? (c : Declared) (k : Key) : Option Value := (c.properties.find? (·.1 == k)).map Prod.snd

structure Alike (s : Store) (c c' : Declared) : Prop where
  given : ∀ key, Option.Rel s.Same (c.given key) (c'.given key)
  properties : ∀ k, Option.Rel s.Same (c.property? k) (c'.property? k)
  required : List.Forall₂ s.Same c.required c'.required

-- After the same schemas, the ones add the same as the others.
structure Exchangeable (s : Store) (before cs cs' : List Declared) : Prop where
  given : ∀ key, (∀ c ∈ before, c.given key = none) →
    Option.Rel s.Same (cs.findSome? (·.given key)) (cs'.findSome? (·.given key))
  properties : ∀ k, (∀ c ∈ before, c.property? k = none) →
    Option.Rel s.Same (cs.findSome? (·.property? k)) (cs'.findSome? (·.property? k))
  required : ∃ kept kept', FirstsAfter s.Same (before.flatMap (·.required)) (cs.flatMap (·.required)) kept ∧
    FirstsAfter s.Same (before.flatMap (·.required)) (cs'.flatMap (·.required)) kept' ∧
    List.Forall₂ s.Same kept kept'

section Alike

variable {s : Store} {c c' : Declared} {before cs cs' : List Declared} {o o' : Option Value}

theorem forall₂_append_iff {l l₁ l₂ : List Value} :
    List.Forall₂ s.Same (l ++ l₁) (l ++ l₂) ↔ List.Forall₂ s.Same l₁ l₂ := by
  induction l with
  | nil => rfl
  | cons v rest ih =>
      rw [List.cons_append, List.cons_append, List.forall₂_cons, ih]
      exact and_iff_right (.refl s v)

theorem Alike.refl (s : Store) (c : Declared) : c.Alike s c where
  given _ := Store.rel_same_refl s _
  properties _ := Store.rel_same_refl s _
  required := Store.forall₂_same_refl s _

theorem Merges.property? (h : c.Merges s cs) (k : Key) : c.property? k = cs.findSome? (·.property? k) := by
  have hfind := h.properties.find? (p := fun e : Key × Value => e.1 == k)
    (fun _ _ hsame hk => BEq.trans hsame hk) (by simp)
  unfold Declared.property?
  rw [hfind, List.find?_flatMap, List.map_findSome?]
  rfl

-- What one of the first schemas declares is the same in any case.
theorem rel_append_iff {f : Declared → Option Value} :
    Option.Rel s.Same ((before ++ cs).findSome? f) ((before ++ cs').findSome? f) ↔
      ((∀ c ∈ before, f c = none) → Option.Rel s.Same (cs.findSome? f) (cs'.findSome? f)) := by
  rw [List.findSome?_append, List.findSome?_append]
  cases hbefore : before.findSome? f with
  | none =>
      rw [List.findSome?_eq_none_iff] at hbefore
      exact ⟨fun h _ => h, fun h => h hbefore⟩
  | some v =>
      refine ⟨fun _ h => ?_, fun _ => Store.rel_same_refl s _⟩
      rw [List.findSome?_eq_none_iff.mpr h] at hbefore
      cases hbefore

theorem Merges.alike_iff (h : c.Merges s (before ++ cs)) (h' : c'.Merges s (before ++ cs')) :
    c.Alike s c' ↔ Exchangeable s before cs cs' := by
  have hgiven : (∀ key, Option.Rel s.Same (c.given key) (c'.given key)) ↔
      ∀ key, (∀ c ∈ before, c.given key = none) →
        Option.Rel s.Same (cs.findSome? (·.given key)) (cs'.findSome? (·.given key)) :=
    forall_congr' fun key => by rw [h.given, h'.given, rel_append_iff]
  have hproperties : (∀ k, Option.Rel s.Same (c.property? k) (c'.property? k)) ↔
      ∀ k, (∀ c ∈ before, c.property? k = none) →
        Option.Rel s.Same (cs.findSome? (·.property? k)) (cs'.findSome? (·.property? k)) :=
    forall_congr' fun k => by rw [h.property?, h'.property?, rel_append_iff]
  have hrequired := h.required
  have hrequired' := h'.required
  rw [List.flatMap_append] at hrequired hrequired'
  obtain ⟨first, last, heq, hfirst, hlast⟩ := FirstsAfter.split hrequired
  obtain ⟨first', last', heq', hfirst', hlast'⟩ := FirstsAfter.split hrequired'
  obtain rfl := hfirst.unique hfirst'
  have hnames : List.Forall₂ s.Same c.required c'.required ↔ List.Forall₂ s.Same last last' := by
    rw [heq, heq', forall₂_append_iff]
  constructor
  · intro halike
    exact ⟨hgiven.mp halike.given, hproperties.mp halike.properties, last, last', hlast, hlast',
      hnames.mp halike.required⟩
  · rintro ⟨hg, hp, kept, kept', hkept, hkept', hall⟩
    refine ⟨hgiven.mpr hg, hproperties.mpr hp, hnames.mpr ?_⟩
    rwa [hlast.unique hkept, hlast'.unique hkept']

theorem isEmpty_iff_lookups : c.isEmpty = true ↔
    (∀ key, c.given key = none) ∧ (∀ k, c.property? k = none) ∧ c.required = [] := by
  rw [isEmpty_iff]
  constructor
  · rintro rfl
    exact ⟨fun _ => rfl, fun _ => rfl, rfl⟩
  · rintro ⟨hgiven, hproperties, hrequired⟩
    refine Declared.ext (funext hgiven) (List.eq_nil_iff_forall_not_mem.mpr fun e he => ?_) hrequired
    have hnone := List.find?_eq_none.mp (Option.map_eq_none_iff.mp (hproperties e.1)) e he
    exact hnone BEq.rfl

theorem rel_none_iff {R : Value → Value → Prop} (h : Option.Rel R o o') : o = none ↔ o' = none := by
  cases h <;> simp

theorem forall₂_nil_iff {R : Value → Value → Prop} {l l' : List Value} (h : List.Forall₂ R l l') :
    l = [] ↔ l' = [] := by
  cases h <;> simp

theorem Alike.isEmpty_iff (h : c.Alike s c') : c.isEmpty = true ↔ c'.isEmpty = true := by
  rw [isEmpty_iff_lookups, isEmpty_iff_lookups, forall_congr' fun key => rel_none_iff (h.given key),
    forall_congr' fun k => rel_none_iff (h.properties k), forall₂_nil_iff h.required]

end Alike

end Declared

section Written

open Declared (rel_none_iff forall₂_nil_iff)

variable {s t : Store} {d d' : Draft} {p q r p' q' r' : NodeId} {o o' : Option Value} {l l' : List Value}

theorem rel_congr (hs : s.Closed) (hr : s.Retains t) (ho : ∀ v ∈ o, v.within s.nodes.size = true)
    (ho' : ∀ v ∈ o', v.within s.nodes.size = true) : Option.Rel t.Same o o' ↔ Option.Rel s.Same o o' := by
  have hmono {R S : Value → Value → Prop} (h : ∀ v ∈ o, ∀ w ∈ o', R v w → S v w)
      (hrel : Option.Rel R o o') : Option.Rel S o o' := by
    cases hrel with
    | none => exact .none
    | some hvw => exact .some (h _ rfl _ rfl hvw)
  have hsame (v : Value) (hv : v ∈ o) (w : Value) (hw : w ∈ o') : t.Same v w ↔ s.Same v w :=
    Store.same_congr hs hr (ho v hv) (ho' w hw)
  exact ⟨hmono fun v hv w hw => (hsame v hv w hw).mp, hmono fun v hv w hw => (hsame v hv w hw).mpr⟩

theorem forall₂_same_congr (hs : s.Closed) (hr : s.Retains t) (hl : ∀ v ∈ l, v.within s.nodes.size = true)
    (hl' : ∀ v ∈ l', v.within s.nodes.size = true) :
    List.Forall₂ t.Same l l' ↔ List.Forall₂ s.Same l l' := by
  have hsame {v w : Value} (hmem : (v, w) ∈ l.zip l') : t.Same v w ↔ s.Same v w :=
    Store.same_congr hs hr (hl v (List.of_mem_zip hmem).1) (hl' w (List.of_mem_zip hmem).2)
  rw [List.forall₂_iff_zip, List.forall₂_iff_zip]
  exact and_congr_right fun _ =>
    ⟨fun h _ _ hmem => (hsame hmem).mp (h hmem), fun h _ _ hmem => (hsame hmem).mpr (h hmem)⟩

-- Entries that are there for what is not empty.
theorem rel_ite_iff {R : Value → Value → Prop} {b b' : Bool} {v w : Value} :
    Option.Rel R (if b = true then none else some v) (if b' = true then none else some w) ↔
      b = b' ∧ (b = false → R v w) := by
  have hsome : Option.Rel R (some v) (some w) ↔ R v w := ⟨fun h => by cases h; assumption, .some⟩
  have hleft : ¬Option.Rel R (some v) none := fun h => by cases h
  have hright : ¬Option.Rel R none (some w) := fun h => by cases h
  cases b <;> cases b' <;> simp [hsome, hleft, hright]

theorem Draft.Fit.within_get? {size : Nat} (hd : d.Fit size) {k : Key} :
    ∀ v ∈ d.properties.get? k, v.within size = true := by
  intro v hv
  obtain ⟨e, he, rfl⟩ := Option.map_eq_some_iff.mp hv
  exact hd.within.properties e (List.mem_of_find?_eq_some he)

variable (hs : s.Closed) (hr : s.Retains t) (hd : d.Fit s.nodes.size) (hd' : d'.Fit s.nodes.size)
  (h : d.Written s.nodes.size t p q r) (h' : d'.Written s.nodes.size t p' q' r')

include hs hr hd hd' h h'

theorem Draft.Written.rel_properties_iff :
    Option.Rel t.Same ((d.declared.slot? "properties").map (Slot.value p q))
        ((d'.declared.slot? "properties").map (Slot.value p' q')) ↔
      ∀ k, Option.Rel s.Same (d.declared.property? k) (d'.declared.property? k) := by
  have hrel (k : Key) : Option.Rel t.Same (d.properties.get? k) (d'.properties.get? k) ↔
      Option.Rel s.Same (d.declared.property? k) (d'.declared.property? k) :=
    rel_congr hs hr hd.within_get? hd'.within_get?
  rw [map_slot?_properties, map_slot?_properties, rel_ite_iff, ← forall_congr' hrel]
  constructor
  · rintro ⟨hempty, hsame⟩ k
    cases he : d.properties.isEmpty with
    | true =>
        rw [OrderedMap.isEmpty_iff_get?.mp he, OrderedMap.isEmpty_iff_get?.mp (hempty ▸ he)]
        exact .none
    | false =>
        have hsame' := hsame he
        rw [Store.same_mapping_iff (h.mapping?_properties hd.sound he)
          (h'.mapping?_properties hd'.sound (hempty ▸ he))] at hsame'
        exact hsame' k
  · intro hall
    have hempty : d.properties.isEmpty = d'.properties.isEmpty := by
      rw [Bool.eq_iff_iff, OrderedMap.isEmpty_iff_get?, OrderedMap.isEmpty_iff_get?]
      exact forall_congr' fun k => rel_none_iff (hall k)
    refine ⟨hempty, fun he => ?_⟩
    rwa [Store.same_mapping_iff (h.mapping?_properties hd.sound he)
      (h'.mapping?_properties hd'.sound (hempty ▸ he))]

theorem Draft.Written.rel_required_iff :
    Option.Rel t.Same ((d.declared.slot? "required").map (Slot.value p q))
        ((d'.declared.slot? "required").map (Slot.value p' q')) ↔
      List.Forall₂ s.Same d.declared.required d'.declared.required := by
  have hrel : List.Forall₂ t.Same d.required d'.required ↔ List.Forall₂ s.Same d.required d'.required :=
    forall₂_same_congr hs hr hd.within.required hd'.within.required
  show _ ↔ List.Forall₂ s.Same d.required d'.required
  rw [map_slot?_required, map_slot?_required, rel_ite_iff, ← hrel]
  constructor
  · rintro ⟨hempty, hsame⟩
    cases he : d.required.isEmpty with
    | true =>
        have he' : d'.required.isEmpty = true := hempty ▸ he
        rw [List.isEmpty_iff.mp he, List.isEmpty_iff.mp he']
        exact .nil
    | false =>
        have hsame' := hsame he
        rwa [Store.same_sequence_iff (h.sequence?_required hd.sound he)
          (h'.sequence?_required hd'.sound (hempty ▸ he))] at hsame'
  · intro hall
    have hempty : d.required.isEmpty = d'.required.isEmpty := by
      rw [Bool.eq_iff_iff, List.isEmpty_iff, List.isEmpty_iff]
      exact forall₂_nil_iff hall
    refine ⟨hempty, fun he => ?_⟩
    rwa [Store.same_sequence_iff (h.sequence?_required hd.sound he)
      (h'.sequence?_required hd'.sound (hempty ▸ he))]

-- Two new schemas are equal if they declare the same.
theorem Draft.Written.same_iff : t.Same (.node r) (.node r') ↔ d.declared.Alike s d'.declared := by
  have hentry {d : Draft} {p q : NodeId} (hd : d.Sound) (k : Key) :
      (d.slots.mapValues (Slot.value p q)).get? k =
        k.string?.bind fun key => (d.declared.slot? key).map (Slot.value p q) := by
    rw [OrderedMap.get?_mapValues, hd, Option.map_bind]
    rfl
  have hgiven {d : Draft} {p q : NodeId} {key : String} (hkey : key ∈ givenKeys) :
      (d.declared.slot? key).map (Slot.value p q) = d.declared.given key := by
    rw [Declared.slot?_of_mem hkey, Option.map_map]
    exact Option.map_id'
  have hrel (key : String) : Option.Rel t.Same (d.declared.given key) (d'.declared.given key) ↔
      Option.Rel s.Same (d.declared.given key) (d'.declared.given key) :=
    rel_congr hs hr (hd.within.given key) (hd'.within.given key)
  rw [Store.same_mapping_iff h.mapping h'.mapping]
  simp only [hentry hd.sound, hentry hd'.sound]
  constructor
  · intro hall
    have hkey (key : String) := hall (.str key)
    simp only [Key.string?_eq_some.mpr rfl, Option.bind_some] at hkey
    refine ⟨fun key => ?_, (h.rel_properties_iff hs hr hd hd' h').mp (hkey _),
      (h.rel_required_iff hs hr hd hd' h').mp (hkey _)⟩
    by_cases hmem : key ∈ givenKeys
    · have hkey' := hkey key
      rw [hgiven hmem, hgiven hmem] at hkey'
      exact (hrel key).mp hkey'
    · rw [d.declared.confined key hmem, d'.declared.confined key hmem]
      exact .none
  · rintro ⟨hg, hp, hq⟩ k
    cases k.string? with
    | none => exact .none
    | some key =>
        rw [Option.bind_some, Option.bind_some]
        by_cases hmem : key ∈ givenKeys
        · rw [hgiven hmem, hgiven hmem]
          exact (hrel key).mpr (hg key)
        by_cases hproperties : key = "properties"
        · subst hproperties
          exact (h.rel_properties_iff hs hr hd hd' h').mpr hp
        by_cases hrequired : key = "required"
        · subst hrequired
          exact (h.rel_required_iff hs hr hd hd' h').mpr hq
        · simp only [Declared.slot?, if_neg hmem, if_neg hproperties, if_neg hrequired]
          exact .none

end Written

end Composition

end ApiGraph
