import ApiGraph.Proofs.Document.Equality
import ApiGraph.Proofs.Firsts
import ApiGraph.Schema.Composition

namespace ApiGraph

section Entries

theorem Key.string?_eq_some {k : Key} {name : String} : k.string? = some name ↔ k = .str name := by
  obtain ⟨x⟩ := k
  cases x <;> simp [Key.string?, Key.str]

-- Entries are the same if their keys are.
def SameKey {ν : Type} (e e' : Key × ν) : Prop := (e.1 == e'.1) = true

theorem SameKey.trans {ν : Type} (e e' e'' : Key × ν) (h : SameKey e e') (h' : SameKey e' e'') :
    SameKey e e'' := BEq.trans h h'

namespace OrderedMap

variable {ν ν' : Type} {m : OrderedMap Key ν} {k : Key}

theorem get?_mapValues (f : ν → ν') : (m.mapValues f).get? k = (m.get? k).map f := by
  simp only [get?, mapValues, List.find?_map, Option.map_map]
  rfl

theorem contains_iff_covers {e : Key × ν} : m.contains e.1 = true ↔ Covers SameKey m.entries e := by
  simp [contains, Covers, SameKey]

theorem isEmpty_iff_get? : m.isEmpty = true ↔ ∀ k, m.get? k = none := by
  refine ⟨fun h k => by simp [get?, List.isEmpty_iff.mp h], fun h => List.isEmpty_iff.mpr ?_⟩
  cases hm : m.entries with
  | nil => rfl
  | cons e rest =>
      have hsome : m.get? e.1 = some e.2 := get?_of_mem (by rw [hm]; exact List.mem_cons_self)
      rw [h] at hsome
      cases hsome

-- What a new entry under each key adds to a map.
theorem exists_firstsAfter_insertNew (l : List (Key × ν)) (m : OrderedMap Key ν) :
    ∃ kept, (l.foldl (fun acc e => acc.insertNew e.1 e.2) m).entries = m.entries ++ kept ∧
      FirstsAfter SameKey m.entries l kept := by
  induction l generalizing m with
  | nil => exact ⟨[], by simp, .nil⟩
  | cons e rest ih =>
      rw [List.foldl_cons, insertNew]
      by_cases he : m.contains e.1 = true
      · rw [if_pos he]
        have hold := contains_iff_covers.mp he
        obtain ⟨kept, hentries, hkept⟩ := ih m
        exact ⟨kept, hentries, .skip hold (hkept.congr fun x =>
          (covers_concat_of_covers SameKey.trans hold).symm)⟩
      · rw [if_neg he]
        have hnone : m.get? e.1 = none := by
          rw [contains_eq_isSome_get?] at he
          simpa using he
        obtain ⟨kept, hentries, hkept⟩ := ih (m.insert e.1 e.2)
        rw [entries_insert_of_get?_eq_none _ hnone] at hentries hkept
        exact ⟨e :: kept, by rw [hentries, List.append_assoc]; rfl,
          .keep (fun hold => he (contains_iff_covers.mpr hold)) hkept⟩

end OrderedMap

end Entries

namespace Composition

-- The keys whose first value is kept.
def givenKeys : List String := facets ++ ["items"]

@[ext] structure Declared where
  given : String → Option Value
  properties : List (Key × Value)
  required : List Value
  confined : ∀ key, key ∉ givenKeys → given key = none

def declaredIn (s : Store) (m : Entries) : Declared where
  given key := if key ∈ givenKeys then m.field? key else none
  properties := (((m.field? "properties").bind s.asMapping?).map fun e => e.2.entries).getD []
  required := ((m.field? "required").bind s.asSequence?).getD []
  confined _ hkey := if_neg hkey

def declared (s : Store) (schema : NodeId) : Declared := declaredIn s (s.entries schema)

namespace Declared

def empty : Declared := ⟨fun _ => none, [], [], fun _ _ => rfl⟩

def isEmpty (c : Declared) : Bool :=
  (givenKeys.all fun key => (c.given key).isNone) && c.properties.isEmpty && c.required.isEmpty

-- The first of several declarations counts.
@[mk_iff] structure Merges (s : Store) (cs : List Declared) (c : Declared) : Prop where
  given : ∀ key, c.given key = cs.findSome? (·.given key)
  properties : Firsts SameKey (cs.flatMap (·.properties)) c.properties
  required : Firsts s.Same (cs.flatMap (·.required)) c.required

-- After others, merging the first is as good as merging all of the list.
structure StandsFor (s : Store) (c : Declared) (cs : List Declared) : Prop where
  given : ∀ key, c.given key = cs.findSome? (·.given key)
  properties : ∀ before kept, FirstsAfter SameKey before c.properties kept →
    FirstsAfter SameKey before (cs.flatMap (·.properties)) kept
  required : ∀ before kept, FirstsAfter s.Same before c.required kept →
    FirstsAfter s.Same before (cs.flatMap (·.required)) kept

-- The last is the first with what the second one has beyond it.
structure Absorbs (s : Store) (c more c' : Declared) : Prop where
  given : ∀ key, c'.given key = (c.given key).or (more.given key)
  properties : ∃ kept, c'.properties = c.properties ++ kept ∧
    FirstsAfter SameKey c.properties more.properties kept
  required : ∃ kept, c'.required = c.required ++ kept ∧ FirstsAfter s.Same c.required more.required kept

section Merges

variable {s : Store} {cs cs' : List Declared} {c c' more : Declared}

theorem isEmpty_iff : c.isEmpty = true ↔ c = empty := by
  have hgiven : (∀ key ∈ givenKeys, c.given key = none) ↔ c.given = fun _ => none := by
    refine ⟨fun h => funext fun key => ?_, fun h key _ => congrFun h key⟩
    by_cases hkey : key ∈ givenKeys
    · exact h key hkey
    · exact c.confined key hkey
  unfold isEmpty
  simp only [Bool.and_eq_true, List.all_eq_true, Option.isNone_iff_eq_none, List.isEmpty_iff, hgiven]
  refine ⟨fun h => Declared.ext h.1.1 h.1.2 h.2, ?_⟩
  rintro rfl
  exact ⟨⟨rfl, rfl⟩, rfl⟩

theorem merges_nil : empty.Merges s [] := ⟨fun _ => rfl, .nil, .nil⟩

theorem standsFor_self (c : Declared) : c.StandsFor s [c] where
  given key := by
    rw [List.findSome?_cons]
    cases c.given key <;> rfl
  properties before kept h := by simpa using h
  required before kept h := by simpa using h

theorem Merges.standsFor (h : c.Merges s cs) : c.StandsFor s cs where
  given := h.given
  properties _ _ h' := h.properties.nested SameKey.trans h' fun _ hx => absurd hx not_covers_nil
  required _ _ h' := h.required.nested s.same_trans h' fun _ hx => absurd hx not_covers_nil

theorem Merges.absorb (h : c.Merges s cs) (hmore : more.StandsFor s cs') (ha : Absorbs s c more c') :
    c'.Merges s (cs ++ cs') where
  given key := by rw [ha.given, List.findSome?_append, h.given, hmore.given]
  properties := by
    obtain ⟨kept, heq, hkept⟩ := ha.properties
    rw [heq, List.flatMap_append]
    exact h.properties.append_of_kept SameKey.trans (hmore.properties _ _ hkept)
  required := by
    obtain ⟨kept, heq, hkept⟩ := ha.required
    rw [heq, List.flatMap_append]
    exact h.required.append_of_kept s.same_trans (hmore.required _ _ hkept)

theorem Merges.unique (h : c.Merges s cs) (h' : c'.Merges s cs) : c = c' :=
  Declared.ext (funext fun key => (h.given key).trans (h'.given key).symm)
    (h.properties.unique h'.properties) (h.required.unique h'.required)

-- What declares nothing may be left out.
theorem merges_filter : c.Merges s (cs.filter fun c => !c.isEmpty) ↔ c.Merges s cs := by
  have hlist {α : Type} (f : Declared → List α) (hf : f empty = []) :
      (cs.filter fun c => !c.isEmpty).flatMap f = cs.flatMap f := by
    induction cs with
    | nil => rfl
    | cons c rest ih =>
        by_cases hc : c.isEmpty = true
        · rw [List.filter_cons_of_neg (by simpa using hc), ih, List.flatMap_cons, isEmpty_iff.mp hc, hf,
            List.nil_append]
        · rw [List.filter_cons_of_pos (by simpa using hc), List.flatMap_cons, List.flatMap_cons, ih]
  have hgiven (key : String) :
      (cs.filter fun c => !c.isEmpty).findSome? (·.given key) = cs.findSome? (·.given key) := by
    have hhead := congrArg List.head? (hlist (fun c => (c.given key).toList) rfl)
    simpa only [List.head?_flatMap, Option.head?_toList] using hhead
  rw [merges_iff, merges_iff, hlist _ rfl, hlist _ rfl]
  simp only [hgiven]

theorem Merges.isEmpty_iff (h : c.Merges s cs) : c.isEmpty = true ↔ ∀ c' ∈ cs, c'.isEmpty = true := by
  have hgiven : (∀ key, c.given key = none) ↔ ∀ c' ∈ cs, ∀ key, c'.given key = none := by
    simp only [h.given, List.findSome?_eq_none_iff]
    exact ⟨fun h c' hc' key => h key c' hc', fun h key c' hc' => h c' hc' key⟩
  have hproperties := h.properties.eq_nil_iff
  have hrequired := h.required.eq_nil_iff
  rw [List.flatMap_eq_nil_iff] at hproperties hrequired
  have hempty (c : Declared) : c.isEmpty = true ↔
      (∀ key, c.given key = none) ∧ c.properties = [] ∧ c.required = [] := by
    rw [Declared.isEmpty_iff, Declared.ext_iff, funext_iff]
    rfl
  simp only [hempty, hgiven, hproperties, hrequired]
  exact ⟨fun ⟨hg, hp, hr⟩ c' hc' => ⟨hg c' hc', hp c' hc', hr c' hc'⟩,
    fun h => ⟨fun c' hc' => (h c' hc').1, fun c' hc' => (h c' hc').2.1, fun c' hc' => (h c' hc').2.2⟩⟩

end Merges

-- The entry of the key in a merged schema.
def slot? (c : Declared) (key : String) : Option Slot :=
  if key ∈ givenKeys then (c.given key).map .given
  else if key = "properties" then if c.properties.isEmpty then none else some .properties
  else if key = "required" then if c.required.isEmpty then none else some .required
  else none

end Declared

end Composition

end ApiGraph
