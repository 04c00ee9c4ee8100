import ApiGraph.Proofs.Schema.Merging

namespace ApiGraph.Composition

def Slot.given? : Slot → Option Value
  | .given v => some v
  | _ => none

namespace Declared

variable {s : Store} {c c' more : Declared}

theorem slot?_of_mem {key : String} (h : key ∈ givenKeys) : c.slot? key = (c.given key).map .given :=
  if_pos h

theorem slot?_properties :
    c.slot? "properties" = if c.properties.isEmpty then none else some .properties := rfl

theorem slot?_required : c.slot? "required" = if c.required.isEmpty then none else some .required := rfl

@[simp] theorem slot?_empty {key : String} : empty.slot? key = none := by
  simp [Declared.slot?, empty]

theorem isEmpty_iff_slot? : c.isEmpty = true ↔ ∀ key, c.slot? key = none := by
  rw [isEmpty_iff]
  refine ⟨?_, fun h => Declared.ext (funext fun key => ?_) ?_ ?_⟩
  · rintro rfl key
    exact slot?_empty
  · by_cases hkey : key ∈ givenKeys
    · have hnone := h key
      rw [slot?_of_mem hkey, Option.map_eq_none_iff] at hnone
      exact hnone
    · exact c.confined key hkey
  · have hnone := h "properties"
    rw [slot?_properties] at hnone
    by_contra hne
    rw [if_neg fun hempty => hne (List.isEmpty_iff.mp hempty)] at hnone
    cases hnone
  · have hnone := h "required"
    rw [slot?_required] at hnone
    by_contra hne
    rw [if_neg fun hempty => hne (List.isEmpty_iff.mp hempty)] at hnone
    cases hnone

theorem Absorbs.slot? (h : Absorbs s c more c') (key : String) :
    c'.slot? key = (c.slot? key).or (more.slot? key) := by
  unfold Declared.slot?
  split
  · rw [h.given]
    cases c.given key <;> rfl
  split
  · obtain ⟨kept, heq, hkept⟩ := h.properties
    cases hc : c.properties with
    | cons e rest => simp [heq, hc]
    | nil =>
        rw [hc] at heq hkept
        have hnil := Firsts.eq_nil_iff hkept
        simp [heq, hnil]
  split
  · obtain ⟨kept, heq, hkept⟩ := h.required
    cases hc : c.required with
    | cons v rest => simp [heq, hc]
    | nil =>
        rw [hc] at heq hkept
        have hnil := Firsts.eq_nil_iff hkept
        simp [heq, hnil]
  · rfl

-- Everything that is declared names only the first containers.
structure Within (size : Nat) (c : Declared) : Prop where
  given : ∀ key, ∀ v ∈ c.given key, v.within size = true
  properties : ∀ e ∈ c.properties, e.2.within size = true
  required : ∀ v ∈ c.required, v.within size = true

theorem within_empty {size : Nat} : empty.Within size where
  given _ _ h := absurd h (Option.not_mem_none _)
  properties _ h := absurd h List.not_mem_nil
  required _ h := absurd h List.not_mem_nil

theorem Absorbs.within {size : Nat} (h : Absorbs s c more c') (hc : c.Within size)
    (hmore : more.Within size) : c'.Within size where
  given key v hv := by
    rw [h.given] at hv
    rcases Option.or_eq_some_iff.mp hv with hv | ⟨-, hv⟩
    · exact hc.given key v hv
    · exact hmore.given key v hv
  properties e he := by
    obtain ⟨kept, heq, hkept⟩ := h.properties
    rw [heq] at he
    rcases List.mem_append.mp he with he | he
    · exact hc.properties e he
    · exact hmore.properties e (hkept.subset e he)
  required v hv := by
    obtain ⟨kept, heq, hkept⟩ := h.required
    rw [heq] at hv
    rcases List.mem_append.mp hv with hv | hv
    · exact hc.required v hv
    · exact hmore.required v (hkept.subset v hv)

end Declared

namespace Draft

-- What has been collected so far.
def declared (d : Draft) : Declared where
  given key := if key ∈ givenKeys then (d.slots.get? (.str key)).bind Slot.given? else none
  properties := d.properties.entries
  required := d.required
  confined _ hkey := if_neg hkey

def Sound (d : Draft) : Prop := ∀ k, d.slots.get? k = k.string?.bind d.declared.slot?

def takeGiven (c : Declared) (d : Draft) (key : String) : Draft :=
  match c.given key with
  | some v => { d with slots := d.slots.insertNew (.str key) (.given v) }
  | none => d

def takeProperties (c : Declared) (d : Draft) : Draft :=
  if c.properties.isEmpty then d
  else { d with
    slots := d.slots.insertNew (.str "properties") .properties
    properties := c.properties.foldl (fun acc e => acc.insertNew e.1 e.2) d.properties }

def takeRequired (s : Store) (c : Declared) (d : Draft) : Except Fault Draft := do
  if c.required.isEmpty then return d
  let required ← addNames s c.required d.required
  return { d with slots := d.slots.insertNew (.str "required") .required, required }

-- Adds what a schema with these declarations adds.
def take (s : Store) (d : Draft) (c : Declared) : Except Fault Draft := do
  let d := facets.foldl (takeGiven c) d
  let d := takeProperties c d
  let d ← takeRequired s c d
  return takeGiven c d "items"

section Absorb

variable {s : Store} {d : Draft} {m : Entries}

theorem addGiven_eq {key : String} (h : key ∈ givenKeys) :
    addGiven m d key = takeGiven (declaredIn s m) d key := by
  have hgiven : (declaredIn s m).given key = m.field? key := if_pos h
  unfold addGiven takeGiven
  cases hfield : m.field? key <;> simp only [hgiven, hfield]

theorem addProperties_eq : addProperties s m d = takeProperties (declaredIn s m) d := by
  unfold addProperties takeProperties declaredIn
  cases (m.field? "properties").bind s.asMapping? with
  | none => rfl
  | some e => rfl

theorem addRequired_eq : addRequired s m d = takeRequired s (declaredIn s m) d := by
  unfold addRequired takeRequired declaredIn
  cases (m.field? "required").bind s.asSequence? with
  | none => rfl
  | some l => rfl

theorem absorb_eq : absorb s d m = take s d (declaredIn s m) := by
  have hfacets : facets.foldl (addGiven m) d = facets.foldl (takeGiven (declaredIn s m)) d :=
    List.foldl_ext _ _ _ fun d key hkey => addGiven_eq (List.mem_append_left _ hkey)
  have hitems (d : Draft) : addGiven m d "items" = takeGiven (declaredIn s m) d "items" :=
    addGiven_eq (by decide)
  unfold absorb take
  simp only [hfacets, addProperties_eq, addRequired_eq, hitems]

end Absorb

section Take

variable {s : Store} {d d' : Draft} {c : Declared} {k : Key} {key : String} {f : Fault}
  {l acc : List Value}

theorem str_beq_eq_decide : (Key.str key == k) = decide (k.string? = some key) := by
  rw [Bool.eq_iff_iff, Key.str_beq_iff, decide_eq_true_iff, Key.string?_eq_some, eq_comm]

theorem get?_insertNew_str {m : OrderedMap Key Slot} {slot : Slot} :
    (m.insertNew (.str key) slot).get? k =
      (m.get? k).or (if k.string? = some key then some slot else none) := by
  rw [OrderedMap.get?_insertNew, str_beq_eq_decide]
  simp only [decide_eq_true_eq]

theorem get?_takeGiven : (takeGiven c d key).slots.get? k =
    (d.slots.get? k).or (if k.string? = some key then (c.given key).map .given else none) := by
  unfold takeGiven
  cases c.given key with
  | none => simp
  | some v => exact get?_insertNew_str

@[simp] theorem properties_takeGiven : (takeGiven c d key).properties = d.properties := by
  unfold takeGiven
  split <;> rfl

@[simp] theorem required_takeGiven : (takeGiven c d key).required = d.required := by
  unfold takeGiven
  split <;> rfl

theorem foldl_takeGiven (keys : List String) (d : Draft) :
    (keys.foldl (takeGiven c) d).properties = d.properties ∧
      (keys.foldl (takeGiven c) d).required = d.required ∧
      ∀ k, (keys.foldl (takeGiven c) d).slots.get? k = (d.slots.get? k).or
        (k.string?.bind fun key => if key ∈ keys then (c.given key).map .given else none) := by
  induction keys generalizing d with
  | nil => simp
  | cons key rest ih =>
      obtain ⟨hproperties, hrequired, hslots⟩ := ih (takeGiven c d key)
      refine ⟨by simp [hproperties], by simp [hrequired], fun k => ?_⟩
      rw [List.foldl_cons, hslots, get?_takeGiven, Option.or_assoc]
      congr 1
      cases k.string? with
      | none => rfl
      | some name =>
          by_cases hname : name = key
          · subst hname
            cases hgiven : c.given name <;> simp [hgiven]
          · simp [hname]

theorem takeProperties_spec (c : Declared) (d : Draft) :
    (takeProperties c d).required = d.required ∧
      (∃ kept, (takeProperties c d).properties.entries = d.properties.entries ++ kept ∧
        FirstsAfter SameKey d.properties.entries c.properties kept) ∧
      ∀ k, (takeProperties c d).slots.get? k = (d.slots.get? k).or
        (if k.string? = some "properties" then c.slot? "properties" else none) := by
  unfold takeProperties
  split
  · next hempty =>
    rw [Declared.slot?_properties, if_pos hempty, List.isEmpty_iff.mp hempty]
    exact ⟨rfl, ⟨[], by simp, .nil⟩, by simp⟩
  · next hempty =>
    rw [Declared.slot?_properties, if_neg hempty]
    exact ⟨rfl, OrderedMap.exists_firstsAfter_insertNew _ _, fun k => get?_insertNew_str⟩

theorem addNames_cons {v : Value} : addNames s (v :: l) acc =
    (s.member v acc >>= fun b => if b then addNames s l acc else addNames s l (acc ++ [v])) := by
  rw [addNames]

theorem exists_firstsAfter_of_addNames {acc' : List Value} (h : addNames s l acc = .ok acc') :
    ∃ kept, acc' = acc ++ kept ∧ FirstsAfter s.Same acc l kept := by
  induction l generalizing acc with
  | nil =>
      cases h
      exact ⟨[], by simp, .nil⟩
  | cons v rest ih =>
      rw [addNames_cons] at h
      cases hv : s.member v acc with
      | error f =>
          rw [hv] at h
          cases h
      | ok b =>
          rw [hv] at h
          cases b with
          | true =>
              have hold : Covers s.Same acc v := Store.exists_same_of_member hv
              obtain ⟨kept, heq, hkept⟩ := ih h
              exact ⟨kept, heq, .skip hold (hkept.congr fun x =>
                (covers_concat_of_covers s.same_trans hold).symm)⟩
          | false =>
              have hnew : ¬Covers s.Same acc v := fun ⟨w, hw, hsame⟩ => Store.not_same_of_member hv w hw hsame
              obtain ⟨kept, heq, hkept⟩ := ih h
              exact ⟨v :: kept, by rw [heq, List.append_assoc]; rfl, .keep hnew hkept⟩

-- Only a comparison can fail.
theorem exists_error_of_addNames (h : addNames s l acc = .error f) :
    ∃ v ∈ acc ++ l, ∃ w ∈ l, s.equal nestingAllowance v w = .error f := by
  induction l generalizing acc with
  | nil => cases h
  | cons v rest ih =>
      rw [addNames_cons] at h
      cases hv : s.member v acc with
      | error f' =>
          rw [hv] at h
          cases h
          obtain ⟨w, hw, herror⟩ := Store.exists_error_of_member hv
          exact ⟨w, List.mem_append_left _ hw, v, List.mem_cons_self, herror⟩
      | ok b =>
          rw [hv] at h
          cases b with
          | true =>
              obtain ⟨w, hw, u, hu, herror⟩ := ih h
              refine ⟨w, ?_, u, List.mem_cons_of_mem _ hu, herror⟩
              rw [List.append_cons]
              rcases List.mem_append.mp hw with hw | hw
              · exact List.mem_append_left _ (List.mem_append_left _ hw)
              · exact List.mem_append_right _ hw
          | false =>
              obtain ⟨w, hw, u, hu, herror⟩ := ih h
              exact ⟨w, by rwa [List.append_cons], u, List.mem_cons_of_mem _ hu, herror⟩

theorem addNames_congr {s' : Store} (hs : s.Closed) (h : s.Retains s')
    (hl : ∀ v ∈ acc ++ l, v.within s.nodes.size = true) : addNames s' l acc = addNames s l acc := by
  induction l generalizing acc with
  | nil => rfl
  | cons v rest ih =>
      rw [addNames_cons, addNames_cons]
      have hacc : ∀ w ∈ acc, w.within s.nodes.size = true := fun w hw => hl w (List.mem_append_left _ hw)
      have hv : v.within s.nodes.size = true := hl v (List.mem_append_right _ List.mem_cons_self)
      rw [Store.member_congr hs h hv hacc, ih fun w hw => hl w ?_, ih fun w hw => hl w ?_]
      · rwa [List.append_cons]
      · rw [List.append_cons]
        rcases List.mem_append.mp hw with hw | hw
        · exact List.mem_append_left _ (List.mem_append_left _ hw)
        · exact List.mem_append_right _ hw

theorem exists_of_takeRequired (h : takeRequired s c d = .ok d') :
    d'.properties = d.properties ∧
      (∃ kept, d'.required = d.required ++ kept ∧ FirstsAfter s.Same d.required c.required kept) ∧
      ∀ k, d'.slots.get? k = (d.slots.get? k).or
        (if k.string? = some "required" then c.slot? "required" else none) := by
  unfold takeRequired at h
  split at h
  · next hempty =>
    cases h
    rw [Declared.slot?_required, if_pos hempty, List.isEmpty_iff.mp hempty]
    exact ⟨rfl, ⟨[], by simp, .nil⟩, by simp⟩
  · next hempty =>
    cases hnames : addNames s c.required d.required with
    | error f =>
        rw [hnames] at h
        cases h
    | ok required =>
        rw [hnames] at h
        cases h
        rw [Declared.slot?_required, if_neg hempty]
        exact ⟨rfl, exists_firstsAfter_of_addNames hnames, fun k => get?_insertNew_str⟩

theorem takeRequired_of_error (h : takeRequired s c d = .error f) :
    addNames s c.required d.required = .error f := by
  unfold takeRequired at h
  split at h
  · cases h
  · cases hnames : addNames s c.required d.required with
    | error f' =>
        rw [hnames] at h
        cases h
        rfl
    | ok required =>
        rw [hnames] at h
        cases h

theorem take_eq : take s d c =
    (takeRequired s c (takeProperties c (facets.foldl (takeGiven c) d)) >>=
      fun d => .ok (takeGiven c d "items")) := rfl

-- An entry is new for what the draft has not declared before.
theorem slots_of_take (name : String) : c.slot? name =
    ((((if name ∈ facets then (c.given name).map Slot.given else none).or
      (if name = "properties" then c.slot? "properties" else none)).or
      (if name = "required" then c.slot? "required" else none)).or
      (if name = "items" then (c.given "items").map Slot.given else none)) := by
  by_cases hfacet : name ∈ facets
  · have hproperties : name ≠ "properties" := fun h => absurd (h ▸ hfacet) (by decide)
    have hrequired : name ≠ "required" := fun h => absurd (h ▸ hfacet) (by decide)
    have hitems : name ≠ "items" := fun h => absurd (h ▸ hfacet) (by decide)
    rw [Declared.slot?_of_mem (List.mem_append_left _ hfacet)]
    simp [hfacet, hproperties, hrequired, hitems]
  by_cases hitems : name = "items"
  · subst hitems
    rw [Declared.slot?_of_mem (by decide)]
    simp [hfacet]
  by_cases hproperties : name = "properties"
  · subst hproperties
    simp [hfacet]
  by_cases hrequired : name = "required"
  · subst hrequired
    simp [hfacet]
  · simp [Declared.slot?, givenKeys, hfacet, hitems, hproperties, hrequired]

-- What is taken goes to the end of each list, unless it is there.
theorem exists_of_take (h : take s d c = .ok d') :
    (∃ kept, d'.properties.entries = d.properties.entries ++ kept ∧
      FirstsAfter SameKey d.properties.entries c.properties kept) ∧
    (∃ kept, d'.required = d.required ++ kept ∧ FirstsAfter s.Same d.required c.required kept) ∧
    ∀ k, d'.slots.get? k = (d.slots.get? k).or (k.string?.bind c.slot?) := by
  rw [take_eq] at h
  obtain ⟨hproperties₁, hrequired₁, hslots₁⟩ := foldl_takeGiven (c := c) facets d
  obtain ⟨hrequired₂, hproperties₂, hslots₂⟩ := takeProperties_spec c (facets.foldl (takeGiven c) d)
  cases hr : takeRequired s c (takeProperties c (facets.foldl (takeGiven c) d)) with
  | error f =>
      rw [hr] at h
      cases h
  | ok d₃ =>
      rw [hr] at h
      cases h
      obtain ⟨hproperties₃, hrequired₃, hslots₃⟩ := exists_of_takeRequired hr
      refine ⟨?_, ?_, fun k => ?_⟩
      · rw [properties_takeGiven, hproperties₃, ← hproperties₁]
        exact hproperties₂
      · rw [required_takeGiven, ← hrequired₁, ← hrequired₂]
        exact hrequired₃
      · rw [get?_takeGiven, hslots₃, hslots₂, hslots₁]
        cases k.string? with
        | none => simp
        | some name =>
            simp only [Option.bind_some, Option.some.injEq, Option.or_assoc, slots_of_take name]

-- What a draft declares after it has taken from a sound start.
theorem Sound.take (hd : d.Sound) (h : take s d c = .ok d') :
    d'.Sound ∧ Declared.Absorbs s d.declared c d'.declared := by
  obtain ⟨hproperties, hrequired, hslots⟩ := exists_of_take h
  have habsorbs : Declared.Absorbs s d.declared c d'.declared := by
    refine ⟨fun key => ?_, hproperties, hrequired⟩
    by_cases hkey : key ∈ givenKeys
    · have hslot : d'.slots.get? (.str key) =
          ((d.declared.given key).map Slot.given).or ((c.given key).map Slot.given) := by
        rw [hslots, hd, Key.string?_eq_some.mpr rfl, ← Declared.slot?_of_mem hkey,
          ← Declared.slot?_of_mem hkey]
        rfl
      have hgiven : d'.declared.given key = (d'.slots.get? (.str key)).bind Slot.given? := if_pos hkey
      rw [hgiven, hslot]
      cases d.declared.given key with
      | none => cases c.given key <;> rfl
      | some v => rfl
    · rw [d'.declared.confined key hkey, d.declared.confined key hkey, c.confined key hkey]
      rfl
  refine ⟨fun k => ?_, habsorbs⟩
  rw [hslots, hd]
  cases k.string? with
  | none => rfl
  | some name => exact (habsorbs.slot? name).symm

theorem declared_empty : empty.declared = .empty := by
  refine Declared.ext (funext fun key => ?_) rfl rfl
  by_cases hkey : key ∈ givenKeys
  · exact if_pos hkey
  · exact if_neg hkey

theorem sound_empty : empty.Sound := by
  intro k
  rw [declared_empty]
  cases k.string? with
  | none => rfl
  | some name => exact Declared.slot?_empty.symm

-- A sound draft without entries has nothing collected.
theorem Sound.isEmpty_iff (hd : d.Sound) : d.slots.isEmpty = true ↔ d.declared.isEmpty = true := by
  rw [OrderedMap.isEmpty_iff_get?, Declared.isEmpty_iff_slot?]
  refine ⟨fun h key => ?_, fun h k => ?_⟩
  · have hslot := hd (.str key)
    rw [h, Key.string?_eq_some.mpr rfl] at hslot
    exact hslot.symm
  · rw [hd]
    cases k.string? with
    | none => rfl
    | some name => exact h name

-- What holds of every draft that is collected from old schemas.
structure Fit (size : Nat) (d : Draft) : Prop where
  sound : d.Sound
  within : d.declared.Within size

theorem fit_empty {size : Nat} : empty.Fit size where
  sound := sound_empty
  within := by
    rw [declared_empty]
    exact Declared.within_empty

theorem Fit.take {size : Nat} (hd : d.Fit size) (hc : c.Within size) (h : take s d c = .ok d') :
    d'.Fit size where
  sound := (hd.sound.take h).1
  within := (hd.sound.take h).2.within hd.within hc

theorem exists_error_of_take (h : take s d c = .error f) :
    ∃ v ∈ d.required ++ c.required, ∃ w ∈ c.required, s.equal nestingAllowance v w = .error f := by
  rw [take_eq] at h
  obtain ⟨-, hrequired₁, -⟩ := foldl_takeGiven (c := c) facets d
  obtain ⟨hrequired₂, -, -⟩ := takeProperties_spec c (facets.foldl (takeGiven c) d)
  cases hr : takeRequired s c (takeProperties c (facets.foldl (takeGiven c) d)) with
  | error f' =>
      rw [hr] at h
      cases h
      rw [← hrequired₁, ← hrequired₂]
      exact exists_error_of_addNames (takeRequired_of_error hr)
  | ok d₃ =>
      rw [hr] at h
      cases h

theorem take_congr {s' : Store} (hs : s.Closed) (h : s.Retains s')
    (hl : ∀ v ∈ d.required ++ c.required, v.within s.nodes.size = true) : take s' d c = take s d c := by
  obtain ⟨-, hrequired₁, -⟩ := foldl_takeGiven (c := c) facets d
  obtain ⟨hrequired₂, -, -⟩ := takeProperties_spec c (facets.foldl (takeGiven c) d)
  rw [take_eq, take_eq]
  unfold takeRequired
  rw [hrequired₂, hrequired₁, addNames_congr hs h hl]

end Take

end Draft

end ApiGraph.Composition
