import ApiGraph.Proofs.Reference.Navigation

namespace ApiGraph.Reference

open ApiGraph.Text

-- The segment is read as the position, or as what is left to the end from there.
def Selects (segment : String) (n i : Nat) : Prop :=
  i < n ∧ (Spells segment.toList i ∨ Spells segment.toList (i - n))

section Selects

variable {segment other : String} {n i j : Nat} {items : List Value} {k : Int} {t : Value}

theorem Selects.unique (h : Selects segment n i) (h' : Selects segment n j) : i = j := by
  obtain ⟨hi, hk⟩ := h
  obtain ⟨hj, hk'⟩ := h'
  rcases hk with hk | hk <;> rcases hk' with hk' | hk' <;>
  · have heq := hk.unique hk'
    omega

theorem itemAt?_eq_some_iff :
    itemAt? items k = some t ↔
      ∃ i : Nat, items[i]? = some t ∧ (k = i ∨ k = i - items.length) := by
  constructor
  · intro h
    unfold itemAt? at h
    split at h
    next hk => exact ⟨k.toNat, h, .inl (by omega)⟩
    next hk =>
      split at h
      next hlow => exact ⟨(items.length + k).toNat, h, .inr (by omega)⟩
      next hlow => cases h
  · rintro ⟨i, hi, rfl | rfl⟩
    · rwa [itemAt?_natCast]
    · have hlt := (List.getElem?_eq_some_iff.mp hi).1
      unfold itemAt?
      rw [if_neg (by omega), if_pos (by omega)]
      rwa [show ((items.length : Int) + (i - items.length)).toNat = i by omega]

theorem bind_itemAt?_eq_some_iff :
    (integer? 10 segment.toList).bind (itemAt? items) = some t ↔
      ∃ i, Selects segment items.length i ∧ items[i]? = some t := by
  rw [Option.bind_eq_some_iff]
  constructor
  · rintro ⟨k, hk, hitem⟩
    have hspells := integer?_eq_some_iff.mp hk
    obtain ⟨i, hi, hplace⟩ := itemAt?_eq_some_iff.mp hitem
    refine ⟨i, ⟨(List.getElem?_eq_some_iff.mp hi).1, ?_⟩, hi⟩
    rcases hplace with rfl | rfl
    · exact .inl hspells
    · exact .inr hspells
  · rintro ⟨i, ⟨-, hspells⟩, hi⟩
    rcases hspells with hspells | hspells
    · exact ⟨_, integer?_eq_some_iff.mpr hspells, itemAt?_eq_some_iff.mpr ⟨i, hi, .inl rfl⟩⟩
    · exact ⟨_, integer?_eq_some_iff.mpr hspells, itemAt?_eq_some_iff.mpr ⟨i, hi, .inr rfl⟩⟩

-- Of all the segments that select an item, one is a decimal form, and it is that of the position.
theorem Selects.eq_toString_iff (h : Selects segment n i) :
    segment = toString i ↔ IsDecimal segment.toList := by
  constructor
  · rintro rfl
    exact isDecimal_toString i
  · intro hdecimal
    obtain ⟨hi, hk⟩ := h
    rcases hk with hk | hk
    all_goals
      obtain ⟨j, hj, htext⟩ := hdecimal.eq_toString hk
      obtain rfl : j = i := by omega
      exact String.toList_inj.mp htext

end Selects

section Sequence

variable {s : Store} {v : Value} {id : NodeId} {items : List Value} {segment pointer : String}
  {before after : List String}

theorem follow_append {path path' : List String} :
    follow s v (path ++ path') = follow s v path >>= fun w => follow s w path' :=
  List.foldlM_append

theorem resolve_eq_of_sequence (hpointer : segments pointer = before ++ segment :: after)
    (hbefore : follow s v before = .ok (.node id)) (hitems : s.sequence? id = some items) :
    resolve s v pointer =
      match (integer? 10 segment.toList).bind (itemAt? items) with
      | some child => follow s child after
      | none => .error (.badIndex segment) := by
  unfold resolve
  rw [hpointer, follow_append, hbefore]
  show (step s (.node id) segment >>= fun w => follow s w after) = _
  rw [step_sequence hitems]
  cases (integer? 10 segment.toList).bind (itemAt? items) <;> rfl

-- Where a pointer comes to a sequence, the rest of it is followed from the item that the segment
-- selects, and a segment that selects none is an error. The segment is the decimal form of the position
-- if it is any decimal form; so two segments for one item are not both of that form.
theorem resolve_through_sequence (hpointer : segments pointer = before ++ segment :: after)
    (hbefore : follow s v before = .ok (.node id)) (hitems : s.sequence? id = some items) :
    (∀ i w, Selects segment items.length i → items[i]? = some w →
      resolve s v pointer = follow s w after) ∧
    ((∀ i, ¬Selects segment items.length i) → resolve s v pointer = .error (.badIndex segment)) ∧
    ∀ i, Selects segment items.length i →
      (segment = toString i ↔ IsDecimal segment.toList) ∧
      ∀ other, Selects other items.length i → IsDecimal segment.toList → IsDecimal other.toList →
        other = segment := by
  rw [resolve_eq_of_sequence hpointer hbefore hitems]
  refine ⟨fun i w hi hw => ?_, fun hnone => ?_, fun i hi => ⟨hi.eq_toString_iff, ?_⟩⟩
  · rw [bind_itemAt?_eq_some_iff.mpr ⟨i, hi, hw⟩]
  · cases hitem : (integer? 10 segment.toList).bind (itemAt? items) with
    | none => rfl
    | some w =>
        obtain ⟨i, hi, -⟩ := bind_itemAt?_eq_some_iff.mp hitem
        exact absurd hi (hnone i)
  · intro other hother hsegment hdecimal
    rw [hi.eq_toString_iff.mpr hsegment, hother.eq_toString_iff.mpr hdecimal]

end Sequence

def twoTags : Store := ⟨#[.ofFields [("a", .node 1)], .sequence [.str "x", .str "y"]]⟩

-- A negative number selects an item, but it is not the decimal form of a position.
theorem resolve_twoTags :
    Selects "-1" 2 1 ∧ ¬IsDecimal "-1".toList ∧
      resolve twoTags (.node 0) "/a/-1" = .ok (.str "y") := by
  have hselects : Selects "-1" 2 1 :=
    ⟨by decide, .inr (integer?_eq_some_iff.mp (by decide))⟩
  have hdecimal : ¬IsDecimal "-1".toList := fun h => by
    have hdigit := h.2.1 '-' (by decide)
    cases hdigit
  refine ⟨hselects, hdecimal, ?_⟩
  have hpointer : segments "/a/-1" = ["a"] ++ "-1" :: [] := by decide
  have hbefore : follow twoTags (.node 0) ["a"] = .ok (.node 1) := rfl
  have hitems : twoTags.sequence? 1 = some [.str "x", .str "y"] := rfl
  obtain ⟨hselected, -, -⟩ := resolve_through_sequence hpointer hbefore hitems
  exact hselected 1 (.str "y") hselects rfl

end ApiGraph.Reference
