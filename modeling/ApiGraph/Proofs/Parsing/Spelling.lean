import ApiGraph.Proofs.Parsing.Number
import Mathlib.Data.List.Induction

namespace ApiGraph.Text

-- Digits with their values; one underscore may stand between two of them.
inductive Grouped (digit? : Char → Option Nat) : List Char → List Nat → Prop
  | last {c : Char} {d : Nat} (h : digit? c = some d) : Grouped digit? [c] [d]
  | next {c : Char} {d : Nat} {cs : List Char} {ds : List Nat} (h : digit? c = some d)
      (rest : Grouped digit? cs ds) : Grouped digit? (c :: cs) (d :: ds)
  | apart {c : Char} {d : Nat} {cs : List Char} {ds : List Nat} (h : digit? c = some d)
      (rest : Grouped digit? cs ds) : Grouped digit? (c :: '_' :: cs) (d :: ds)

-- The text is read as the integer.
inductive Spells : List Char → Int → Prop
  | mk {before sign digits after : List Char} {ds : List Nat} (hbefore : ∀ c ∈ before, isPadding c)
      (hsign : sign = [] ∨ sign = ['+'] ∨ sign = ['-']) (hdigits : Grouped decimalDigit? digits ds)
      (hlength : ds.length ≤ maxDecimalDigits) (hafter : ∀ c ∈ after, isPadding c) :
      Spells (before ++ (sign ++ digits ++ after))
        (if sign = ['-'] then -(ofDigits 10 ds : Int) else ofDigits 10 ds)

section Grouped

variable {digit? : Char → Option Nat} {cs : List Char} {ds : List Nat} {c : Char}

theorem Grouped.ne_nil (h : Grouped digit? cs ds) : cs ≠ [] := by
  cases h <;> exact List.cons_ne_nil _ _

theorem Grouped.isSome_head (h : Grouped digit? cs ds) :
    ∃ c rest, cs = c :: rest ∧ (digit? c).isSome := by
  cases h with
  | last h => exact ⟨_, _, rfl, by rw [h]; rfl⟩
  | next h _ => exact ⟨_, _, rfl, by rw [h]; rfl⟩
  | apart h _ => exact ⟨_, _, rfl, by rw [h]; rfl⟩

theorem Grouped.isSome_getLast (h : Grouped digit? cs ds) :
    ∃ init c, cs = init ++ [c] ∧ (digit? c).isSome := by
  induction h with
  | last h => exact ⟨[], _, rfl, by rw [h]; rfl⟩
  | next _ _ ih =>
      obtain ⟨init, c, rfl, hc⟩ := ih
      exact ⟨_ :: init, c, rfl, hc⟩
  | apart _ _ ih =>
      obtain ⟨init, c, rfl, hc⟩ := ih
      exact ⟨_ :: _ :: init, c, rfl, hc⟩

theorem groupedDigits?_eq_some_iff (hmark : digit? '_' = none) :
    groupedDigits? digit? cs = some ds ↔ Grouped digit? cs ds := by
  constructor
  · intro h
    induction cs using groupedDigits?.induct generalizing ds with
    | case1 => cases h
    | case2 c =>
        rw [groupedDigits?] at h
        obtain ⟨d, hd, rfl⟩ := Option.map_eq_some_iff.mp h
        exact .last hd
    | case3 c rest ih =>
        rw [groupedDigits?] at h
        simp only [Option.bind_eq_bind, Option.bind_eq_some_iff, Option.pure_def, Option.some.injEq] at h
        obtain ⟨d, hd, ds, hrest, rfl⟩ := h
        exact .apart hd (ih hrest)
    | case4 c rest hne hplain ih =>
        rw [groupedDigits?] at h
        · simp only [Option.bind_eq_bind, Option.bind_eq_some_iff, Option.pure_def, Option.some.injEq] at h
          obtain ⟨d, hd, ds, hrest, rfl⟩ := h
          exact .next hd (ih hrest)
        · exact hne
        · exact hplain
  · intro h
    induction h with
    | last h => rw [groupedDigits?, h]; rfl
    | next h hrest ih =>
        rw [groupedDigits?]
        · rw [h, ih]; rfl
        · exact hrest.ne_nil
        · -- An underscore is no digit.
          rintro rest rfl
          obtain ⟨_, _, heq, hhead⟩ := hrest.isSome_head
          obtain ⟨rfl, -⟩ := List.cons.inj heq
          rw [hmark] at hhead
          cases hhead
    | apart h _ ih => rw [groupedDigits?, h, ih]; rfl

end Grouped

section Scripts

variable {cs : List Char} {ds : List Nat} {c : Char}

theorem decimalDigit?_of_isDigit (h : c.isDigit) : decimalDigit? c = some (c.toNat - 48) := by
  have hall : literalChars.all fun c => c.isDigit → decimalDigit? c = some (c.toNat - 48) := by decide
  have hin := mem_literalChars_of_isDigit h
  exact of_decide_eq_true (List.all_eq_true.mp hall c hin) h

-- The digits of every script are read as those of the same value.
theorem baseDigit?_asciiDigit (c : Char) :
    (baseDigit? (asciiDigit c)).filter (· < 10) = decimalDigit? c := by
  unfold asciiDigit
  cases hc : decimalDigit? c with
  | some d =>
      have hall : ∀ d < 10, (baseDigit? (Char.ofNat (48 + d))).filter (· < 10) = some d := by decide
      exact hall d (decimalDigit?_lt hc)
  | none =>
      have hdigit : ¬c.isDigit = true := fun h => by
        rw [decimalDigit?_of_isDigit h] at hc
        cases hc
      dsimp only
      unfold baseDigit?
      rw [if_neg hdigit]
      split
      · simp
      · split <;> simp

theorem asciiDigit_eq_mark_iff {mark : Char} (h : mark ∈ ['_', '+', '-']) :
    asciiDigit c = mark ↔ c = mark := by
  have hmark : asciiDigit mark = mark ∧ ∀ d < 10, Char.ofNat (48 + d) ≠ mark := by
    simp only [List.mem_cons, List.not_mem_nil, or_false] at h
    rcases h with rfl | rfl | rfl <;> decide
  obtain ⟨hself, hne⟩ := hmark
  constructor
  · intro hc
    unfold asciiDigit at hc
    cases hd : decimalDigit? c with
    | none => rwa [hd] at hc
    | some d =>
        rw [hd] at hc
        exact absurd hc (hne d (decimalDigit?_lt hd))
  · rintro rfl
    exact hself

theorem grouped_map_asciiDigit_iff :
    Grouped (fun c => (baseDigit? c).filter (· < 10)) (cs.map asciiDigit) ds ↔
      Grouped decimalDigit? cs ds := by
  constructor
  · intro h
    generalize hcs : cs.map asciiDigit = l at h
    induction h generalizing cs with
    | last h =>
        obtain ⟨c, rfl, rfl⟩ := List.map_eq_singleton_iff.mp hcs
        exact .last (by rwa [baseDigit?_asciiDigit] at h)
    | next h _ ih =>
        obtain ⟨c, rest, rfl, rfl, hrest⟩ := List.map_eq_cons_iff.mp hcs
        exact .next (by rwa [baseDigit?_asciiDigit] at h) (ih hrest)
    | apart h _ ih =>
        obtain ⟨c, rest, rfl, rfl, htail⟩ := List.map_eq_cons_iff.mp hcs
        obtain ⟨m, rest, rfl, hm, hrest⟩ := List.map_eq_cons_iff.mp htail
        obtain rfl := (asciiDigit_eq_mark_iff (by decide)).mp hm
        exact .apart (by rwa [baseDigit?_asciiDigit] at h) (ih hrest)
  · intro h
    induction h with
    | last h => exact .last ((baseDigit?_asciiDigit _).trans h)
    | next h _ ih => exact .next ((baseDigit?_asciiDigit _).trans h) ih
    | apart h _ ih => exact .apart ((baseDigit?_asciiDigit _).trans h) ih

theorem isPadding_of_decimalDigit? (h : (decimalDigit? c).isSome) : isPadding c = false := by
  have hall : ∀ z ∈ scriptZeros, ∀ d < 10, isPadding (Char.ofNat (z + d)) = false := by
    decide +kernel
  unfold decimalDigit? at h
  rw [Option.isSome_map] at h
  obtain ⟨z, hz⟩ := Option.isSome_iff_exists.mp h
  have hrange := List.find?_some hz
  simp only [Bool.and_eq_true, decide_eq_true_eq] at hrange
  have hpadding := hall z (List.mem_of_find?_eq_some hz) (c.toNat - z) (by omega)
  rwa [show z + (c.toNat - z) = c.toNat by omega, Char.ofNat_toNat] at hpadding

end Scripts

section Integer

variable {cs sign digits before after : List Char} {ds : List Nat} {k : Int}

theorem signed_append (hsign : sign = [] ∨ sign = ['+'] ∨ sign = ['-'])
    (hhead : ∀ c ∈ digits.head?, c ≠ '+' ∧ c ≠ '-') :
    signed ((sign ++ digits).map asciiDigit) = (decide (sign = ['-']), digits.map asciiDigit) := by
  rcases hsign with rfl | rfl | rfl
  · rcases digits with _ | ⟨c, rest⟩
    · rfl
    · obtain ⟨hplus, hminus⟩ := hhead c rfl
      unfold signed
      split
      next heq =>
        exact absurd ((asciiDigit_eq_mark_iff (by decide)).mp (List.cons.inj heq).1) hminus
      next heq =>
        exact absurd ((asciiDigit_eq_mark_iff (by decide)).mp (List.cons.inj heq).1) hplus
      next => rfl
  · rfl
  · rfl

theorem exists_sign (cs : List Char) :
    ∃ sign rest, cs = sign ++ rest ∧ (sign = [] ∨ sign = ['+'] ∨ sign = ['-']) ∧
      signed (cs.map asciiDigit) = (decide (sign = ['-']), rest.map asciiDigit) := by
  by_cases hminus : cs.head? = some '-'
  · obtain ⟨rest, rfl⟩ := List.head?_eq_some_iff.mp hminus
    exact ⟨['-'], rest, rfl, .inr (.inr rfl), rfl⟩
  · by_cases hplus : cs.head? = some '+'
    · obtain ⟨rest, rfl⟩ := List.head?_eq_some_iff.mp hplus
      exact ⟨['+'], rest, rfl, .inr (.inl rfl), rfl⟩
    · refine ⟨[], cs, rfl, .inl rfl, signed_append (.inl rfl) fun c hc => ⟨?_, ?_⟩⟩
      · rintro rfl
        exact hplus hc
      · rintro rfl
        exact hminus hc

-- No digit is a sign.
theorem Grouped.ne_sign (h : Grouped decimalDigit? digits ds) :
    ∀ c ∈ digits.head?, c ≠ '+' ∧ c ≠ '-' := by
  obtain ⟨first, rest, rfl, hfirst⟩ := h.isSome_head
  intro c hc
  obtain rfl := Option.some.inj hc
  constructor
  · rintro rfl
    cases hfirst
  · rintro rfl
    cases hfirst

-- Neither a sign nor a digit is padding.
theorem Grouped.trimBoth_eq (h : Grouped decimalDigit? digits ds) (hbefore : ∀ c ∈ before, isPadding c)
    (hsign : sign = [] ∨ sign = ['+'] ∨ sign = ['-']) (hafter : ∀ c ∈ after, isPadding c) :
    trimBoth isPadding (before ++ (sign ++ digits ++ after)) = sign ++ digits := by
  obtain ⟨first, rest, hcons, hfirst⟩ := h.isSome_head
  obtain ⟨init, last, hconcat, hlast⟩ := h.isSome_getLast
  refine trimBoth_append hbefore hafter ?_ ?_
  · intro c hc
    rcases hsign with rfl | rfl | rfl
    · rw [hcons] at hc
      obtain rfl := Option.some.inj hc
      exact isPadding_of_decimalDigit? hfirst
    · obtain rfl := Option.some.inj hc
      rfl
    · obtain rfl := Option.some.inj hc
      rfl
  · intro c hc
    rw [hconcat, ← List.append_assoc, List.getLast?_concat] at hc
    obtain rfl := Option.some.inj hc
    exact isPadding_of_decimalDigit? hlast

theorem integer?_of_signed {negative : Bool} {body : List Char}
    (h : signed ((trimBoth isPadding cs).map asciiDigit) = (negative, body)) :
    integer? 10 cs = some k ↔
      ∃ ds, groupedDigits? (fun c => (baseDigit? c).filter (· < 10)) body = some ds ∧
        ds.length ≤ maxDecimalDigits ∧
        (if negative then -(ofDigits 10 ds : Int) else ofDigits 10 ds) = k := by
  unfold integer?
  rw [h]
  simp only [dropBaseMark_ten, Option.bind_eq_bind, Option.bind_eq_some_iff, true_and]
  refine exists_congr fun ds => and_congr_right fun _ => ?_
  by_cases hlong : maxDecimalDigits < ds.length
  · simp [hlong, Nat.not_le_of_lt hlong]
  · simp [hlong, Nat.le_of_not_lt hlong]

-- A text is read as an integer if it spells it, and not read otherwise.
theorem integer?_eq_some_iff : integer? 10 cs = some k ↔ Spells cs k := by
  constructor
  · intro h
    obtain ⟨before, after, hcs, hbefore, hafter⟩ := exists_trimBoth isPadding cs
    obtain ⟨sign, digits, htrim, hsign, hsigned⟩ := exists_sign (trimBoth isPadding cs)
    obtain ⟨ds, hds, hlength, rfl⟩ := (integer?_of_signed hsigned).mp h
    rw [groupedDigits?_eq_some_iff (by decide), grouped_map_asciiDigit_iff] at hds
    rw [hcs, htrim]
    simpa using Spells.mk hbefore hsign hds hlength hafter
  · rintro ⟨hbefore, hsign, hdigits, hlength, hafter⟩
    next before sign digits after ds =>
    have hsigned := signed_append hsign hdigits.ne_sign
    rw [← hdigits.trimBoth_eq hbefore hsign hafter] at hsigned
    refine (integer?_of_signed hsigned).mpr ⟨ds, ?_, hlength, by simp⟩
    rwa [groupedDigits?_eq_some_iff (by decide), grouped_map_asciiDigit_iff]

end Integer

section Decimal

variable {cs : List Char} {c : Char} {i : Nat} {k : Int}

theorem ofDigits_map_digits (cs : List Char) :
    ofDigits 10 (cs.map fun c => c.toNat - 48) = Nat.ofDigitChars 10 cs 0 := by
  unfold ofDigits Nat.ofDigitChars
  rw [List.foldl_map]
  congr 1
  funext n c
  rw [Nat.mul_comm]
  rfl

theorem grouped_of_isDigit (hne : cs ≠ []) (h : ∀ c ∈ cs, c.isDigit) :
    Grouped decimalDigit? cs (cs.map fun c => c.toNat - 48) := by
  induction cs with
  | nil => exact absurd rfl hne
  | cons c rest ih =>
      have hc := decimalDigit?_of_isDigit (h c List.mem_cons_self)
      cases rest with
      | nil => exact .last hc
      | cons c' rest =>
          exact .next hc (ih (List.cons_ne_nil _ _) fun x hx => h x (List.mem_cons_of_mem _ hx))

theorem spells_of_isDigit (hne : cs ≠ []) (h : ∀ c ∈ cs, c.isDigit)
    (hlength : cs.length ≤ maxDecimalDigits) : Spells cs (Nat.ofDigitChars 10 cs 0) := by
  have hblank : ∀ c ∈ ([] : List Char), isPadding c := nofun
  have hspells := Spells.mk hblank (.inl rfl) (grouped_of_isDigit hne h) (by simpa using hlength) hblank
  rw [ofDigits_map_digits] at hspells
  simpa using hspells

-- The decimal form of a number that is not too long for a literal spells the number.
theorem spells_toString (h : (toString i).toList.length ≤ maxDecimalDigits) :
    Spells (toString i).toList i := by
  rw [Nat.toString_eq_repr, Nat.toList_repr] at h ⊢
  have hspells := spells_of_isDigit Nat.toDigits_ne_nil
    (fun c hc => Nat.isDigit_of_mem_toDigits (by decide) (by decide) hc) h
  rwa [Nat.ofDigitChars_toDigits (by decide) (by decide)] at hspells

theorem Spells.unique {k k' : Int} (h : Spells cs k) (h' : Spells cs k') : k = k' :=
  Option.some.inj ((integer?_eq_some_iff.mpr h).symm.trans (integer?_eq_some_iff.mpr h'))

-- The decimal form of a number: digits, with no zero in front of others.
def IsDecimal (cs : List Char) : Prop :=
  cs ≠ [] ∧ (∀ c ∈ cs, c.isDigit) ∧ (cs.head? = some '0' → cs = ['0'])

theorem digitChar_toNat_sub (h : c.isDigit) : c.toNat - 48 < 10 ∧ (c.toNat - 48).digitChar = c := by
  have hall : literalChars.all fun c => c.isDigit → c.toNat - 48 < 10 ∧ (c.toNat - 48).digitChar = c := by
    decide
  have hin := mem_literalChars_of_isDigit h
  exact of_decide_eq_true (List.all_eq_true.mp hall c hin) h

theorem IsDecimal.toDigits (h : IsDecimal cs) : Nat.toDigits 10 (Nat.ofDigitChars 10 cs 0) = cs := by
  obtain ⟨hne, hdigits, hzero⟩ := h
  induction cs using List.reverseRecOn with
  | nil => exact absurd rfl hne
  | append_singleton init c ih =>
      obtain ⟨hlt, hc⟩ := digitChar_toNat_sub (hdigits c (by simp))
      have hvalue : Nat.ofDigitChars 10 (init ++ [c]) 0 =
          10 * Nat.ofDigitChars 10 init 0 + (c.toNat - 48) := by
        unfold Nat.ofDigitChars
        rw [List.foldl_append]
        rfl
      rw [hvalue]
      rcases eq_or_ne init [] with rfl | hinit
      · show Nat.toDigits 10 (10 * 0 + (c.toNat - 48)) = [c]
        rw [Nat.mul_zero, Nat.zero_add, Nat.toDigits_of_lt_base hlt, hc]
      · -- The digits before the last one start with no zero, so their number is not zero.
        have hhead : init.head? ≠ some '0' := fun hhead => by
          have hone := hzero (by rw [List.head?_append, hhead]; rfl)
          have hlength := congrArg List.length hone
          rw [List.length_append] at hlength
          exact hinit (List.length_eq_zero_iff.mp (by simpa using hlength))
        have hrest := ih hinit (fun x hx => hdigits x (List.mem_append_left _ hx)) fun h => absurd h hhead
        have hpos : 0 < Nat.ofDigitChars 10 init 0 := Nat.pos_of_ne_zero fun h => by
          rw [h] at hrest
          exact hhead (by rw [← hrest]; rfl)
        rw [← Nat.toDigits_append_toDigits (by decide) hpos hlt, hrest, Nat.toDigits_of_lt_base hlt, hc]

theorem isDecimal_toString (i : Nat) : IsDecimal (toString i).toList := by
  rw [Nat.toString_eq_repr, Nat.toList_repr]
  refine ⟨Nat.toDigits_ne_nil,
    fun c hc => Nat.isDigit_of_mem_toDigits (by decide) (by decide) hc, fun hhead => ?_⟩
  induction i using Nat.strongRecOn with
  | _ i ih =>
      by_cases hlt : i < 10
      · rw [Nat.toDigits_of_lt_base hlt] at hhead ⊢
        rw [Option.some.inj hhead]
      · obtain ⟨c, rest, hcons⟩ := List.exists_cons_of_ne_nil (Nat.toDigits_ne_nil (n := i / 10) (b := 10))
        rw [Nat.toDigits_of_base_le (by decide) (by omega), hcons] at hhead
        have hrest := ih (i / 10) (by omega) (by rw [hcons]; exact hhead)
        have hvalue := Nat.ofDigitChars_toDigits (b := 10) (n := i / 10) (by decide) (by decide)
        rw [hrest] at hvalue
        have hzero : Nat.ofDigitChars 10 ['0'] 0 = 0 := rfl
        omega

-- The decimal form that spells a number is that of the number.
theorem IsDecimal.eq_toString (h : IsDecimal cs) (hk : Spells cs k) :
    ∃ i : Nat, k = i ∧ cs = (toString i).toList := by
  by_cases hlength : cs.length ≤ maxDecimalDigits
  · refine ⟨Nat.ofDigitChars 10 cs 0, hk.unique (spells_of_isDigit h.1 h.2.1 hlength), ?_⟩
    rw [Nat.toString_eq_repr, Nat.toList_repr, h.toDigits]
  · have hnone := (integer?_eq_none_iff (.inl rfl) h.1 h.2.1).mpr (Nat.lt_of_not_le hlength)
    rw [List.nil_append, integer?_eq_some_iff.mpr hk] at hnone
    cases hnone

end Decimal

end ApiGraph.Text
