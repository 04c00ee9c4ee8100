import ApiGraph.Json.Reader
import Mathlib.Data.List.TakeWhile

namespace ApiGraph

namespace Text

variable {cs ds : List Char}

-- The characters that plain number literals are made of.
def literalChars : List Char := "0123456789.eE+-".toList

theorem mem_literalChars_of_isDigit {c : Char} (h : c.isDigit) : c ∈ literalChars := by
  have hvalue : c.toNat - 48 < 10 ∧ c.toNat = c.toNat - 48 + 48 := by
    simp only [Char.isDigit, Bool.and_eq_true, decide_eq_true_eq, UInt32.le_iff_toNat_le] at h
    have h₁ : 48 ≤ c.toNat := h.1
    have h₂ : c.toNat ≤ 57 := h.2
    omega
  have hall : ∀ n < 10, Char.ofNat (n + 48) ∈ literalChars := by decide
  have hc := hall _ hvalue.1
  rwa [← hvalue.2, Char.ofNat_toNat] at hc

-- They stand for themselves.
theorem plain_of_mem_literalChars (c : Char) (hc : c ∈ literalChars) :
    isPadding c = false ∧ asciiDigit c = c ∧ c ≠ '_' := by
  have hall : literalChars.all fun c => isPadding c = false ∧ asciiDigit c = c ∧ c ≠ '_' := by
    decide +kernel
  exact of_decide_eq_true (List.all_eq_true.mp hall c hc)

theorem trimmed_eq_self (h : ∀ c ∈ cs, c ∈ literalChars) :
    (trimBoth isPadding cs).map asciiDigit = cs := by
  rw [trimBoth_eq_self fun c hc => (plain_of_mem_literalChars c (h c hc)).1]
  calc cs.map asciiDigit = cs.map id :=
        List.map_congr_left fun c hc => (plain_of_mem_literalChars c (h c hc)).2.1
    _ = cs := List.map_id cs

theorem groupedDigits?_of_digits {digit? : Char → Option Nat} (hne : ds ≠ [])
    (h : ∀ c ∈ ds, c ≠ '_' ∧ (digit? c).isSome) :
    ∃ values, groupedDigits? digit? ds = some values ∧ values.length = ds.length := by
  induction ds with
  | nil => exact absurd rfl hne
  | cons c rest ih =>
      obtain ⟨d, hd⟩ := Option.isSome_iff_exists.mp (h c List.mem_cons_self).2
      cases rest with
      | nil => exact ⟨[d], by simp [groupedDigits?, hd], rfl⟩
      | cons c' rest =>
          obtain ⟨values, hvalues, hlength⟩ :=
            ih (List.cons_ne_nil _ _) fun x hx => h x (List.mem_cons_of_mem _ hx)
          have hplain : c' ≠ '_' := (h c' (by simp)).1
          refine ⟨d :: values, ?_, by simp [hlength]⟩
          rw [groupedDigits?]
          · simp [hd, hvalues]
          · exact List.cons_ne_nil c' rest
          · intro _ heq
            exact hplain (List.cons.inj heq).1

theorem signed_of_sign {sign : List Char} (hsign : sign = [] ∨ sign = ['-']) (hne : ds ≠ [])
    (hdigits : ∀ c ∈ ds, c.isDigit) (rest : List Char) :
    signed (sign ++ (ds ++ rest)) = (!sign.isEmpty, ds ++ rest) := by
  rcases hsign with rfl | rfl
  · obtain ⟨c, l, rfl⟩ := List.exists_cons_of_ne_nil hne
    have hc := hdigits c List.mem_cons_self
    unfold signed
    split
    next heq =>
      obtain ⟨rfl, -⟩ := List.cons.inj heq
      cases hc
    next heq =>
      obtain ⟨rfl, -⟩ := List.cons.inj heq
      cases hc
    next => rfl
  · rfl

theorem dropBaseMark_ten (cs : List Char) : dropBaseMark 10 cs = cs := by
  unfold dropBaseMark
  split
  · exact if_neg (by simp [baseMark?])
  · rfl

theorem integer?_eq_none_iff {sign : List Char} (hsign : sign = [] ∨ sign = ['-']) (hne : ds ≠ [])
    (hdigits : ∀ c ∈ ds, c.isDigit) :
    integer? 10 (sign ++ ds) = none ↔ maxDecimalDigits < ds.length := by
  have hplain : ∀ c ∈ sign ++ ds, c ∈ literalChars := by
    intro c hc
    rcases List.mem_append.mp hc with hc | hc
    · rcases hsign with rfl | rfl
      · cases hc
      · rw [List.mem_singleton.mp hc]
        decide
    · exact mem_literalChars_of_isDigit (hdigits c hc)
  have hdigit (c : Char) (hc : c ∈ ds) :
      c ≠ '_' ∧ (((baseDigit? c).filter (· < 10))).isSome := by
    refine ⟨(plain_of_mem_literalChars c (mem_literalChars_of_isDigit (hdigits c hc))).2.2, ?_⟩
    have hall : literalChars.all fun c => c.isDigit → ((baseDigit? c).filter (· < 10)).isSome := by
      decide
    have hin := mem_literalChars_of_isDigit (hdigits c hc)
    exact of_decide_eq_true (List.all_eq_true.mp hall c hin) (hdigits c hc)
  obtain ⟨values, hvalues, hlength⟩ := groupedDigits?_of_digits hne hdigit
  have hsigned := signed_of_sign hsign hne hdigits []
  rw [List.append_nil] at hsigned
  unfold integer?
  rw [trimmed_eq_self hplain, hsigned]
  simp only [dropBaseMark_ten, hvalues, true_and]
  rw [← hlength]
  by_cases hlong : maxDecimalDigits < values.length <;> simp [hlong]

end Text

namespace Binary64

open ApiGraph.Text

theorem dropUnderscores?_eq_self {before : Option Char} {cs : List Char} (h : '_' ∉ cs) :
    dropUnderscores? before cs = some cs := by
  induction cs generalizing before with
  | nil => rfl
  | cons c rest ih =>
      have hc : c ≠ '_' := fun heq => h (heq ▸ List.mem_cons_self)
      rw [dropUnderscores?]
      · rw [ih fun hin => h (List.mem_cons_of_mem _ hin)]
        rfl
      · exact hc

-- The digits at the start of a text are taken, up to where something else follows.
theorem takeWhile_digits {ds rest : List Char} (hds : ∀ c ∈ ds, c.isDigit)
    (hrest : ∀ c ∈ rest.head?, c.isDigit = false) :
    (ds ++ rest).takeWhile Char.isDigit = ds ∧ (ds ++ rest).dropWhile Char.isDigit = rest := by
  have hnone : rest.takeWhile Char.isDigit = [] ∧ rest.dropWhile Char.isDigit = rest := by
    rcases rest with _ | ⟨c, rest⟩
    · exact ⟨rfl, rfl⟩
    · simp [hrest c rfl]
  rw [List.takeWhile_append_of_pos hds, List.dropWhile_append_of_pos hds, hnone.1, hnone.2]
  exact ⟨List.append_nil ds, rfl⟩

theorem isSome_ofDigits? {negative : Bool} {ds fraction exponent : List Char} (hne : ds ≠ [])
    (hds : ∀ c ∈ ds, c.isDigit)
    (hfraction : fraction = [] ∨ ∃ part, fraction = '.' :: part ∧ ∀ c ∈ part, c.isDigit)
    (hexponent : exponent = [] ∨ ∃ e sign places, exponent = e :: (sign ++ places) ∧
      (e = 'e' ∨ e = 'E') ∧ (sign = [] ∨ sign = ['-'] ∨ sign = ['+']) ∧ places ≠ [] ∧
      ∀ c ∈ places, c.isDigit) :
    (ofDigits? negative (ds ++ (fraction ++ exponent))).isSome := by
  have hletter : ∀ c ∈ exponent.head?, c = 'e' ∨ c = 'E' := by
    rcases hexponent with rfl | ⟨e, sign, places, rfl, he, -⟩
    · simp
    · simpa using he
  have hafter : ∀ c ∈ exponent.head?, c.isDigit = false := by
    intro c hc
    rcases hletter c hc with rfl | rfl <;> decide
  have hdot : ∀ c ∈ (fraction ++ exponent).head?, c.isDigit = false := by
    rcases hfraction with rfl | ⟨part, rfl, -⟩
    · exact hafter
    · simp
  obtain ⟨hwhole, htail⟩ := takeWhile_digits hds hdot
  -- What stands behind the digits is nothing, or an exponent that is complete.
  have hexp (e : Char) (rest : List Char) (heq : exponent = e :: rest) :
      (e = 'e' ∨ e = 'E') ∧ (signed rest).2 ≠ [] ∧ (signed rest).2.all Char.isDigit := by
    rcases hexponent with hnil | ⟨e', sign, places, hcons, he, hsign, hplaces, hdigits⟩
    · rw [hnil] at heq
      cases heq
    · rw [hcons] at heq
      obtain ⟨rfl, rfl⟩ := List.cons.inj heq
      refine ⟨he, ?_⟩
      have hsigned : (signed (sign ++ places)).2 = places := by
        rcases hsign with rfl | rfl | rfl
        · have h := signed_of_sign (.inl rfl) hplaces hdigits []
          rw [List.append_nil] at h
          rw [h]
        · rfl
        · rfl
      rw [hsigned]
      exact ⟨hplaces, List.all_eq_true.mpr hdigits⟩
  unfold ofDigits?
  simp only [hwhole, htail]
  rcases hfraction with rfl | ⟨part, rfl, hpart⟩
  · rw [List.nil_append]
    rcases exponent with _ | ⟨e, rest⟩
    · simp [hne]
    · obtain ⟨he, hplaces⟩ := hexp e rest rfl
      have hdot : e ≠ '.' := by rcases he with rfl | rfl <;> decide
      simp [hne, hdot, he, hplaces]
  · obtain ⟨hpart, hrest⟩ := takeWhile_digits hpart hafter
    simp only [List.cons_append, hpart, hrest]
    rcases exponent with _ | ⟨e, rest⟩
    · simp [hne]
    · obtain ⟨he, hplaces⟩ := hexp e rest rfl
      simp [hne, he, hplaces]

end Binary64

namespace Json

open ApiGraph.Text

-- A whole part with or without a sign, and a fraction and an exponent that are complete or absent.
structure NumberSpan.IsNumber (n : NumberSpan) : Prop where
  whole : ∃ sign ds, n.whole = sign ++ ds ∧ (sign = [] ∨ sign = ['-']) ∧ ds ≠ [] ∧
    ∀ c ∈ ds, c.isDigit
  fraction : n.fraction = [] ∨ ∃ ds, n.fraction = '.' :: ds ∧ ∀ c ∈ ds, c.isDigit
  exponent : n.exponent = [] ∨ ∃ e sign ds, n.exponent = e :: (sign ++ ds) ∧ (e = 'e' ∨ e = 'E') ∧
    (sign = [] ∨ sign = ['-'] ∨ sign = ['+']) ∧ ds ≠ [] ∧ ∀ c ∈ ds, c.isDigit

-- The parts of a number, each at the start of what the parts before it leave.
def wholeSpan? : List Char → Option (List Char)
  | [] => none
  | c :: rest =>
      if c = '0' then some ['0']
      else if c.isDigit then some ((c :: rest).takeWhile Char.isDigit)
      else none

def fractionSpan : List Char → List Char
  | '.' :: c :: rest => if c.isDigit then '.' :: (c :: rest).takeWhile Char.isDigit else []
  | _ => []

def exponentSign (cs : List Char) : List Char :=
  cs.take (if cs.head? = some '-' ∨ cs.head? = some '+' then 1 else 0)

def exponentSpan : List Char → List Char
  | e :: rest =>
      if e = 'e' ∨ e = 'E' then
        let places := (rest.drop (exponentSign rest).length).takeWhile Char.isDigit
        if places.isEmpty then [] else e :: exponentSign rest ++ places
      else []
  | [] => []

def unsignedSpan? (sign body : List Char) : Option NumberSpan := do
  let digits ← wholeSpan? body
  let afterWhole := body.drop digits.length
  let afterFraction := afterWhole.drop (fractionSpan afterWhole).length
  return ⟨sign ++ digits, fractionSpan afterWhole, exponentSpan afterFraction⟩

section Span

variable {cs : List Char} {n : NumberSpan}

def NumberSpan.text (n : NumberSpan) : List Char := n.whole ++ n.fraction ++ n.exponent

theorem numberSpan?_minus (cs : List Char) : numberSpan? ('-' :: cs) = unsignedSpan? ['-'] cs := by
  rcases cs with _ | ⟨c, cs⟩
  · rfl
  · by_cases hzero : c = '0'
    · subst hzero
      rfl
    · by_cases hdigit : c.isDigit
      · simp only [numberSpan?, unsignedSpan?, wholeSpan?, if_neg hzero, if_pos hdigit]
        rfl
      · simp only [numberSpan?, unsignedSpan?, wholeSpan?, if_neg hzero, if_neg hdigit]
        rfl

theorem numberSpan?_of_ne_minus (h : cs.head? ≠ some '-') : numberSpan? cs = unsignedSpan? [] cs := by
  rcases cs with _ | ⟨c, cs⟩
  · rfl
  · have hc : ∀ rest, c :: cs = '-' :: rest → False := fun rest heq =>
      h (congrArg some (List.cons.inj heq).1)
    by_cases hzero : c = '0'
    · subst hzero
      rfl
    · by_cases hdigit : c.isDigit
      · simp only [numberSpan?, unsignedSpan?, wholeSpan?, if_neg hzero, if_pos hdigit]
        rfl
      · simp only [numberSpan?, unsignedSpan?, wholeSpan?, if_neg hzero, if_neg hdigit]
        rfl

theorem wholeSpan?_eq_some {ds : List Char} (h : wholeSpan? cs = some ds) :
    ds ≠ [] ∧ (∀ c ∈ ds, c.isDigit) ∧ ds <+: cs := by
  rcases cs with _ | ⟨c, cs⟩
  · cases h
  · simp only [wholeSpan?] at h
    by_cases hzero : c = '0'
    · rw [if_pos hzero] at h
      cases h
      exact ⟨by simp, by simp, by simp [hzero]⟩
    · rw [if_neg hzero] at h
      by_cases hdigit : c.isDigit
      · rw [if_pos hdigit] at h
        cases h
        refine ⟨by simp [hdigit], fun x hx => List.mem_takeWhile_imp hx, List.takeWhile_prefix _⟩
      · rw [if_neg hdigit] at h
        cases h

theorem fractionSpan_cases (cs : List Char) : fractionSpan cs <+: cs ∧
    (fractionSpan cs = [] ∨ ∃ ds, fractionSpan cs = '.' :: ds ∧ ∀ c ∈ ds, c.isDigit) := by
  unfold fractionSpan
  split
  next c rest =>
    split
    · refine ⟨?_, .inr ⟨_, rfl, fun x hx => List.mem_takeWhile_imp hx⟩⟩
      exact (List.prefix_cons_inj _).mpr (List.takeWhile_prefix _)
    · exact ⟨List.nil_prefix, .inl rfl⟩
  next => exact ⟨List.nil_prefix, .inl rfl⟩

theorem exponentSpan_cases (cs : List Char) : exponentSpan cs <+: cs ∧
    (exponentSpan cs = [] ∨ ∃ e sign ds, exponentSpan cs = e :: (sign ++ ds) ∧ (e = 'e' ∨ e = 'E') ∧
      (sign = [] ∨ sign = ['-'] ∨ sign = ['+']) ∧ ds ≠ [] ∧ ∀ c ∈ ds, c.isDigit) := by
  unfold exponentSpan
  split
  next e rest =>
    split
    next he =>
      dsimp only
      split
      next => exact ⟨List.nil_prefix, .inl rfl⟩
      next hplaces =>
        have hsign : exponentSign rest <+: rest ∧
            (exponentSign rest = [] ∨ exponentSign rest = ['-'] ∨ exponentSign rest = ['+']) := by
          refine ⟨List.take_prefix _ _, ?_⟩
          unfold exponentSign
          rcases rest with _ | ⟨c, rest⟩
          · exact .inl (by simp)
          · by_cases hminus : c = '-'
            · simp [hminus]
            · by_cases hplus : c = '+' <;> simp [hminus, hplus]
        refine ⟨?_, .inr ⟨e, _, _, rfl, he, hsign.2, by simpa using hplaces,
          fun x hx => List.mem_takeWhile_imp hx⟩⟩
        obtain ⟨tail, htail⟩ := hsign.1
        have hdrop := congrArg (List.drop (exponentSign rest).length) htail
        rw [List.drop_left] at hdrop
        refine (List.prefix_cons_inj e).mpr ⟨tail.dropWhile Char.isDigit, ?_⟩
        rw [← hdrop]
        show exponentSign rest ++ tail.takeWhile Char.isDigit ++ tail.dropWhile Char.isDigit = rest
        rw [List.append_assoc, List.takeWhile_append_dropWhile, htail]
    next => exact ⟨List.nil_prefix, .inl rfl⟩
  next => exact ⟨List.nil_prefix, .inl rfl⟩

theorem isNumber_of_unsignedSpan? {sign : List Char} (hsign : sign = [] ∨ sign = ['-'])
    (h : unsignedSpan? sign cs = some n) : n.IsNumber ∧ n.text <+: sign ++ cs := by
  unfold unsignedSpan? at h
  simp only [Option.bind_eq_bind, Option.bind_eq_some_iff] at h
  obtain ⟨ds, hds, heq⟩ := h
  obtain rfl := Option.some.inj heq
  obtain ⟨hne, hdigits, tail, rfl⟩ := wholeSpan?_eq_some hds
  rw [List.drop_left]
  obtain ⟨⟨tail', htail'⟩, hfraction⟩ := fractionSpan_cases tail
  have hdrop := congrArg (List.drop (fractionSpan tail).length) htail'
  rw [List.drop_left] at hdrop
  rw [← hdrop]
  obtain ⟨⟨tail'', htail''⟩, hexponent⟩ := exponentSpan_cases tail'
  refine ⟨⟨⟨sign, ds, rfl, hsign, hne, hdigits⟩, hfraction, hexponent⟩, tail'', ?_⟩
  unfold NumberSpan.text
  simp only [List.append_assoc]
  rw [htail'', htail']

theorem isNumber_of_numberSpan? (h : numberSpan? cs = some n) : n.IsNumber ∧ n.text <+: cs := by
  by_cases hsign : cs.head? = some '-'
  · obtain ⟨rest, rfl⟩ := List.head?_eq_some_iff.mp hsign
    rw [numberSpan?_minus] at h
    exact isNumber_of_unsignedSpan? (.inr rfl) h
  · rw [numberSpan?_of_ne_minus hsign] at h
    exact isNumber_of_unsignedSpan? (.inl rfl) h

theorem NumberSpan.IsNumber.mem_literalChars (h : n.IsNumber) : ∀ c ∈ n.text, c ∈ literalChars := by
  have hdigits {ds : List Char} (h : ∀ c ∈ ds, c.isDigit) : ∀ c ∈ ds, c ∈ literalChars :=
    fun c hc => mem_literalChars_of_isDigit (h c hc)
  have hmarks : '-' ∈ literalChars ∧ '+' ∈ literalChars ∧ '.' ∈ literalChars ∧ 'e' ∈ literalChars ∧
      'E' ∈ literalChars := by decide
  have hsign {sign : List Char} (h : sign = [] ∨ sign = ['-'] ∨ sign = ['+']) :
      ∀ c ∈ sign, c ∈ literalChars := by
    rcases h with rfl | rfl | rfl <;> simp [hmarks]
  obtain ⟨whole, fraction, exponent⟩ := n
  unfold NumberSpan.text
  simp only [List.mem_append, or_imp, forall_and]
  obtain ⟨⟨sign, ds, rfl, hs, -, hds⟩, hfraction, hexponent⟩ := h
  refine ⟨⟨?_, ?_⟩, ?_⟩
  · simp only [List.mem_append, or_imp, forall_and]
    exact ⟨hsign (hs.imp_right .inl), hdigits hds⟩
  · rcases hfraction with hnil | ⟨part, hpart, hall⟩
    · simp only at hnil
      simp [hnil]
    · simp only at hpart
      rw [hpart]
      exact List.forall_mem_cons.mpr ⟨hmarks.2.2.1, hdigits hall⟩
  · rcases hexponent with hnil | ⟨e, sign, places, hcons, he, hs, -, hall⟩
    · simp only at hnil
      simp [hnil]
    · simp only at hcons
      rw [hcons]
      refine List.forall_mem_cons.mpr ⟨?_, ?_⟩
      · rcases he with rfl | rfl
        · exact hmarks.2.2.2.1
        · exact hmarks.2.2.2.2
      · simp only [List.mem_append, or_imp, forall_and]
        exact ⟨hsign hs, hdigits hall⟩

theorem NumberSpan.IsNumber.isSome_ofLiteral? (h : n.IsNumber) :
    (Binary64.ofLiteral? n.text).isSome := by
  have hplain := h.mem_literalChars
  have hunderscore : '_' ∉ n.text := fun hin => (plain_of_mem_literalChars '_' (hplain '_' hin)).2.2 rfl
  obtain ⟨⟨sign, ds, hwhole, hsign, hne, hds⟩, hfraction, hexponent⟩ := h
  have htext : n.text = sign ++ (ds ++ (n.fraction ++ n.exponent)) := by
    unfold NumberSpan.text
    rw [hwhole]
    simp only [List.append_assoc]
  unfold Binary64.ofLiteral?
  rw [trimmed_eq_self hplain, Binary64.dropUnderscores?_eq_self hunderscore, htext]
  simp only [Option.bind_eq_bind, Option.bind_some, signed_of_sign hsign hne hds]
  split
  · rfl
  · rfl
  · rfl
  · exact Binary64.isSome_ofDigits? hne hds hfraction hexponent

end Span

end Json

end ApiGraph
