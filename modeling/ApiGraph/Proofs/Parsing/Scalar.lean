import ApiGraph.Proofs.Reference.Segments
import ApiGraph.Yaml.Scalar

namespace ApiGraph.Yaml.ScalarText

open ApiGraph.Text

-- A number without its underscores, and without its sign as well.
def written (text : List Char) : List Char := text.filter (· != '_')

def unsigned (text : List Char) : List Char := (signed (written text)).2

-- The places of an integer, with the bases they are read in; a lone zero and nothing have none.
def intPlaces : List Char → List (Nat × List Char)
  | [] => []
  | ['0'] => []
  | '0' :: 'b' :: rest => [(2, rest)]
  | '0' :: 'x' :: rest => [(16, rest)]
  | '0' :: rest => [(8, '0' :: rest)]
  | body => (splitOn ':' body).map (10, ·)

-- The places of a floating-point number; the words have none.
def floatPlaces (body : List Char) : List (List Char) :=
  if body = ".inf".toList ∨ body = ".nan".toList then [] else splitOn ':' body

-- What a place counts, from the last one on.
def placeUnit : Nat → Int
  | 0 => 1
  | n + 1 => placeUnit n * 60

-- Why a text has no value under a tag, and the fault that it is.
inductive Valueless (text : List Char) : Tag → Fault → Prop
  | word (h : Tag.truthWords.lookup (String.ofList (text.map Char.toLower)) = none) :
      Valueless text .bool .unknownTruthWord
  | noInt (h : unsigned text = []) : Valueless text .int .emptyLiteral
  | intPlace {base : Nat} {place : List Char} (hin : (base, place) ∈ intPlaces (unsigned text))
      (h : integer? base place = none) : Valueless text .int .unreadableLiteral
  | noFloat (h : written (text.map Char.toLower) = []) : Valueless text .float .emptyLiteral
  | floatPlace {place : List Char} (hne : written (text.map Char.toLower) ≠ [])
      (hin : place ∈ floatPlaces (unsigned (text.map Char.toLower)))
      (h : Binary64.ofLiteral? place = none) : Valueless text .float .unreadableLiteral
  -- More places than the floating-point numbers reach.
  | farPlace {n : Nat} (hne : written (text.map Char.toLower) ≠ [])
      (hread : ∀ place ∈ floatPlaces (unsigned (text.map Char.toLower)),
        (Binary64.ofLiteral? place).isSome)
      (hn : n < (floatPlaces (unsigned (text.map Char.toLower))).length)
      (h : Binary64.ofInt? (placeUnit n) = none) : Valueless text .float .numberOverflow
  | noTime (h : Timestamp.ofText? (Tag.dropFinalBreak text) = none) :
      Valueless text .timestamp .malformedTime
  -- A day or a time of day that does not exist.
  | unreal {t : Timestamp} (ht : Timestamp.ofText? (Tag.dropFinalBreak text) = some t)
      (h : t.time.elim t.date.isValid DateTime.isValid = false) :
      Valueless text .timestamp .unreadableLiteral

variable {text : List Char} {e : Problem}

section Orders

variable {α β : Type} {g : α → Option β} {f : Fault}

theorem orFault_some (b : β) : orFault (some b) f = .ok b := rfl

-- Reading all of a list fails at the first that has no value.
theorem mapM_orFault_cases (g : α → Option β) (f : Fault) (l : List α) :
    (∃ a ∈ l, g a = none) ∧ l.mapM (fun a => orFault (g a) f) = .error (.fault f) ∨
      (∀ a ∈ l, (g a).isSome) ∧
        ∃ bs, l.mapM (fun a => orFault (g a) f) = .ok bs ∧ bs.length = l.length := by
  induction l with
  | nil => exact .inr ⟨fun _ h => absurd h List.not_mem_nil, [], List.mapM_nil, rfl⟩
  | cons a rest ih =>
      rw [List.mapM_cons]
      cases ha : g a with
      | none => exact .inl ⟨⟨a, List.mem_cons_self, ha⟩, rfl⟩
      | some b =>
          rw [orFault_some]
          rcases ih with ⟨⟨a', hin, hnone⟩, herror⟩ | ⟨hall, bs, hok, hlength⟩
          · refine .inl ⟨⟨a', List.mem_cons_of_mem _ hin, hnone⟩, ?_⟩
            rw [herror]
            rfl
          · refine .inr ⟨List.forall_mem_cons.mpr ⟨by simp [ha], hall⟩, b :: bs, ?_, by simp [hlength]⟩
            rw [hok]
            rfl

end Orders

section Endings

variable {x : Result Scalar} {tag : Tag}

-- A text has at most one fault under a tag.
theorem Valueless.unique {f f' : Fault} (h : Valueless text tag f) (h' : Valueless text tag f') :
    f = f' := by
  cases h with
  | word _ =>
      cases h'
      rfl
  | noInt hnil =>
      cases h' with
      | noInt _ => rfl
      | intPlace hin _ =>
          rw [hnil] at hin
          cases hin
  | intPlace hin _ =>
      cases h' with
      | noInt hnil =>
          rw [hnil] at hin
          cases hin
      | intPlace _ _ => rfl
  | noFloat hnil =>
      cases h' with
      | noFloat _ => rfl
      | floatPlace hne _ _ => exact absurd hnil hne
      | farPlace hne _ _ _ => exact absurd hnil hne
  | floatPlace hne hin hnone =>
      cases h' with
      | noFloat hnil => exact absurd hnil hne
      | floatPlace _ _ _ => rfl
      | farPlace _ hread _ _ => exact absurd hnone (Option.isSome_iff_ne_none.mp (hread _ hin))
  | farPlace hne hread _ _ =>
      cases h' with
      | noFloat hnil => exact absurd hnil hne
      | floatPlace _ hin hnone => exact absurd hnone (Option.isSome_iff_ne_none.mp (hread _ hin))
      | farPlace _ _ _ _ => rfl
  | noTime hnone =>
      cases h' with
      | noTime _ => rfl
      | unreal ht _ => cases hnone.symm.trans ht
  | unreal ht _ =>
      cases h' with
      | noTime hnone => cases hnone.symm.trans ht
      | unreal _ _ => rfl

theorem error_iff_of_error {f : Fault} (hx : x = .error (.fault f)) (hf : Valueless text tag f) :
    x = .error e ↔ ∃ f, e = .fault f ∧ Valueless text tag f := by
  rw [hx]
  constructor
  · intro h
    cases h
    exact ⟨f, rfl, hf⟩
  · rintro ⟨f', rfl, hf'⟩
    rw [hf.unique hf']

theorem error_iff_of_ok (hx : ∃ a, x = .ok a) (hnone : ∀ f, ¬Valueless text tag f) :
    x = .error e ↔ ∃ f, e = .fault f ∧ Valueless text tag f := by
  obtain ⟨a, rfl⟩ := hx
  constructor
  · intro h
    cases h
  · rintro ⟨f, -, hf⟩
    exact absurd hf (hnone f)

end Endings

theorem bool_eq_error_iff : bool text = .error e ↔ ∃ f, e = .fault f ∧ Valueless text .bool f := by
  cases hword : Tag.truthWords.lookup (String.ofList (text.map Char.toLower)) with
  | none =>
      refine error_iff_of_error (f := .unknownTruthWord) ?_ (.word hword)
      unfold bool
      dsimp only
      rw [hword]
      rfl
  | some b =>
      refine error_iff_of_ok ⟨.bool b, ?_⟩ fun f hf => ?_
      · unfold bool
        dsimp only
        rw [hword]
        rfl
      · cases hf with
        | word h =>
            rw [hword] at h
            cases h

section Int

-- A number in base ten is the one place of itself.
theorem magnitude_cases {body : List Char} (hne : body ≠ []) :
    (∃ p ∈ intPlaces body, integer? p.1 p.2 = none) ∧
        magnitude body = .error (.fault .unreadableLiteral) ∨
      (∀ p ∈ intPlaces body, (integer? p.1 p.2).isSome) ∧ ∃ n, magnitude body = .ok n := by
  have hone (base : Nat) (cs : List Char) :
      (∃ p ∈ [(base, cs)], integer? p.1 p.2 = none) ∧
          orFault (integer? base cs) .unreadableLiteral = .error (.fault .unreadableLiteral) ∨
        (∀ p ∈ [(base, cs)], (integer? p.1 p.2).isSome) ∧
          ∃ n, orFault (integer? base cs) .unreadableLiteral = .ok n := by
    cases hvalue : integer? base cs with
    | none => exact .inl ⟨⟨_, List.mem_singleton_self _, hvalue⟩, rfl⟩
    | some n => exact .inr ⟨by simp [hvalue], n, rfl⟩
  unfold magnitude
  split
  · exact absurd rfl hne
  · exact .inr ⟨fun _ h => absurd h List.not_mem_nil, 0, rfl⟩
  · exact hone 2 _
  · exact hone 16 _
  · rw [intPlaces]
    · exact hone 8 _
    all_goals assumption
  · rw [intPlaces]
    · dsimp only
      split
      next hcolon =>
        have hmap := mapM_orFault_cases (integer? 10) .unreadableLiteral (splitOn ':' body)
        rcases hmap with ⟨⟨place, hin, hnone⟩, herror⟩ | ⟨hall, ns, hok, -⟩
        · refine .inl ⟨⟨(10, place), List.mem_map_of_mem hin, hnone⟩, ?_⟩
          rw [herror]
          rfl
        · refine .inr ⟨fun p hp => ?_, sixtieths ns.reverse, ?_⟩
          · obtain ⟨place, hin, rfl⟩ := List.mem_map.mp hp
            exact hall place hin
          · rw [hok]
            rfl
      next hcolon =>
        rw [splitOn_of_not_mem (by simpa using hcolon)]
        exact hone 10 _
    all_goals assumption

end Int

theorem signOf_of_written (h : written text = []) : signOf text = .error (.fault .emptyLiteral) := by
  unfold signOf
  dsimp only
  rw [show text.filter (· != '_') = [] from h]
  rfl

theorem signOf_of_ne_nil (h : written text ≠ []) : signOf text = .ok (signed (written text)) := by
  unfold signOf
  dsimp only
  split
  next hempty => exact absurd (List.isEmpty_iff.mp hempty) h
  next => rfl

theorem int_eq_error_iff : int text = .error e ↔ ∃ f, e = .fault f ∧ Valueless text .int f := by
  have hbind : int text = (signOf text).bind fun p => (magnitude p.2).bind fun n =>
      .ok (.int (if p.1 then -n else n)) := rfl
  -- Nothing is left of the number, or its places decide.
  by_cases hnil : unsigned text = []
  · refine error_iff_of_error (f := .emptyLiteral) ?_ (.noInt hnil)
    rw [hbind]
    by_cases hwritten : written text = []
    · rw [signOf_of_written hwritten]
      rfl
    · rw [signOf_of_ne_nil hwritten]
      show (magnitude (unsigned text)).bind _ = _
      rw [hnil]
      rfl
  · have hwritten : written text ≠ [] := fun h => hnil (by unfold unsigned; rw [h]; rfl)
    have hplaces : int text = (magnitude (unsigned text)).bind fun n =>
        .ok (.int (if (signed (written text)).1 then -n else n)) := by
      rw [hbind, signOf_of_ne_nil hwritten]
      rfl
    rcases magnitude_cases hnil with ⟨⟨p, hin, hnone⟩, herror⟩ | ⟨hall, n, hok⟩
    · refine error_iff_of_error (f := .unreadableLiteral) ?_ (.intPlace hin hnone)
      rw [hplaces, herror]
      rfl
    · refine error_iff_of_ok ?_ fun f hf => ?_
      · rw [hplaces, hok]
        exact ⟨_, rfl⟩
      · cases hf with
        | noInt h => exact hnil h
        | intPlace hin h => exact Option.isSome_iff_ne_none.mp (hall _ hin) h

section Float

-- The places are summed up from the last one on.
theorem sexagesimal_cases (k : Nat) (total : Binary64) (places : List Binary64) :
    (∃ n < places.length, Binary64.ofInt? (placeUnit (k + n)) = none) ∧
        sexagesimal (placeUnit k) total places = .error (.fault .numberOverflow) ∨
      (∀ n < places.length, (Binary64.ofInt? (placeUnit (k + n))).isSome) ∧
        ∃ x, sexagesimal (placeUnit k) total places = .ok x := by
  induction places generalizing k total with
  | nil => exact .inr ⟨fun n hn => absurd hn (Nat.not_lt_zero n), total, rfl⟩
  | cons d rest ih =>
      unfold sexagesimal
      cases hunit : Binary64.ofInt? (placeUnit k) with
      | none => exact .inl ⟨⟨0, Nat.succ_pos _, hunit⟩, rfl⟩
      | some u =>
          rw [orFault_some, show placeUnit k * 60 = placeUnit (k + 1) from rfl]
          rcases ih (k + 1) (total + d * u) with ⟨⟨n, hn, hnone⟩, herror⟩ | ⟨hall, hok⟩
          · refine .inl ⟨⟨n + 1, Nat.succ_lt_succ hn, ?_⟩, herror⟩
            rw [← hnone, Nat.add_assoc, Nat.add_comm 1 n]
          · refine .inr ⟨fun n hn => ?_, hok⟩
            cases n with
            | zero => simp [hunit]
            | succ n =>
                rw [← Nat.add_assoc, Nat.add_right_comm]
                exact hall n (Nat.lt_of_succ_lt_succ hn)

-- The number without its sign.
def floatMagnitude (body : List Char) : Result Binary64 :=
  let read := fun cs => orFault (Binary64.ofLiteral? cs) .unreadableLiteral
  if body = ".inf".toList then pure (.infinity false)
  else if body = ".nan".toList then pure .nan
  else if body.contains ':' then do
    sexagesimal 1 (.zero false) (← (splitOn ':' body).mapM read).reverse
  else read body

theorem float_eq_bind : float text = (signOf (text.map Char.toLower)).bind fun p =>
    (floatMagnitude p.2).bind fun x => .ok (.float (if p.1 && !x.isNaN then x.negate else x)) := by
  unfold float floatMagnitude
  show (signOf _).bind _ = _
  cases signOf (text.map Char.toLower) with
  | error e => rfl
  | ok p =>
      dsimp only [Except.bind]
      split
      · rfl
      · split
        · rfl
        · split
          · cases (splitOn ':' p.2).mapM fun cs =>
              orFault (Binary64.ofLiteral? cs) .unreadableLiteral with
            | error e => rfl
            | ok places => rfl
          · rfl

theorem floatMagnitude_cases (body : List Char) :
    (∃ place ∈ floatPlaces body, Binary64.ofLiteral? place = none) ∧
        floatMagnitude body = .error (.fault .unreadableLiteral) ∨
      (∀ place ∈ floatPlaces body, (Binary64.ofLiteral? place).isSome) ∧
        ((∃ n < (floatPlaces body).length, Binary64.ofInt? (placeUnit n) = none) ∧
            floatMagnitude body = .error (.fault .numberOverflow) ∨
          (∀ n < (floatPlaces body).length, (Binary64.ofInt? (placeUnit n)).isSome) ∧
            ∃ x, floatMagnitude body = .ok x) := by
  by_cases hword : body = ".inf".toList ∨ body = ".nan".toList
  · have hplaces : floatPlaces body = [] := if_pos hword
    have hok : ∃ x, floatMagnitude body = .ok x := by
      rcases hword with rfl | rfl
      · exact ⟨_, rfl⟩
      · exact ⟨_, rfl⟩
    rw [hplaces]
    exact .inr ⟨fun _ h => absurd h List.not_mem_nil,
      .inr ⟨fun n hn => absurd hn (Nat.not_lt_zero n), hok⟩⟩
  · have hplaces : floatPlaces body = splitOn ':' body := if_neg hword
    obtain ⟨hinf, hnan⟩ := not_or.mp hword
    unfold floatMagnitude
    dsimp only
    rw [hplaces, if_neg hinf, if_neg hnan]
    split
    next hcolon =>
      rcases mapM_orFault_cases Binary64.ofLiteral? .unreadableLiteral (splitOn ':' body) with
        ⟨hnone, herror⟩ | ⟨hall, places, hok, hlength⟩
      · refine .inl ⟨hnone, ?_⟩
        rw [herror]
        rfl
      · refine .inr ⟨hall, ?_⟩
        rw [hok]
        have hsum := sexagesimal_cases 0 (.zero false) places.reverse
        rw [List.length_reverse, hlength] at hsum
        simp only [Nat.zero_add] at hsum
        exact hsum
    next hcolon =>
      rw [splitOn_of_not_mem (by simpa using hcolon)]
      cases hvalue : Binary64.ofLiteral? body with
      | none => exact .inl ⟨⟨body, List.mem_singleton_self _, hvalue⟩, rfl⟩
      | some x =>
          refine .inr ⟨by simp [hvalue], .inr ⟨fun n hn => ?_, x, rfl⟩⟩
          rw [Nat.lt_one_iff.mp hn]
          decide +kernel

theorem float_eq_error_iff : float text = .error e ↔ ∃ f, e = .fault f ∧ Valueless text .float f := by
  by_cases hnil : written (text.map Char.toLower) = []
  · refine error_iff_of_error (f := .emptyLiteral) ?_ (.noFloat hnil)
    rw [float_eq_bind, signOf_of_written hnil]
    rfl
  · have hplaces : float text = (floatMagnitude (unsigned (text.map Char.toLower))).bind fun x =>
        .ok (.float (if (signed (written (text.map Char.toLower))).1 && !x.isNaN then x.negate
          else x)) := by
      rw [float_eq_bind, signOf_of_ne_nil hnil]
      rfl
    rcases floatMagnitude_cases (unsigned (text.map Char.toLower)) with
      ⟨⟨place, hin, hnone⟩, herror⟩ | ⟨hread, ⟨⟨n, hn, hnone⟩, herror⟩ | ⟨hall, x, hok⟩⟩
    · refine error_iff_of_error (f := .unreadableLiteral) ?_ (.floatPlace hnil hin hnone)
      rw [hplaces, herror]
      rfl
    · refine error_iff_of_error (f := .numberOverflow) ?_ (.farPlace hnil hread hn hnone)
      rw [hplaces, herror]
      rfl
    · refine error_iff_of_ok ?_ fun f hf => ?_
      · rw [hplaces, hok]
        exact ⟨_, rfl⟩
      · cases hf with
        | noFloat h => exact hnil h
        | floatPlace _ hin h => exact Option.isSome_iff_ne_none.mp (hread _ hin) h
        | farPlace _ _ hn h => exact Option.isSome_iff_ne_none.mp (hall _ hn) h

end Float

section Timestamp

theorem timestamp_of_none (h : Timestamp.ofText? (Tag.dropFinalBreak text) = none) :
    timestamp text = .error (.fault .malformedTime) := by
  unfold timestamp
  rw [h]
  rfl

theorem timestamp_cases {t : Timestamp} (h : Timestamp.ofText? (Tag.dropFinalBreak text) = some t) :
    t.time.elim t.date.isValid DateTime.isValid = false ∧
        timestamp text = .error (.fault .unreadableLiteral) ∨
      t.time.elim t.date.isValid DateTime.isValid = true ∧ ∃ x, timestamp text = .ok x := by
  unfold timestamp
  rw [h, orFault_some]
  dsimp only [bind, Except.bind]
  cases t.time with
  | none =>
      dsimp only [Option.elim]
      cases t.date.isValid with
      | false => exact .inl ⟨rfl, rfl⟩
      | true => exact .inr ⟨rfl, _, rfl⟩
  | some time =>
      dsimp only [Option.elim]
      cases time.isValid with
      | false => exact .inl ⟨rfl, rfl⟩
      | true => exact .inr ⟨rfl, _, rfl⟩

theorem timestamp_eq_error_iff :
    timestamp text = .error e ↔ ∃ f, e = .fault f ∧ Valueless text .timestamp f := by
  cases hform : Timestamp.ofText? (Tag.dropFinalBreak text) with
  | none => exact error_iff_of_error (timestamp_of_none hform) (.noTime hform)
  | some t =>
      rcases timestamp_cases hform with ⟨hunreal, herror⟩ | ⟨hreal, x, hok⟩
      · exact error_iff_of_error herror (.unreal hform hunreal)
      · refine error_iff_of_ok ⟨x, hok⟩ fun f hf => ?_
        cases hf with
        | noTime h => cases h.symm.trans hform
        | unreal ht h =>
            cases ht.symm.trans hform
            rw [hreal] at h
            cases h

end Timestamp

theorem binary_eq_error (h : binary text = .error e) : e = malformed := by
  unfold binary at h
  cases hbytes : Binary.decode? text with
  | some b =>
      rw [hbytes] at h
      cases h
  | none =>
      rw [hbytes] at h
      cases h
      rfl

end ApiGraph.Yaml.ScalarText
