import ApiGraph.Proofs.Ensures
import ApiGraph.Proofs.Parsing.Number

namespace ApiGraph

-- More digits in a row than a decimal literal may have.
def Text.HasLongDigits (cs : List Char) : Prop :=
  ∃ ds, ds <:+: cs ∧ (∀ c ∈ ds, c.isDigit) ∧ maxDecimalDigits < ds.length

namespace Json

open ApiGraph.Text

variable {α β : Type} {source : List Char}

-- No failure without an announcement, but for nesting and for an integer that is too long.
def Accounted (source : List Char) (e : Failure Error) : Prop :=
  ∀ f, e = .fault f → f = .stackExhausted ∨ f = .unreadableLiteral ∧ HasLongDigits source

-- What is left to read stays the end of the text.
abbrev Reads (source : List Char) (x : Reader α) : Prop :=
  Confined (fun i => i.rest <:+ source) (Accounted source) x

theorem accounted_announced (e : Error) : Accounted source (.announced e) := fun _ h => by cases h

theorem accounted_stack : Accounted source (.fault .stackExhausted) := fun _ h => by
  cases h
  exact .inl rfl

theorem reads_complain (c : Complaint) (position : Nat) :
    Reads source (complain c position : Reader α) := confined_throw (accounted_announced _)

theorem reads_complainHere (c : Complaint) : Reads source (complainHere c : Reader α) :=
  confined_get_bind fun i h => reads_complain c i.position i h

theorem reads_advance (n : Nat) : Reads source (advance n) :=
  confined_modify fun _ h => (List.drop_suffix _ _).trans h

theorem reads_skipSpace : Reads source skipSpace :=
  confined_get_bind fun _ h => reads_advance _ _ h

theorem reads_peek? : Reads source peek? := confined_get_bind fun _ h => ends_pure.mpr h

theorem reads_alloc (c : Container) : Reads source (alloc c) := fun _ h => h

theorem suffix_of_drop {l l' rest : List Char} (n : Nat) (h : rest <:+ l') (heq : l.drop n = l') :
    rest <:+ l := by
  rw [← heq] at h
  exact h.trans (List.drop_suffix n l)

-- The string ends before what follows its closing quote.
theorem suffix_of_scanString {opened position position' : Nat} {acc acc' cs rest : List Char}
    (h : scanString opened acc position cs = .ok (acc', rest, position')) : rest <:+ cs := by
  fun_induction scanString opened acc position cs
  case case2 =>
    cases h
    exact List.suffix_cons _ _
  case case5 ih => exact suffix_of_drop 12 (ih h) rfl
  case case6 ih => exact suffix_of_drop 6 (ih h) rfl
  case case7 ih => exact suffix_of_drop 6 (ih h) rfl
  case case9 ih => exact suffix_of_drop 6 (ih h) rfl
  case case13 ih => exact suffix_of_drop 2 (ih h) rfl
  case case15 ih => exact suffix_of_drop 1 (ih h) rfl
  all_goals cases h

theorem reads_string : Reads source string := by
  intro i h
  unfold string
  rw [ends_bind, ends_get]
  cases hscan : scanString i.position [] (i.position + 1) (i.rest.drop 1) with
  | error e => exact ends_throw.mpr (accounted_announced e)
  | ok r =>
      obtain ⟨acc, rest, position⟩ := r
      exact (suffix_of_scanString hscan).trans ((List.drop_suffix 1 _).trans h)

-- Only an integer can be without a value, and only for its length.
theorem reads_number : Reads source number := by
  refine confined_get_bind fun i h => ?_
  cases hspan : numberSpan? i.rest with
  | none => exact reads_complainHere .value i h
  | some n =>
      obtain ⟨hn, hstart⟩ := isNumber_of_numberSpan? hspan
      obtain ⟨sign, ds, hwhole, hsign, hne, hds⟩ := hn.whole
      refine (reads_advance _).bind (fun _ => ?_) i h
      split
      next =>
        cases hvalue : integer? 10 n.whole with
        | some value => exact confined_pure _
        | none =>
            refine confined_throw fun f hf => .inr ⟨(Failure.fault.inj hf).symm, ds, ?_, hds, ?_⟩
            · have hin : ds <:+: n.text := by
                unfold NumberSpan.text
                rw [hwhole]
                exact ⟨sign, n.fraction ++ n.exponent, by simp only [List.append_assoc]⟩
              exact hin.trans (hstart.isInfix.trans h.isInfix)
            · rw [hwhole] at hvalue
              exact (integer?_eq_none_iff hsign hne hds).mp hvalue
      next =>
        cases hvalue : Binary64.ofLiteral? (n.whole ++ n.fraction ++ n.exponent) with
        | some value => exact confined_pure _
        | none =>
            have hsome : (Binary64.ofLiteral? (n.whole ++ n.fraction ++ n.exponent)).isSome :=
              hn.isSome_ofLiteral?
            rw [hvalue] at hsome
            cases hsome

theorem reads_atom : Reads source atom := by
  refine confined_get_bind fun i h => ?_
  dsimp only
  split
  · exact ((reads_advance _).bind fun _ => confined_pure _) i h
  · exact reads_number i h

theorem reads_isLast (close : Char) : Reads source (isLast close) := by
  refine reads_peek?.bind fun next => ?_
  split
  · exact (reads_advance 1).bind fun _ => confined_pure true
  · refine (reads_complainHere .comma).when ((reads_advance 1).bind fun _ => ?_)
    exact reads_skipSpace.bind fun _ => confined_pure false

section Containers

variable {item : Reader Value} (hitem : Reads source item)
include hitem

theorem reads_items (bound : Nat) (acc : List Value) : Reads source (items item bound acc) := by
  induction bound generalizing acc with
  | zero => exact reads_complainHere .value
  | succ bound ih =>
      unfold items
      refine hitem.bind fun v => reads_skipSpace.bind fun _ => (reads_isLast ']').bind fun last => ?_
      split
      · exact confined_pure _
      · exact ih _

theorem reads_memberValue : Reads source (memberValue item) := by
  unfold memberValue
  refine reads_skipSpace.bind fun _ => reads_peek?.bind fun colon => ?_
  refine (reads_complainHere .colon).when ?_
  exact (reads_advance 1).bind fun _ => reads_skipSpace.bind fun _ => hitem

theorem reads_members (bound : Nat) (acc : Entries) : Reads source (members item bound acc) := by
  induction bound generalizing acc with
  | zero => exact reads_complainHere .name
  | succ bound ih =>
      unfold members
      refine reads_peek?.bind fun first => (reads_complainHere .name).when ?_
      refine reads_string.bind fun key => (reads_memberValue hitem).bind fun v => ?_
      refine reads_skipSpace.bind fun _ => (reads_isLast _).bind fun last => ?_
      split
      · exact confined_pure _
      · exact ih _

end Containers

theorem reads_str : Reads source (do return .str (← string) : Reader Value) :=
  reads_string.bind fun _ => confined_pure _

theorem reads_value (bound allowance : Nat) : Reads source (value bound allowance) := by
  induction allowance with
  | zero =>
      unfold value
      refine reads_peek?.bind fun next => ?_
      split
      · exact confined_throw accounted_stack
      · exact confined_throw accounted_stack
      · exact reads_str
      · exact reads_atom
      · exact reads_complainHere .value
  | succ allowance ih =>
      unfold value
      refine reads_peek?.bind fun next => ?_
      split
      · refine (reads_advance 1).bind fun _ => reads_skipSpace.bind fun _ => ?_
        refine reads_peek?.bind fun next => ?_
        split
        · exact (reads_advance 1).bind fun _ => reads_alloc _
        · exact (reads_items ih bound []).bind fun _ => reads_alloc _
      · refine (reads_advance 1).bind fun _ => reads_skipSpace.bind fun _ => ?_
        refine reads_peek?.bind fun next => ?_
        split
        · exact (reads_advance 1).bind fun _ => reads_alloc _
        · exact (reads_members ih bound .empty).bind fun _ => reads_alloc _
      · exact reads_str
      · exact reads_atom
      · exact reads_complainHere .value

theorem reads_document (allowance : Nat) : Reads source (document allowance) := by
  unfold document
  refine reads_peek?.bind fun first => (reads_complainHere .byteOrderMark).when ?_
  refine reads_skipSpace.bind fun _ => confined_get.bind fun i => ?_
  refine (reads_value _ allowance).bind fun v => reads_skipSpace.bind fun _ => ?_
  exact reads_peek?.bind fun next => (reads_complainHere .trailingText).when (confined_pure v)

theorem read_accounted {allowance : Nat} {store : Store} {e : Failure Error}
    (h : read allowance source store = .error e) : Accounted source e := by
  have hdocument : Reads source (document allowance) := reads_document allowance
  unfold read at h
  cases hrun : (document allowance).run ⟨source, 0, store⟩ with
  | ok r =>
      rw [hrun] at h
      cases h
  | error e' =>
      rw [hrun] at h
      cases h
      exact (ends_of_error hrun).mp (hdocument _ List.suffix_rfl)

section LongInteger

variable {c : Char} {ds : List Char}

theorem not_isSpace (h : c.isDigit) : isSpace c = false := by
  rw [Bool.eq_false_iff]
  intro hspace
  simp only [isSpace, Bool.or_eq_true, beq_iff_eq] at hspace
  rcases hspace with ((rfl | rfl) | rfl) | rfl <;> cases h

-- No word starts with a digit.
theorem find?_words (h : c.isDigit) (rest : List Char) :
    words.find? (fun w => startsWith (c :: rest) w.1.toList) = none := by
  have hfirst : ∀ w ∈ words, ∃ d tail, w.1.toList = d :: tail ∧ d.isDigit = false := by
    intro w hw
    simp only [words, List.mem_cons, List.not_mem_nil, or_false] at hw
    rcases hw with rfl | rfl | rfl | rfl | rfl | rfl <;> exact ⟨_, _, rfl, rfl⟩
  rw [List.find?_eq_none]
  intro w hw hstart
  obtain ⟨d, tail, hlist, hd⟩ := hfirst w hw
  rw [startsWith, hlist, List.isPrefixOf, Bool.and_eq_true, beq_iff_eq] at hstart
  rw [hstart.1, h] at hd
  cases hd

theorem numberSpan?_digits (hne : ds ≠ []) (hdigits : ∀ c ∈ ds, c.isDigit) (hzero : ds.head? ≠ some '0') :
    numberSpan? ds = some ⟨ds, [], []⟩ := by
  obtain ⟨c, rest, rfl⟩ := List.exists_cons_of_ne_nil hne
  have hc := hdigits c List.mem_cons_self
  have hminus : (c :: rest).head? ≠ some '-' := by
    rintro hhead
    rw [Option.some.inj hhead] at hc
    cases hc
  have hwhole : wholeSpan? (c :: rest) = some (c :: rest) := by
    rw [wholeSpan?, if_neg fun h => hzero (congrArg some h), if_pos hc]
    exact congrArg some (List.takeWhile_eq_self_iff.mpr hdigits)
  rw [numberSpan?_of_ne_minus hminus, unsignedSpan?, hwhole]
  simp [fractionSpan, exponentSpan]

-- A text that is nothing but an integer of too many digits.
structure IsLongInteger (cs : List Char) : Prop where
  digits : ∀ c ∈ cs, c.isDigit
  head : cs.head? ≠ some '0'
  length : maxDecimalDigits < cs.length

theorem IsLongInteger.exists_head (h : IsLongInteger ds) : ∃ c rest, ds = c :: rest ∧ c.isDigit := by
  cases ds with
  | nil => exact absurd h.length (Nat.not_lt_zero _)
  | cons c rest => exact ⟨c, rest, rfl, h.digits c List.mem_cons_self⟩

abbrev Unread (x : Reader α) (i : Input) : Prop := Ends x i (fun _ _ => False) (· = .fault .unreadableLiteral)

variable {i : Input}

theorem unread_number (h : IsLongInteger i.rest) : Unread number i := by
  obtain ⟨c, rest, hcons, -⟩ := h.exists_head
  have hne : i.rest ≠ [] := by simp [hcons]
  have hvalue : integer? 10 i.rest = none := (integer?_eq_none_iff (.inl rfl) hne h.digits).mpr h.length
  unfold Unread number
  rw [ends_bind, ends_get, numberSpan?_digits hne h.digits h.head]
  dsimp only
  rw [ends_bind]
  unfold advance
  rw [ends_modify]
  simp only [List.isEmpty_nil, Bool.and_self, if_true, hvalue]
  exact ends_throw.mpr rfl

theorem unread_atom (h : IsLongInteger i.rest) : Unread atom i := by
  obtain ⟨c, rest, hcons, hc⟩ := h.exists_head
  have hword := find?_words hc rest
  unfold Unread atom
  rw [ends_bind, ends_get]
  dsimp only
  rw [hcons, hword]
  exact unread_number h

theorem unread_value (bound allowance : Nat) (h : IsLongInteger i.rest) : Unread (value bound allowance) i := by
  obtain ⟨c, rest, hcons, hc⟩ := h.exists_head
  have hpeek : i.rest.head? = some c := by rw [hcons]; rfl
  -- A digit opens neither a container nor a string.
  have hplain (d : Char) (hd : d.isDigit = false) : some c ≠ some d := by
    rintro heq
    rw [Option.some.inj heq, hd] at hc
    cases hc
  unfold Unread value peek?
  cases allowance
  all_goals
    rw [ends_bind, ends_bind, ends_get, ends_pure, hpeek]
    split
    next heq => exact absurd heq (hplain '[' rfl)
    next heq => exact absurd heq (hplain '\x7b' rfl)
    next heq => exact absurd heq (hplain '"' rfl)
    next => exact unread_atom h
    next heq => cases heq

theorem unread_document (allowance : Nat) (h : IsLongInteger i.rest) : Unread (document allowance) i := by
  obtain ⟨c, rest, hcons, hc⟩ := h.exists_head
  have hpeek : i.rest.head? = some c := by rw [hcons]; rfl
  have hmark : some c ≠ some '\uFEFF' := by
    rintro heq
    rw [Option.some.inj heq] at hc
    cases hc
  have hspace : i.rest.takeWhile isSpace = [] := by
    rw [hcons, List.takeWhile_cons_of_neg (by rw [not_isSpace hc]; exact Bool.false_ne_true)]
  unfold Unread document peek? skipSpace advance
  rw [ends_bind, ends_bind, ends_get, ends_pure, hpeek, if_neg hmark]
  simp only [ends_bind, ends_get, ends_modify, hspace]
  exact (unread_value _ allowance h).mono (fun _ _ => False.elim) fun _ => id

-- It cannot be read, however much nesting is allowed.
theorem read_longInteger (allowance : Nat) (store : Store) (h : IsLongInteger ds) :
    read allowance ds store = .error (.fault .unreadableLiteral) := by
  have hdocument : Unread (document allowance) ⟨ds, 0, store⟩ := unread_document allowance h
  unfold read
  rcases hrun : (document allowance).run ⟨ds, 0, store⟩ with e | ⟨v, i⟩
  · rw [(ends_of_error hrun).mp hdocument]
    rfl
  · exact ((ends_of_ok hrun).mp hdocument).elim

end LongInteger

end Json

end ApiGraph
