import ApiGraph.Locator
import ApiGraph.Proofs.Files.Written

namespace ApiGraph.Text

variable {pieces pieces' : List (List Char)}

theorem join_sublist (sep : Char) (h : pieces.Sublist pieces') :
    (join sep pieces).Sublist (join sep pieces') := by
  induction h with
  | slnil => exact List.Sublist.refl _
  | @cons rest rest' piece h ih =>
      cases rest' with
      | nil => exact ih.trans (List.nil_sublist piece)
      | cons second more =>
          rw [join_cons_of_ne_nil piece (List.cons_ne_nil second more)]
          exact ih.trans ((List.sublist_cons_self sep _).trans (List.sublist_append_right piece _))
  | @cons_cons rest rest' piece h ih =>
      cases rest with
      | nil =>
          cases rest' with
          | nil => exact List.Sublist.refl _
          | cons second more =>
              rw [join_cons_of_ne_nil piece (List.cons_ne_nil second more)]
              exact List.sublist_append_left piece _
      | cons second more =>
          have hrest' : rest' ≠ [] := by
            rintro rfl
            cases h
          rw [join_cons_of_ne_nil piece (List.cons_ne_nil second more), join_cons_of_ne_nil piece hrest']
          exact (ih.cons_cons sep).append_left piece

theorem not_mem_replaceChar {old new : Char} (h : old ≠ new) (cs : List Char) :
    old ∉ replaceChar old new cs := by
  intro hin
  obtain ⟨c, -, hc⟩ := List.mem_map.mp hin
  split at hc
  · exact h hc.symm
  next hne => exact hne hc

end ApiGraph.Text

namespace ApiGraph.EntryName

open ApiGraph.Text ApiGraph.FilePath

def components (name : String) : List (List Char) := splitOn '/' name.toList

-- A component that goes down.
def IsPlain (piece : List Char) : Prop := piece ≠ [] ∧ piece ≠ ['.'] ∧ piece ≠ ['.', '.']

-- A component that leads nowhere.
def IsIdle (piece : List Char) : Prop := piece = [] ∨ piece = ['.']

-- Components read from left to right, with that many plain ones before them that are not cancelled yet:
-- a step up finds none to cancel.
inductive ClimbsOut : Nat → List (List Char) → Prop
  | out (rest : List (List Char)) : ClimbsOut 0 (['.', '.'] :: rest)
  | cancel {n : Nat} {rest : List (List Char)} (h : ClimbsOut n rest) :
      ClimbsOut (n + 1) (['.', '.'] :: rest)
  | plain {n : Nat} {piece : List Char} {rest : List (List Char)} (hpiece : IsPlain piece)
      (h : ClimbsOut (n + 1) rest) : ClimbsOut n (piece :: rest)
  | idle {n : Nat} {piece : List Char} {rest : List (List Char)} (hpiece : IsIdle piece)
      (h : ClimbsOut n rest) : ClimbsOut n (piece :: rest)

-- The name of the root, or a way down from it.
structure IsNormal (name : String) : Prop where
  down : name = "." ∨ ∀ piece ∈ components name, IsPlain piece
  start : name.toList.head? ≠ some '/'
  forward : '\\' ∉ name.toList

-- What is left of a name once its back slashes are turned: white space stood around it, and then slashes
-- in front of it.
structure IsTrimmed (name : String) (cs : List Char) : Prop where
  around : ∃ before slashes after,
    replaceChar '\\' '/' name.toList = before ++ (slashes ++ cs ++ after) ∧
      (∀ c ∈ before, isBlank c) ∧ (∀ c ∈ slashes, c = '/') ∧ (∀ c ∈ after, isBlank c) ∧
      (∀ c ∈ (slashes ++ cs).head?, isBlank c = false) ∧ ∀ c ∈ (slashes ++ cs).getLast?, isBlank c = false
  start : cs.head? ≠ some '/'

section Clean

variable {name : String} {cs : List Char}

theorem clean_eq_iff : clean name = cs ↔ IsTrimmed name cs := by
  constructor
  · rintro rfl
    unfold clean
    generalize htrim : trim (replaceChar '\\' '/' name.toList) = trimmed
    obtain ⟨before, after, htext, hbefore, hafter, hhead, hlast⟩ := trimBoth_eq_iff.mp htrim
    rw [← List.takeWhile_append_dropWhile (p := (· == '/')) (l := trimmed)] at htext hhead hlast
    refine ⟨⟨before, _, after, htext, hbefore, fun c hc => ?_, hafter, hhead, hlast⟩, fun hstart => ?_⟩
    · exact beq_iff_eq.mp (List.all_eq_true.mp List.all_takeWhile c hc)
    · simpa using head_dropWhile (· == '/') _ '/' hstart
  · rintro ⟨⟨before, slashes, after, htext, hbefore, hslashes, hafter, hhead, hlast⟩, hstart⟩
    have htrim : trim (replaceChar '\\' '/' name.toList) = slashes ++ cs := by
      rw [htext]
      exact trimBoth_append hbefore hafter hhead hlast
    unfold clean
    rw [htrim, List.dropWhile_append_of_pos fun c hc => by simp [hslashes c hc]]
    exact dropWhile_eq_self fun c hc => beq_false_of_ne fun heq => hstart (heq ▸ hc)

end Clean

section Climb

variable {done parts : List String} {piece cs : List Char} {rest pieces : List (List Char)} {n : Nat}

theorem idle_or_up_or_plain (piece : List Char) : IsIdle piece ∨ piece = ['.', '.'] ∨ IsPlain piece := by
  by_cases hidle : IsIdle piece
  · exact .inl hidle
  by_cases hup : piece = ['.', '.']
  · exact .inr (.inl hup)
  · exact .inr (.inr ⟨fun h => hidle (.inl h), fun h => hidle (.inr h), hup⟩)

theorem not_climbsOut_nil : ¬ClimbsOut n [] := nofun

theorem climbsOut_idle (h : IsIdle piece) : ClimbsOut n (piece :: rest) ↔ ClimbsOut n rest := by
  refine ⟨fun hout => ?_, .idle h⟩
  cases hout with
  | out => rcases h with h | h <;> cases h
  | cancel => rcases h with h | h <;> cases h
  | plain hpiece => rcases h with rfl | rfl <;> simp [IsPlain] at hpiece
  | idle _ hrest => exact hrest

theorem climbsOut_up_succ : ClimbsOut (n + 1) (['.', '.'] :: rest) ↔ ClimbsOut n rest := by
  refine ⟨fun hout => ?_, .cancel⟩
  cases hout with
  | cancel hrest => exact hrest
  | plain hpiece => exact absurd rfl hpiece.2.2
  | idle hpiece => rcases hpiece with h | h <;> cases h

theorem climbsOut_plain (h : IsPlain piece) : ClimbsOut n (piece :: rest) ↔ ClimbsOut (n + 1) rest := by
  refine ⟨fun hout => ?_, .plain h⟩
  cases hout with
  | out => exact absurd rfl h.2.2
  | cancel => exact absurd rfl h.2.2
  | plain _ hrest => exact hrest
  | idle hpiece => exact (hpiece.elim h.1 h.2.1).elim

-- A step up at the bottom is never cancelled.
theorem getLast?_climb (h : done.getLast? = some "..") (part : String) :
    (climb false done part).getLast? = some ".." := by
  unfold climb
  cases done with
  | nil => cases h
  | cons last rest =>
      cases rest with
      | nil =>
          obtain rfl : last = ".." := Option.some.inj h
          split <;> rfl
      | cons second more =>
          rw [List.getLast?_cons_cons] at h
          split
          · dsimp only
            split
            · rw [List.getLast?_cons_cons, List.getLast?_cons_cons, h]
            · exact h
          · rw [List.getLast?_cons_cons, List.getLast?_cons_cons, h]

theorem getLast?_foldl_climb (h : done.getLast? = some "..") (parts : List String) :
    (parts.foldl (climb false) done).getLast? = some ".." := by
  induction parts generalizing done with
  | nil => exact h
  | cons part rest ih => exact ih (getLast?_climb h part)

theorem climb_up {last : String} (h : last ≠ "..") (rest : List String) :
    climb false (last :: rest) ".." = rest := by
  unfold climb
  rw [if_pos rfl]
  exact if_neg h

theorem climb_part {part : String} (h : part ≠ "..") : climb false done part = part :: done := if_neg h

-- A step up comes to the bottom, or none is kept.
theorem getLast?_or_not_mem (hdone : ".." ∉ done) :
    (parts.foldl (climb false) done).getLast? = some ".." ∨ ".." ∉ parts.foldl (climb false) done := by
  induction parts generalizing done with
  | nil => exact .inr hdone
  | cons part rest ih =>
      rw [List.foldl_cons]
      by_cases hpart : part = ".."
      · subst hpart
        cases done with
        | nil => exact .inl (getLast?_foldl_climb rfl rest)
        | cons last others =>
            obtain ⟨hlast, hothers⟩ : ".." ≠ last ∧ ".." ∉ others := by simpa using hdone
            rw [climb_up (Ne.symm hlast)]
            exact ih hothers
      · rw [climb_part hpart]
        exact ih (List.not_mem_cons_of_ne_of_not_mem (Ne.symm hpart) hdone)

-- The names among the pieces of a text.
def namesIn (pieces : List (List Char)) : List String :=
  (pieces.filter fun piece => !piece.isEmpty && piece != ['.']).map String.ofList

theorem namesIn_idle (h : IsIdle piece) : namesIn (piece :: rest) = namesIn rest := by
  rcases h with rfl | rfl <;> rfl

theorem namesIn_up : namesIn (['.', '.'] :: rest) = ".." :: namesIn rest := rfl

theorem namesIn_plain (h : IsPlain piece) :
    namesIn (piece :: rest) = String.ofList piece :: namesIn rest := by
  unfold namesIn
  rw [List.filter_cons_of_pos (by simpa using ⟨h.1, h.2.1⟩), List.map_cons]

theorem IsPlain.ofList_ne (h : IsPlain piece) : String.ofList piece ≠ ".." := by
  intro heq
  refine h.2.2 ?_
  simpa using congrArg String.toList heq

-- The names on the stack are the plain components that are not cancelled yet.
theorem getLast?_foldl_iff (hdone : ".." ∉ done) :
    ((namesIn pieces).foldl (climb false) done).getLast? = some ".." ↔
      ClimbsOut done.length pieces := by
  induction pieces generalizing done with
  | nil => exact iff_of_false (fun h => hdone (List.mem_of_getLast? h)) not_climbsOut_nil
  | cons piece rest ih =>
      rcases idle_or_up_or_plain piece with hidle | rfl | hplain
      · rw [namesIn_idle hidle, ih hdone, climbsOut_idle hidle]
      · rw [namesIn_up, List.foldl_cons]
        cases done with
        | nil => exact iff_of_true (getLast?_foldl_climb rfl _) (.out rest)
        | cons last others =>
            obtain ⟨hlast, hothers⟩ : ".." ≠ last ∧ ".." ∉ others := by simpa using hdone
            rw [climb_up (Ne.symm hlast), ih hothers, List.length_cons, climbsOut_up_succ]
      · rw [namesIn_plain hplain, List.foldl_cons, climb_part hplain.ofList_ne,
          ih (List.not_mem_cons_of_ne_of_not_mem (Ne.symm hplain.ofList_ne) hdone), climbsOut_plain hplain,
          List.length_cons]

theorem head?_collapse_iff :
    (collapse false (names cs)).head? = some ".." ↔ ClimbsOut 0 (splitOn '/' cs) := by
  have hempty : ".." ∉ ([] : List String) := List.not_mem_nil
  unfold collapse
  rw [List.head?_reverse]
  exact getLast?_foldl_iff hempty

theorem not_mem_collapse (h : ¬ClimbsOut 0 (splitOn '/' cs)) : ".." ∉ collapse false (names cs) := by
  rw [← head?_collapse_iff] at h
  unfold collapse at h ⊢
  rw [List.head?_reverse] at h
  rw [List.mem_reverse]
  exact (getLast?_or_not_mem List.not_mem_nil).resolve_left h

end Climb

section Normal

variable {name s : String}

theorem normalize?_eq_none_iff :
    normalize? name = none ↔ clean name = [] ∨ ClimbsOut 0 (splitOn '/' (clean name)) := by
  rw [← head?_collapse_iff]
  unfold normalize?
  dsimp only
  split
  next hempty => exact iff_of_true rfl (.inl (by simpa using hempty))
  next hempty =>
    split
    next hup => simp [hup]
    next hup => simpa [hup] using hempty

theorem toList_text_of_ne {parts : List String} (hne : parts ≠ []) (h : ∀ part ∈ parts, IsPart part) :
    (text ⟨0, parts⟩).toList = Text.join '/' (parts.map String.toList) := by
  rw [toList_text, if_neg]
  · rfl
  · rintro ⟨-, hnil⟩
    have hnames := names_joined fun part hpart => (h part hpart).isStep
    rw [hnil] at hnames
    exact hne hnames.symm

-- A normal form is made of names that stand in the text, in their order.
theorem exists_parts (h : normalize? name = some s) :
    ∃ parts, (∀ part ∈ parts, IsPart part) ∧ parts.Sublist (names (clean name)) ∧ s = text ⟨0, parts⟩ := by
  have hsome : normalize? name ≠ none := by simp [h]
  rw [ne_eq, normalize?_eq_none_iff, not_or] at hsome
  obtain ⟨hclean, hout⟩ := hsome
  have hup := not_mem_collapse hout
  refine ⟨collapse false (names (clean name)), fun part hpart => ?_, collapse_sublist _ _, ?_⟩
  · have hstep := isStep_of_mem_names ((collapse_sublist _ _).subset hpart)
    exact ⟨hstep.filled, hstep.here, fun heq => hup (heq ▸ hpart), hstep.plain⟩
  · unfold normalize? at h
    dsimp only at h
    rw [if_neg (by simpa using hclean), if_neg (fun heq => hup (List.mem_of_head? heq))] at h
    exact (Option.some.inj h).symm

theorem joined_sublist {parts : List String} {cs : List Char} (h : parts.Sublist (names cs)) :
    (Text.join '/' (parts.map String.toList)).Sublist cs := by
  have hnames : ((names cs).map String.toList).Sublist (splitOn '/' cs) := by
    unfold names
    rw [List.map_map]
    simp
  have hjoin := join_sublist '/' ((h.map String.toList).trans hnames)
  rwa [join_splitOn] at hjoin

-- Making a name normal only leaves characters out.
theorem normalized_sublist (h : normalize? name = some s) : s = "." ∨ s.toList.Sublist (clean name) := by
  obtain ⟨parts, hparts, hsublist, rfl⟩ := exists_parts h
  by_cases hne : parts = []
  · subst hne
    exact .inl rfl
  · rw [toList_text_of_ne hne hparts]
    exact .inr (joined_sublist hsublist)

theorem clean_sublist (name : String) : (clean name).Sublist (replaceChar '\\' '/' name.toList) :=
  (List.dropWhile_sublist _).trans (trimBoth_sublist isBlank _)

theorem isNormal_of_normalize? (h : normalize? name = some s) : IsNormal s := by
  have hback : '\\' ∉ s.toList := by
    rcases normalized_sublist h with rfl | hsublist
    · decide
    · exact fun hin => not_mem_replaceChar (by decide) _ ((hsublist.trans (clean_sublist name)).subset hin)
  obtain ⟨parts, hparts, -, rfl⟩ := exists_parts h
  by_cases hne : parts = []
  · subst hne
    exact ⟨.inl rfl, by decide, hback⟩
  · have hpieces : ∀ piece ∈ parts.map String.toList, IsPlain piece ∧ '/' ∉ piece := by
      intro piece hpiece
      obtain ⟨part, hpart, rfl⟩ := List.mem_map.mp hpiece
      obtain ⟨filled, here, above, plain⟩ := hparts part hpart
      exact ⟨⟨fun heq => filled (String.toList_inj.mp heq), fun heq => here (String.toList_inj.mp heq),
        fun heq => above (String.toList_inj.mp heq)⟩, plain⟩
    refine ⟨.inr fun piece hpiece => ?_, ?_, hback⟩
    · unfold components at hpiece
      rw [toList_text_of_ne hne hparts, splitOn_joined hne fun part hpart => (hparts part hpart).isStep]
        at hpiece
      exact (hpieces piece hpiece).1
    · rw [toList_text_of_ne hne hparts]
      exact head?_join_ne (fun piece hpiece => (hpieces piece hpiece).2)
        fun hhead => (hpieces [] (List.mem_of_head? hhead)).1.1 rfl

end Normal

section Below

variable {start path entry p : String}

-- What is found below a prefix has its components and more.
theorem exists_below (hp : normalize? start = some p) (hroot : p ≠ ".")
    (h : Locator.entryUnder? start path = some entry) :
    IsNormal entry ∧ ∃ below, components entry = components p ++ below ∧ below ≠ [] := by
  unfold Locator.entryUnder? at h
  obtain ⟨entry', hentry, h⟩ := Option.bind_eq_some_iff.mp h
  rw [hp] at h
  dsimp only at h
  split at h
  next hunder =>
    obtain rfl : entry' = entry := Option.some.inj h
    have hstart : startsWith entry'.toList (p.toList ++ ['/']) = true := by
      simpa [hroot] using hunder
    obtain ⟨rest, hrest⟩ := List.isPrefixOf_iff_prefix.mp hstart
    refine ⟨isNormal_of_normalize? hentry, splitOn '/' rest, ?_, splitOn_ne_nil '/' rest⟩
    unfold components
    rw [← hrest, List.append_assoc, List.singleton_append, splitOn_append_cons_sep]
  next => cases h

end Below

-- A normal form is the name of the root or a way down by plain components. Every name is trimmed in one
-- way, and it has no normal form if nothing is left of it then or if it climbs out. Under a prefix that is a
-- way down, what is found is strictly below it.
theorem names_confined :
    (∀ name s, normalize? name = some s → IsNormal s) ∧
    (∀ name, ∃ cs, (∀ cs', IsTrimmed name cs' ↔ cs' = cs) ∧
      (normalize? name = none ↔ cs = [] ∨ ClimbsOut 0 (splitOn '/' cs))) ∧
    ∀ start path p entry, normalize? start = some p → p ≠ "." →
      Locator.entryUnder? start path = some entry →
      IsNormal entry ∧ ∃ below, components entry = components p ++ below ∧ below ≠ [] :=
  ⟨fun _ _ => isNormal_of_normalize?,
    fun name => ⟨clean name, fun _ => clean_eq_iff.symm.trans eq_comm, normalize?_eq_none_iff⟩,
    fun _ _ _ _ => exists_below⟩

-- A folder whose name only starts with the same characters is outside.
theorem lib_confined :
    Locator.entryUnder? "/lib/." "../library/x.yaml" = none ∧
      Locator.entryUnder? "/lib/." "a/../x.yaml" = some "lib/x.yaml" ∧
      ∃ below, components "lib/x.yaml" = components "lib" ++ below ∧ below ≠ [] := by
  have hstart : normalize? "/lib/." = some "lib" := by decide
  have hentry : Locator.entryUnder? "/lib/." "a/../x.yaml" = some "lib/x.yaml" := by decide
  exact ⟨by decide, hentry, (names_confined.2.2 _ _ _ _ hstart (by decide) hentry).2⟩

end ApiGraph.EntryName
