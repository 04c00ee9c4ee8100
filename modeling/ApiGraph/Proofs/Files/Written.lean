import ApiGraph.Proofs.Files.Path

namespace ApiGraph.FilePath

open ApiGraph.Text

section Collapse

variable {absolute : Bool} {done parts : List String} {part : String}

theorem climb_sublist (absolute : Bool) (done : List String) (part : String) :
    (climb absolute done part).Sublist (part :: done) := by
  unfold climb
  split
  next hup =>
    subst hup
    cases done with
    | nil => cases absolute <;> simp
    | cons last rest =>
        dsimp only
        split
        · exact List.Sublist.refl _
        · exact ((List.Sublist.refl rest).cons last).cons ".."
  next => exact List.Sublist.refl _

theorem collapse_sublist (absolute : Bool) (parts : List String) :
    (collapse absolute parts).Sublist parts := by
  suffices h : ∀ done, (parts.foldl (climb absolute) done).reverse.Sublist (done.reverse ++ parts) by
    exact h []
  induction parts with
  | nil => simp
  | cons part rest ih =>
      intro done
      have hstep := (climb_sublist absolute done part).reverse
      rw [List.reverse_cons] at hstep
      have hrest := (ih (climb absolute done part)).trans (hstep.append_right rest)
      rwa [List.append_assoc, List.singleton_append] at hrest

-- Nothing is cancelled where there is no step up.
theorem collapse_eq_self (h : ".." ∉ parts) : collapse absolute parts = parts := by
  suffices hall : ∀ done, parts.foldl (climb absolute) done = parts.reverse ++ done by
    rw [collapse, hall [], List.append_nil, List.reverse_reverse]
  induction parts with
  | nil => simp
  | cons part rest ih =>
      intro done
      obtain ⟨hpart, hrest⟩ : ".." ≠ part ∧ ".." ∉ rest := by simpa using h
      have hclimb : climb absolute done part = part :: done := if_neg (Ne.symm hpart)
      rw [List.foldl_cons, hclimb, ih hrest, List.reverse_cons, List.append_assoc, List.singleton_append]

end Collapse

-- A part of a path that is found between the slashes of a text: a name or a step up.
structure IsStep (part : String) : Prop where
  filled : part ≠ ""
  here : part ≠ "."
  plain : '/' ∉ part.toList

theorem IsPart.isStep {part : String} (h : IsPart part) : IsStep part := ⟨h.filled, h.here, h.plain⟩

section Names

variable {cs : List Char} {part : String} {parts : List String} {n : Nat}

theorem isStep_of_mem_names (h : part ∈ names cs) : IsStep part := by
  unfold names at h
  obtain ⟨piece, hpiece, rfl⟩ := List.mem_map.mp h
  obtain ⟨hsplit, hkept⟩ := List.mem_filter.mp hpiece
  simp only [Bool.and_eq_true, Bool.not_eq_true', List.isEmpty_eq_false_iff, bne_iff_ne] at hkept
  refine ⟨fun heq => hkept.1 ?_, fun heq => hkept.2 ?_, ?_⟩
  · simpa using congrArg String.toList heq
  · simpa using congrArg String.toList heq
  · rw [String.toList_ofList]
    exact not_mem_of_mem_splitOn '/' cs piece hsplit

theorem names_eq_map (h : ∀ piece ∈ splitOn '/' cs, piece ≠ [] ∧ piece ≠ ['.']) :
    names cs = (splitOn '/' cs).map String.ofList := by
  unfold names
  rw [List.filter_eq_self.mpr fun piece hpiece => by simpa using h piece hpiece]

theorem splitOn_joined (hne : parts ≠ []) (h : ∀ part ∈ parts, IsStep part) :
    splitOn '/' (Text.join '/' (parts.map String.toList)) = parts.map String.toList := by
  refine splitOn_join (by simpa using hne) fun piece hpiece => ?_
  obtain ⟨part, hpart, rfl⟩ := List.mem_map.mp hpiece
  exact (h part hpart).plain

-- The names of a text that was put together from names.
theorem names_joined (h : ∀ part ∈ parts, IsStep part) :
    names (Text.join '/' (parts.map String.toList)) = parts := by
  by_cases hne : parts = []
  · subst hne
    rfl
  have hpieces : ∀ piece ∈ parts.map String.toList, piece ≠ [] ∧ piece ≠ ['.'] := by
    intro piece hpiece
    obtain ⟨part, hpart, rfl⟩ := List.mem_map.mp hpiece
    exact ⟨fun heq => (h part hpart).filled (String.toList_inj.mp heq),
      fun heq => (h part hpart).here (String.toList_inj.mp heq)⟩
  rw [names_eq_map (by rwa [splitOn_joined hne h]), splitOn_joined hne h, List.map_map]
  simp

theorem names_replicate_append (n : Nat) (cs : List Char) :
    names (List.replicate n '/' ++ cs) = names cs := by
  induction n with
  | zero => rfl
  | succ n ih =>
      rw [← ih, List.replicate_succ, List.cons_append]
      simp [names, splitOn]

theorem leadingSlashes_replicate_append (hn : n ≤ 2) (h : cs.head? ≠ some '/') :
    leadingSlashes (List.replicate n '/' ++ cs) = n := by
  have hstop : cs.takeWhile (· == '/') = [] := by
    cases cs with
    | nil => rfl
    | cons c rest => simpa using h
  have hlength : ((List.replicate n '/' ++ cs).takeWhile (· == '/')).length = n := by
    rw [List.takeWhile_append_of_pos (by simp), hstop, List.append_nil, List.length_replicate]
  unfold leadingSlashes
  rw [hlength]
  obtain rfl | rfl | rfl : n = 0 ∨ n = 1 ∨ n = 2 := by omega
  all_goals rfl

end Names

-- A path that its text shows as it is.
structure Readable (p : FilePath) : Prop where
  start : p.slashes ≤ 2
  steps : ∀ part ∈ p.parts, IsStep part

section Readable

variable {p q : FilePath} {name : String}

theorem readable_ofText (s : String) : (ofText s).Readable := by
  refine ⟨?_, fun part hpart => isStep_of_mem_names hpart⟩
  unfold ofText leadingSlashes
  dsimp only
  split <;> omega

theorem Readable.join (hp : p.Readable) (hq : q.Readable) : (p.join q).Readable := by
  unfold FilePath.join
  split
  · exact hq
  · exact ⟨hp.start, List.forall_mem_append.mpr ⟨hp.steps, hq.steps⟩⟩

theorem Readable.normalize (hp : p.Readable) : p.normalize.Readable :=
  ⟨hp.start, fun part hpart => hp.steps part ((collapse_sublist _ _).subset hpart)⟩

-- The text of the path is read as the path.
theorem ofText_text (hp : p.Readable) : ofText p.text = p := by
  have hjoin : (Text.join '/' (p.parts.map String.toList)).head? ≠ some '/' := by
    refine head?_join_ne (fun piece hpiece => ?_) fun hhead => ?_
    · obtain ⟨part, hpart, rfl⟩ := List.mem_map.mp hpiece
      exact (hp.steps part hpart).plain
    · obtain ⟨part, hpart, heq⟩ := List.mem_map.mp (List.mem_of_mem_head? hhead)
      exact (hp.steps part hpart).filled (String.toList_inj.mp heq)
  have hnames := names_joined hp.steps
  obtain ⟨slashes, parts⟩ := p
  unfold ofText
  rw [toList_text]
  split
  next h =>
    obtain ⟨rfl, hnil⟩ := h
    dsimp only at hnil hnames
    rw [hnil] at hnames
    rw [← hnames]
    rfl
  next h =>
    rw [names_replicate_append, leadingSlashes_replicate_append hp.start hjoin, hnames]

end Readable

end ApiGraph.FilePath
