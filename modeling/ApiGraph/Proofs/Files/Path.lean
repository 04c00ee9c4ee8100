import ApiGraph.Files.Path
import ApiGraph.Proofs.Reference.SchemaName

namespace ApiGraph.Reference

open ApiGraph.Text

theorem baseName_append_cons (cs ds : List Char) : baseName (cs ++ '/' :: ds) = baseName ds := by
  have hlast := getLast?_splitOn (cs ++ '/' :: ds)
  rw [splitOn_append_cons_sep, List.getLast?_append, getLast?_splitOn ds, Option.some_or] at hlast
  exact (Option.some.inj hlast).symm

-- What stands behind nothing or behind a slash.
theorem baseName_append {front cs : List Char} (hfront : ∀ c ∈ front.getLast?, c = '/')
    (h : '/' ∉ cs) : baseName (front ++ cs) = cs := by
  rcases List.eq_nil_or_concat front with rfl | ⟨init, last, rfl⟩
  · rw [List.nil_append, baseName_of_not_mem h]
  · obtain rfl : last = '/' := hfront last (by simp)
    rw [List.concat_eq_append, List.append_assoc, List.singleton_append, baseName_append_cons,
      baseName_of_not_mem h]

end ApiGraph.Reference

namespace ApiGraph.FilePath

open ApiGraph.Text ApiGraph.Reference

def EndsIn (p : FilePath) (part : String) : Prop := ∃ ps, p.parts = ps ++ [part]

-- A name that is neither a step nor a piece of a path.
structure IsPart (part : String) : Prop where
  filled : part ≠ ""
  here : part ≠ "."
  above : part ≠ ".."
  plain : '/' ∉ part.toList

instance (part : String) : Decidable (IsPart part) :=
  decidable_of_iff (part ≠ "" ∧ part ≠ "." ∧ part ≠ ".." ∧ '/' ∉ part.toList)
    ⟨fun ⟨filled, here, above, plain⟩ => ⟨filled, here, above, plain⟩,
      fun ⟨filled, here, above, plain⟩ => ⟨filled, here, above, plain⟩⟩

variable {p q : FilePath} {part : String}

theorem collapse_concat (h : IsPart part) (absolute : Bool) (ps : List String) :
    collapse absolute (ps ++ [part]) = collapse absolute ps ++ [part] := by
  unfold collapse
  have hclimb (done : List String) : climb absolute done part = part :: done := by
    unfold climb
    rw [if_neg h.above]
  rw [List.foldl_append, List.foldl_cons, List.foldl_nil, hclimb, List.reverse_cons]

theorem EndsIn.normalize (hp : p.EndsIn part) (h : IsPart part) : p.normalize.EndsIn part := by
  obtain ⟨ps, hps⟩ := hp
  exact ⟨collapse p.isAbsolute ps, by rw [FilePath.normalize, hps, collapse_concat h]⟩

theorem EndsIn.join (hq : q.EndsIn part) (p : FilePath) : (p.join q).EndsIn part := by
  obtain ⟨ps, hps⟩ := hq
  unfold FilePath.join
  split
  · exact ⟨ps, hps⟩
  · exact ⟨p.parts ++ ps, by rw [hps, List.append_assoc]⟩

theorem EndsIn.absolute (hp : p.EndsIn part) (h : IsPart part) (cwd : FilePath) :
    (FilePath.absolute cwd p).EndsIn part := by
  obtain ⟨ps, hps⟩ := hp.join cwd
  exact ⟨collapse true ps, by rw [FilePath.absolute, hps, collapse_concat h]⟩

theorem exists_names_eq {cs : List Char} (hcs : baseName cs = part.toList) (h : IsPart part) :
    ∃ ps, names cs = ps ++ [part] := by
  obtain ⟨pieces, hpieces⟩ := List.getLast?_eq_some_iff.mp (getLast?_splitOn cs)
  have hempty : part.toList ≠ [] := fun hnil => h.filled (String.toList_inj.mp (by rw [hnil]; rfl))
  have hdot : part.toList ≠ ['.'] := fun hnil => h.here (String.toList_inj.mp (by rw [hnil]; rfl))
  unfold names
  rw [hpieces, hcs, List.filter_append, List.map_append]
  refine ⟨(pieces.filter fun piece => !piece.isEmpty && piece != ['.']).map String.ofList, ?_⟩
  congr 1
  simp [hempty, hdot]

theorem endsIn_ofText {s : String} (hs : baseName s.toList = part.toList) (h : IsPart part) :
    (ofText s).EndsIn part := exists_names_eq hs h

theorem toList_pushn (n : Nat) : ("".pushn '/' n).toList = List.replicate n '/' := by
  induction n with
  | zero => rfl
  | succ n ih =>
      have hpush : ("".pushn '/' (n + 1)).toList = ("".pushn '/' n).toList ++ ['/'] := String.toList_push _
      rw [hpush, ih, List.replicate_succ']

-- The parts with slashes between them, behind those at the start.
theorem toList_text (p : FilePath) :
    p.text.toList =
      if p.slashes = 0 ∧ Text.join '/' (p.parts.map String.toList) = [] then ['.']
      else List.replicate p.slashes '/' ++ Text.join '/' (p.parts.map String.toList) := by
  have hbody : ("".pushn '/' p.slashes ++ "/".intercalate p.parts).toList =
      List.replicate p.slashes '/' ++ Text.join '/' (p.parts.map String.toList) := by
    rw [String.toList_append, toList_pushn, String.toList_intercalate, ← intercalate_eq_join]
    rfl
  have hempty : "".pushn '/' p.slashes ++ "/".intercalate p.parts = "" ↔
      p.slashes = 0 ∧ Text.join '/' (p.parts.map String.toList) = [] := by
    rw [← String.toList_inj, hbody]
    simp
  unfold text
  dsimp only
  by_cases h : "".pushn '/' p.slashes ++ "/".intercalate p.parts = ""
  · rw [if_pos h, if_pos (hempty.mp h)]
    rfl
  · rw [if_neg h, if_neg fun heq => h (hempty.mpr heq), hbody]

-- The text of the path shows its last part.
theorem baseName_text (hp : p.EndsIn part) (h : IsPart part) : baseName p.text.toList = part.toList := by
  obtain ⟨ps, hps⟩ := hp
  have hempty : part.toList ≠ [] := fun hnil => h.filled (String.toList_inj.mp hnil)
  rw [toList_text, hps, List.map_append, List.map_singleton]
  by_cases hne : ps.map String.toList = []
  · rw [hne, List.nil_append]
    refine (congrArg baseName (if_neg fun hnil => hempty hnil.2)).trans (baseName_append ?_ h.plain)
    intro c hc
    exact List.eq_of_mem_replicate (List.mem_of_getLast? hc)
  · rw [join_concat _ hne, if_neg (by simp), ← List.append_assoc, baseName_append_cons,
      baseName_of_not_mem h.plain]

end ApiGraph.FilePath
