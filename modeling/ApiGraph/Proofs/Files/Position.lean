import ApiGraph.Proofs.Files.Path
import ApiGraph.Files.Tree

namespace ApiGraph.FileTree

open FilePath

-- Follows the names from a directory like `descend` and keeps the names on the way, innermost first.
def trail (names : List String) (above : List Directory) (here : Directory) :
    List String → Option (List String)
  | [] => some names.reverse
  | ".." :: rest =>
      match above with
      | [] => trail [] [] here rest
      | outer :: more => trail names.tail more outer rest
  | name :: rest =>
      match here.folder? name with
      | some d => trail (name :: names) (here :: above) d rest
      | none =>
          if rest.isEmpty && (here.file? name).isSome then some (name :: names).reverse else none

def position? (t : FileTree) (p : FilePath) : Option (List String) :=
  trail [] [] t.root (t.cwd.join p).parts

variable {t : FileTree} {p p' : FilePath} {names ps rest : List String} {above : List Directory}
  {here : Directory} {part : String}

theorem descend_cons (h : part ≠ "..") :
    descend above here (part :: rest) = match here.folder? part with
      | some d => descend (here :: above) d rest
      | none => if rest.isEmpty then (here.file? part).map .file else none := by
  rw [descend.eq_def]
  split
  next heq => cases heq
  next heq => exact absurd (List.cons.inj heq).1 h
  next heq =>
    obtain ⟨rfl, rfl⟩ := List.cons.inj heq
    rfl

theorem trail_cons (h : part ≠ "..") :
    trail names above here (part :: rest) = match here.folder? part with
      | some d => trail (part :: names) (here :: above) d rest
      | none =>
          if rest.isEmpty && (here.file? part).isSome then some (part :: names).reverse else none := by
  rw [trail.eq_def]
  split
  next heq => cases heq
  next heq => exact absurd (List.cons.inj heq).1 h
  next heq =>
    obtain ⟨rfl, rfl⟩ := List.cons.inj heq
    rfl

-- There is a position wherever the path leads to something.
theorem isSome_trail (names : List String) (above : List Directory) (here : Directory)
    (parts : List String) :
    (trail names above here parts).isSome = (descend above here parts).isSome := by
  induction parts generalizing names above here with
  | nil => rfl
  | cons part rest ih =>
      by_cases hup : part = ".."
      · subst hup
        cases above with
        | nil => exact ih [] [] here
        | cons outer more => exact ih names.tail more outer
      · rw [trail_cons hup, descend_cons hup]
        cases here.folder? part with
        | some d => exact ih (part :: names) (here :: above) d
        | none => cases rest <;> cases here.file? part <;> rfl

theorem isSome_position? (t : FileTree) (p : FilePath) :
    (t.position? p).isSome = (t.place? p).isSome :=
  isSome_trail [] [] t.root _

-- The directory is reached from the root by the names, through the directories above it.
inductive Reached (root : Directory) : List String → List Directory → Directory → Prop
  | root : Reached root [] [] root
  | into {names : List String} {above : List Directory} {here d : Directory} {name : String}
      (h : Reached root names above here) (hname : name ≠ "..") (hd : here.folder? name = some d) :
      Reached root (name :: names) (here :: above) d

-- Going on from there is going down from the root.
theorem Reached.descend_eq {root : Directory} (h : Reached root names above here)
    (rest : List String) : descend [] root (names.reverse ++ rest) = descend above here rest := by
  induction h generalizing rest with
  | root => rfl
  | @into names above here d name _ hname hd ih =>
      rw [List.reverse_cons, List.append_assoc, List.singleton_append, ih, descend_cons hname, hd]

theorem Reached.descend_trail {root : Directory} {parts : List String}
    (h : Reached root names above here) (htrail : trail names above here parts = some ps) :
    descend above here parts = descend [] root ps := by
  induction parts generalizing names above here with
  | nil =>
      obtain rfl : names.reverse = ps := Option.some.inj htrail
      rw [← h.descend_eq [], List.append_nil]
  | cons part rest ih =>
      by_cases hup : part = ".."
      · subst hup
        cases h with
        | root => exact ih .root htrail
        | into houter => exact ih houter htrail
      · rw [trail_cons hup] at htrail
        cases hfolder : here.folder? part with
        | some d =>
            rw [hfolder] at htrail
            rw [descend_cons hup, hfolder]
            exact ih (.into h hup hfolder) htrail
        | none =>
            rw [hfolder] at htrail
            dsimp only at htrail
            split at htrail
            next hend =>
              obtain rfl : rest = [] := by simp_all
              obtain rfl : (part :: names).reverse = ps := Option.some.inj htrail
              rw [List.reverse_cons, h.descend_eq]
            next => cases htrail

-- What a path leads to is what its position says.
theorem place?_of_position? (h : t.position? p = some ps) : t.place? p = descend [] t.root ps :=
  Reached.root.descend_trail h

-- A step up takes the last name away, and so it does in simplifying the path.
theorem eq_collapse_of_trail {parts : List String} (hlength : names.length = above.length)
    (hnames : ".." ∉ names) (h : trail names above here parts = some ps) :
    ps = (parts.foldl (climb true) names).reverse := by
  induction parts generalizing names above here with
  | nil => exact (Option.some.inj h).symm
  | cons part rest ih =>
      rw [List.foldl_cons]
      by_cases hup : part = ".."
      · subst hup
        cases above with
        | nil =>
            obtain rfl : names = [] := List.length_eq_zero_iff.mp hlength
            exact ih rfl hnames h
        | cons outer more =>
            obtain ⟨last, others, rfl⟩ := List.exists_cons_of_length_eq_add_one hlength
            have hclimb : climb true (last :: others) ".." = others := by
              have hlast : last ≠ ".." := fun heq => hnames (heq ▸ List.mem_cons_self)
              simp [climb, hlast]
            rw [hclimb]
            exact ih (Nat.succ.inj hlength) (fun hin => hnames (List.mem_cons_of_mem _ hin)) h
      · have hclimb : climb true names part = part :: names := by simp [climb, hup]
        rw [hclimb]
        rw [trail_cons hup] at h
        cases hfolder : here.folder? part with
        | some d =>
            rw [hfolder] at h
            refine ih (by simpa using hlength) ?_ h
            simpa [Ne.symm hup] using hnames
        | none =>
            rw [hfolder] at h
            dsimp only at h
            split at h
            next hend =>
              have hrest : rest = [] := by simp_all
              rw [hrest]
              exact (Option.some.inj h).symm
            next => cases h

-- The simplified path is the position, whichever way the path is written.
theorem absolute_of_position? (h : t.position? p = some ps) : t.absolute p = ⟨1, ps⟩ := by
  have hcollapse := eq_collapse_of_trail rfl List.not_mem_nil h
  rw [hcollapse]
  rfl

end ApiGraph.FileTree
