import ApiGraph.Files.Search
import ApiGraph.Proofs.Files.Position

namespace ApiGraph

namespace Folders

variable {n : String} {d : Directory}

-- The folders with their names.
def entries : Folders → List (String × Directory)
  | .nil => []
  | .cons n d rest => (n, d) :: rest.entries

theorem mem_entries_of_get? : {ds : Folders} → ds.get? n = some d → (n, d) ∈ ds.entries
  | .cons m e rest, h => by
      rw [get?] at h
      split at h
      next heq =>
        obtain rfl : e = d := Option.some.inj h
        rw [heq, entries]
        exact List.mem_cons_self
      next => exact List.mem_cons_of_mem _ (mem_entries_of_get? h)

theorem get?_of_mem_entries : {ds : Folders} → (ds.entries.map Prod.fst).Nodup →
    (n, d) ∈ ds.entries → ds.get? n = some d
  | .cons m e rest, hnodup, h => by
      rw [entries, List.map_cons, List.nodup_cons] at hnodup
      rw [get?]
      rcases List.mem_cons.mp h with heq | hrest
      · cases heq
        rw [if_pos rfl]
      · have hne : m ≠ n := by
          rintro rfl
          exact hnodup.1 (List.mem_map.mpr ⟨(m, d), hrest, rfl⟩)
        rw [if_neg hne]
        exact get?_of_mem_entries hnodup.2 hrest

theorem find_eq (name : String) (depth : Int) (top : Nat) (here : FilePath) : (ds : Folders) →
    ds.find name depth top here =
      ds.entries.map fun e => (e.1, e.2.find? name depth top (here.child e.1))
  | .nil => rfl
  | .cons n d rest => by
      rw [find, find_eq name depth top here rest]
      rfl

end Folders

section FirstFound

variable {found : List (String × Option FilePath)} {p : FilePath}

theorem firstFound_eq_none_iff : firstFound found = none ↔ ∀ e ∈ found, e.2 = none := by
  unfold firstFound
  rw [List.findSome?_eq_none_iff]
  simp only [List.mem_mergeSort]

theorem exists_of_firstFound (h : firstFound found = some p) :
    ∃ n, (n, some p) ∈ found ∧ ∀ m q, (m, some q) ∈ found → m ≠ n → n < m := by
  unfold firstFound at h
  obtain ⟨front, ⟨n, -⟩, back, hsort, rfl, hfront⟩ := List.findSome?_eq_some_iff.mp h
  have hmem {e : String × Option FilePath} : e ∈ found ↔ e ∈ front ++ (n, some p) :: back := by
    rw [← hsort, List.mem_mergeSort]
  refine ⟨n, hmem.mpr (by simp), fun m q hq hne => ?_⟩
  -- in front of the folder nothing was found
  have hback : (m, some q) ∈ back := by
    rcases List.mem_append.mp (hmem.mp hq) with hin | hin
    · exact absurd (hfront _ hin) (by simp)
    · rcases List.mem_cons.mp hin with heq | hin
      · exact absurd (congrArg Prod.fst heq) hne
      · exact hin
  have hsorted : List.Pairwise (fun x y : String × Option FilePath => (!decide (y.1 < x.1)) = true)
      (found.mergeSort fun x y => !decide (y.1 < x.1)) := by
    refine List.pairwise_mergeSort (fun x y z hxy hyz => ?_) (fun x y => ?_) found
    · simp only [Bool.not_eq_true', decide_eq_false_iff_not, String.not_lt] at hxy hyz ⊢
      exact String.le_trans hxy hyz
    · simp only [Bool.or_eq_true, Bool.not_eq_true', decide_eq_false_iff_not, String.not_lt]
      exact String.le_total x.1 y.1
  rw [hsort, List.pairwise_append, List.pairwise_cons] at hsorted
  have hnot := hsorted.2.1.1 _ hback
  rw [Bool.not_eq_true', decide_eq_false_iff_not] at hnot
  by_contra hlt
  exact hne (String.le_antisymm (String.not_lt.mp hlt) (String.not_lt.mp hnot))

theorem firstFound_eq_some {n : String} (hmem : (n, some p) ∈ found)
    (hleast : ∀ e ∈ found, e.2 = none ∨ e.2 = some p ∨ n < e.1) : firstFound found = some p := by
  cases hfound : firstFound found with
  | none => cases firstFound_eq_none_iff.mp hfound _ hmem
  | some q =>
      obtain ⟨m, hm, hfirst⟩ := exists_of_firstFound hfound
      rcases hleast _ hm with hnone | hsame | hlt
      · cases hnone
      · exact hsame
      · have hback : m < n := hfirst n p hmem (String.ne_of_lt hlt)
        exact absurd hback (String.lt_asymm hlt)

end FirstFound

namespace Directory

open FilePath

-- The directory at the end of a way down through folders.
def below? (d : Directory) : List String → Option Directory
  | [] => some d
  | n :: path => (d.folder? n).bind (·.below? path)

-- No directory has two folders of one name, and every name of a folder can be a part of a path.
inductive Proper : Directory → Prop
  | mk {d : Directory} (distinct : (d.folders.entries.map Prod.fst).Nodup)
      (named : ∀ e ∈ d.folders.entries, IsPart e.1) (below : ∀ e ∈ d.folders.entries, Proper e.2) :
      Proper d

-- The way leads down at most that many levels, to a directory that holds something of the name. What it
-- holds is no folder, and it need not be a regular file.
def Holds (d : Directory) (name : String) (levels : Int) (path : List String) : Prop :=
  path.length ≤ max 0 levels ∧ ∃ e, d.below? path = some e ∧ (e.file? name).isSome

-- The first of these ways, in the order in which directories come.
structure IsFirst (d : Directory) (name : String) (levels : Int) (path : List String) : Prop where
  holds : d.Holds name levels path
  first : ∀ other, d.Holds name levels other → other ≠ path → List.Lex (· < ·) path other

section Holds

variable {d e : Directory} {name n : String} {levels : Int} {path : List String}

theorem holds_nil_iff : d.Holds name levels [] ↔ (d.file? name).isSome := by
  constructor
  · rintro ⟨-, e, he, hfile⟩
    cases he
    exact hfile
  · exact fun hfile => ⟨Int.le_max_left 0 levels, d, rfl, hfile⟩

theorem holds_cons_iff (hlevels : 0 < levels) :
    d.Holds name levels (n :: path) ↔ ∃ e, d.folder? n = some e ∧ e.Holds name (levels - 1) path := by
  unfold Holds
  rw [below?, List.length_cons]
  constructor
  · rintro ⟨hlength, e, he, hfile⟩
    obtain ⟨e', he', hpath⟩ := Option.bind_eq_some_iff.mp he
    exact ⟨e', he', by omega, e, hpath, hfile⟩
  · rintro ⟨e', he', hlength, e, hpath, hfile⟩
    exact ⟨by omega, e, by rw [he', Option.bind_some, hpath], hfile⟩

theorem not_holds_cons (hlevels : levels ≤ 0) : ¬d.Holds name levels (n :: path) := by
  rintro ⟨hlength, -⟩
  rw [List.length_cons] at hlength
  omega

-- The directory itself comes before all others.
theorem isFirst_nil (hfile : (d.file? name).isSome) : d.IsFirst name levels [] := by
  refine ⟨holds_nil_iff.mpr hfile, fun other _ hne => ?_⟩
  obtain ⟨n, rest, rfl⟩ := List.exists_cons_of_ne_nil hne
  exact .nil

-- Where nothing is in the directory itself, the first of its folders counts that has something below it.
theorem isFirst_cons (hlevels : 0 < levels) (hfile : ¬(d.file? name).isSome)
    (he : d.folder? n = some e) (hpath : e.IsFirst name (levels - 1) path)
    (hleast : ∀ m e' path', d.folder? m = some e' → e'.Holds name (levels - 1) path' → m ≠ n → n < m) :
    d.IsFirst name levels (n :: path) := by
  refine ⟨(holds_cons_iff hlevels).mpr ⟨e, he, hpath.holds⟩, fun other hother hne => ?_⟩
  cases other with
  | nil => exact absurd (holds_nil_iff.mp hother) hfile
  | cons m path' =>
      obtain ⟨e', he', hpath'⟩ := (holds_cons_iff hlevels).mp hother
      by_cases hmn : m = n
      · subst hmn
        obtain rfl : e' = e := Option.some.inj (he'.symm.trans he)
        exact .cons (hpath.first path' hpath' fun heq => hne (by rw [heq]))
      · exact .rel (hleast m e' path' he' hpath' hmn)

end Holds

section Find

variable {d : Directory} {name : String} {depth levels : Int} {top : Nat} {here p : FilePath}

-- The search ends in the directory, or may not go on, or goes into the folders.
theorem find?_eq (name : String) (depth : Int) (top : Nat) (here : FilePath) (d : Directory) :
    d.find? name depth top here =
      if (d.file? name).isSome then some (here.child name)
      else if depth ≤ here.parts.length - top then none
      else firstFound (d.folders.entries.map fun e =>
        (e.1, e.2.find? name depth top (here.child e.1))) := by
  cases d with
  | mk files folders =>
      rw [find?, Folders.find_eq]
      rfl

-- The search below the directory finds the first way down, and nothing only if there is none.
def Finds (d : Directory) (name : String) (depth : Int) (top : Nat) (here : FilePath) (levels : Int) :
    Prop :=
  (d.find? name depth top here = none → ∀ path, ¬d.Holds name levels path) ∧
  ∀ p, d.find? name depth top here = some p →
    ∃ path, d.IsFirst name levels path ∧ p = ⟨here.slashes, here.parts ++ path ++ [name]⟩

-- If it does so in each folder, with one level fewer, it does so in the directory.
theorem finds_of_folders (distinct : (d.folders.entries.map Prod.fst).Nodup) (hlevels : 0 < levels)
    (hdepth : ¬depth ≤ here.parts.length - top) (hfile : ¬(d.file? name).isSome)
    (hbelow : ∀ e ∈ d.folders.entries, e.2.Finds name depth top (here.child e.1) (levels - 1)) :
    d.Finds name depth top here levels := by
  have hentry {n : String} {e : Directory} (he : d.folder? n = some e) : (n, e) ∈ d.folders.entries :=
    Folders.mem_entries_of_get? he
  unfold Finds
  rw [find?_eq, if_neg hfile, if_neg hdepth]
  constructor
  · intro hnone path hpath
    cases path with
    | nil => exact hfile (holds_nil_iff.mp hpath)
    | cons n rest =>
        obtain ⟨e, he, hrest⟩ := (holds_cons_iff hlevels).mp hpath
        have hfound := firstFound_eq_none_iff.mp hnone _ (List.mem_map.mpr ⟨(n, e), hentry he, rfl⟩)
        exact (hbelow _ (hentry he)).1 hfound rest hrest
  · intro p hp
    obtain ⟨n, hn, hleast⟩ := exists_of_firstFound hp
    obtain ⟨⟨n', e⟩, he, heq⟩ := List.mem_map.mp hn
    obtain ⟨rfl, hfound⟩ := Prod.mk.inj heq
    obtain ⟨rest, hrest, rfl⟩ := (hbelow _ he).2 p hfound
    refine ⟨n' :: rest, isFirst_cons hlevels hfile (Folders.get?_of_mem_entries distinct he) hrest ?_, ?_⟩
    · intro m e' path' he' hpath' hne
      cases hother : e'.find? name depth top (here.child m) with
      | none => exact absurd hpath' ((hbelow _ (hentry he')).1 hother path')
      | some q =>
          refine hleast m q (List.mem_map.mpr ⟨(m, e'), hentry he', ?_⟩) hne
          rw [hother]
    · simp [child]

-- How far the search may still go is how much the path to the directory is shorter than it may get.
theorem finds (hd : d.Proper) (hlevels : levels = depth - (here.parts.length - top)) :
    d.Finds name depth top here levels := by
  induction hd generalizing here levels with
  | @mk d distinct named below ih =>
      by_cases hfile : (d.file? name).isSome
      · unfold Finds
        rw [find?_eq, if_pos hfile]
        refine ⟨nofun, fun p hp => ⟨[], isFirst_nil hfile, ?_⟩⟩
        rw [List.append_nil]
        exact (Option.some.inj hp).symm
      by_cases hdepth : depth ≤ here.parts.length - top
      · unfold Finds
        rw [find?_eq, if_neg hfile, if_pos hdepth]
        refine ⟨fun _ path hpath => ?_, nofun⟩
        cases path with
        | nil => exact hfile (holds_nil_iff.mp hpath)
        | cons n rest => exact not_holds_cons (by omega) hpath
      · refine finds_of_folders distinct (by omega) hdepth hfile fun e he => ih e he ?_
        simp only [child, List.length_append, List.length_singleton]
        omega

end Find

end Directory

namespace FileTree

open FilePath

variable {t : FileTree}

-- Where a path leads in a proper directory, there is a proper directory.
theorem proper_of_descend {above : List Directory} {here d : Directory} {parts : List String}
    (habove : ∀ e ∈ above, e.Proper) (hhere : here.Proper)
    (h : descend above here parts = some (.folder d)) : d.Proper := by
  induction parts generalizing above here with
  | nil =>
      cases h
      exact hhere
  | cons part rest ih =>
      by_cases hup : part = ".."
      · subst hup
        cases above with
        | nil => exact ih (by simp) hhere h
        | cons outer more =>
            exact ih (fun e he => habove e (List.mem_cons_of_mem _ he)) (habove _ List.mem_cons_self) h
      · rw [descend_cons hup] at h
        cases hfolder : here.folder? part with
        | some e =>
            rw [hfolder] at h
            refine ih (List.forall_mem_cons.mpr ⟨hhere, habove⟩) ?_ h
            cases hhere with
            | mk _ _ below => exact below _ (Folders.mem_entries_of_get? hfolder)
        | none =>
            rw [hfolder] at h
            dsimp only at h
            split at h
            · cases hfile : here.file? part <;> simp [hfile] at h
            · cases h

theorem proper_of_folder? {d : Directory} {p : FilePath} (ht : t.root.Proper)
    (h : t.folder? p = some d) : d.Proper := by
  unfold folder? place? at h
  split at h
  next hplace =>
    cases h
    exact proper_of_descend (by simp) ht hplace
  next => cases h

-- The search finds a path exactly where a directory that is near enough holds something of the name that
-- is no folder. The root is near enough, whatever the depth is. The path then leads to the first such
-- directory, in the order in which a directory comes before its folders and these by their names.
theorem search?_finds_first {root : FilePath} {name : String} {depth : Int} (ht : t.root.Proper) :
    ((t.search? root name depth).isSome ↔
      ∃ d path, t.folder? root = some d ∧ d.Holds name depth path) ∧
    ∀ p, t.search? root name depth = some p →
      ∃ d path, t.folder? root = some d ∧ d.IsFirst name depth path ∧
        p = ⟨root.slashes, root.parts ++ path ++ [name]⟩ := by
  unfold search?
  cases hroot : t.folder? root with
  | none => simp
  | some d =>
      have hfinds : d.Finds name depth root.parts.length root depth :=
        Directory.finds (proper_of_folder? ht hroot) (by omega)
      refine ⟨?_, fun p hp => ?_⟩
      · constructor
        · intro hsome
          obtain ⟨p, hp⟩ := Option.isSome_iff_exists.mp hsome
          obtain ⟨path, hpath, -⟩ := hfinds.2 p hp
          exact ⟨d, path, rfl, hpath.holds⟩
        · rintro ⟨d', path, hd', hpath⟩
          obtain rfl : d = d' := Option.some.inj hd'
          by_contra hnone
          exact hfinds.1 (by simpa using hnone) path hpath
      · obtain ⟨path, hpath, rfl⟩ := hfinds.2 p hp
        exact ⟨d, path, rfl, hpath, rfl⟩

-- A directory that lists its folders in the wrong order.
def shelves : FileTree :=
  let shelf := Directory.mk [("x.yaml", .bytes "".toUTF8)] .nil
  let lib := Directory.mk [] (.cons "b" shelf (.cons "a" (.mk [] (.cons "c" shelf .nil)) .nil))
  ⟨.mk [] (.cons "lib" lib .nil), ⟨1, []⟩⟩

theorem proper_shelves : shelves.root.Proper := by
  have hshelf : (Directory.mk [("x.yaml", .bytes "".toUTF8)] .nil).Proper :=
    .mk (by decide) (by decide) nofun
  have hdeeper : (Directory.mk [] (.cons "c" (.mk [("x.yaml", .bytes "".toUTF8)] .nil) .nil)).Proper :=
    .mk (by decide) (by decide) (List.forall_mem_singleton.mpr hshelf)
  refine .mk (by decide) (by decide) (List.forall_mem_singleton.mpr (.mk (by decide) (by decide) ?_))
  exact List.forall_mem_cons.mpr ⟨hshelf, List.forall_mem_singleton.mpr hdeeper⟩

-- What is deeper is found first, where a folder above it comes first by its name.
theorem search?_shelves :
    shelves.root.Proper ∧
      shelves.search? ⟨0, ["lib"]⟩ "x.yaml" 2 = some ⟨0, ["lib", "a", "c", "x.yaml"]⟩ ∧
      ∃ d, shelves.folder? ⟨0, ["lib"]⟩ = some d ∧ d.Holds "x.yaml" 2 ["b"] ∧
        d.IsFirst "x.yaml" 2 ["a", "c"] := by
  have hfound : shelves.search? ⟨0, ["lib"]⟩ "x.yaml" 2 = some ⟨0, ["lib", "a", "c", "x.yaml"]⟩ := by
    have hbelow : firstFound [("c", some (⟨0, ["lib", "a", "c", "x.yaml"]⟩ : FilePath))] =
        some ⟨0, ["lib", "a", "c", "x.yaml"]⟩ := firstFound_eq_some List.mem_cons_self (by decide)
    change firstFound [("b", some ⟨0, ["lib", "b", "x.yaml"]⟩),
      ("a", firstFound [("c", some ⟨0, ["lib", "a", "c", "x.yaml"]⟩)])] = _
    rw [hbelow]
    exact firstFound_eq_some (List.mem_cons_of_mem _ List.mem_cons_self) (by decide)
  obtain ⟨d, path, hd, hpath, hp⟩ := (search?_finds_first proper_shelves).2 _ hfound
  have hparts : path ++ ["x.yaml"] = ["a", "c"] ++ ["x.yaml"] := by simpa using hp.symm
  obtain rfl := List.append_cancel_right hparts
  refine ⟨proper_shelves, hfound, d, hd, ⟨by decide, ?_⟩, hpath⟩
  obtain rfl := Option.some.inj hd
  exact ⟨_, rfl, rfl⟩

end FileTree

end ApiGraph
