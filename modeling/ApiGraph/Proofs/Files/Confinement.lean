import ApiGraph.Locator
import ApiGraph.Proofs.Files.Search
import ApiGraph.Proofs.Files.Written

namespace ApiGraph

namespace FileTree

open FilePath

-- The tree as it is on a disk, and the current directory as its path from the root.
structure Proper (t : FileTree) : Prop where
  root : t.root.Proper
  start : t.cwd.slashes = 1
  steps : ∀ part ∈ t.cwd.parts, IsPart part

-- Both paths lead to something, and the second one below the first.
def IsInside (t : FileTree) (root p : FilePath) : Prop :=
  ∃ above below, t.position? root = some above ∧ t.position? p = some (above ++ below) ∧ below ≠ []

section Inside

variable {t : FileTree} {root p : FilePath} {c : FileContent} {name : String}

theorem file?_eq_some_iff : t.file? p = some c ↔ t.place? p = some (.file c) ∧ c.isRegular = true := by
  unfold file?
  split
  next content hplace =>
    rw [hplace]
    constructor
    · intro h
      split at h
      next hregular =>
        cases h
        exact ⟨rfl, hregular⟩
      next => cases h
    · rintro ⟨heq, hregular⟩
      cases heq
      rw [if_pos hregular]
  next hother => exact ⟨nofun, fun h => absurd h.1 (hother c)⟩

theorem exists_place_of_folder? (h : (t.folder? root).isSome) : ∃ d, t.place? root = some (.folder d) := by
  unfold folder? at h
  split at h
  next d hplace => exact ⟨d, hplace⟩
  next => cases h

theorem exists_position {place : Place} (h : t.place? p = some place) :
    ∃ ps, t.position? p = some ps := by
  rw [← Option.isSome_iff_exists, isSome_position?, h]
  rfl

-- For a file and a directory that are there, the simplified paths tell where they are.
theorem isInside_of_isUnder (hroot : (t.folder? root).isSome) (hp : t.file? p = some c)
    (h : (t.absolute root).isUnder (t.absolute p) = true) : t.IsInside root p := by
  obtain ⟨d, hfolder⟩ := exists_place_of_folder? hroot
  obtain ⟨hfile, -⟩ := file?_eq_some_iff.mp hp
  obtain ⟨above, habove⟩ := exists_position hfolder
  obtain ⟨ps, hps⟩ := exists_position hfile
  unfold isUnder at h
  rw [absolute_of_position? habove, absolute_of_position? hps] at h
  obtain ⟨below, rfl⟩ := List.isPrefixOf_iff_prefix.mp h
  refine ⟨above, below, habove, hps, ?_⟩
  rintro rfl
  rw [place?_of_position? hps, List.append_nil, ← place?_of_position? habove, hfolder] at hfile
  cases hfile

-- A name is no way out of a directory.
theorem isUnder_child (hname : IsPart name) (t : FileTree) (root : FilePath) :
    (t.absolute root).isUnder (t.absolute (root.child name)) = true := by
  have hparts : (t.cwd.join (root.child name)).parts = (t.cwd.join root).parts ++ [name] := by
    have habsolute : (root.child name).isAbsolute = root.isAbsolute := rfl
    unfold join
    rw [habsolute]
    split
    · rfl
    · exact (List.append_assoc _ _ _).symm
  unfold isUnder FileTree.absolute FilePath.absolute
  rw [hparts, collapse_concat hname]
  exact List.isPrefixOf_iff_prefix.mpr (List.prefix_append _ _)

end Inside

end FileTree

namespace FilePath

variable {name : String}

-- A name is the path of one part.
theorem ofText_of_isPart (h : IsPart name) : ofText name = ⟨0, [name]⟩ := by
  have hread : (⟨0, [name]⟩ : FilePath).Readable :=
    ⟨Nat.zero_le 2, List.forall_mem_singleton.mpr h.isStep⟩
  have htext : (⟨0, [name]⟩ : FilePath).text = name := by
    rw [← String.toList_inj, toList_text, if_neg]
    · rfl
    · exact fun hnil => h.filled (String.toList_inj.mp hnil.2)
  have hback := ofText_text hread
  rwa [htext] at hback

theorem join_of_isPart (h : IsPart name) (p : FilePath) : p.join (ofText name) = p.child name := by
  rw [ofText_of_isPart h]
  rfl

end FilePath

namespace Directory

open FilePath

-- The names on a way down are parts of a path.
theorem Proper.isPart {d e : Directory} {path : List String} (hd : d.Proper)
    (h : d.below? path = some e) : ∀ part ∈ path, IsPart part := by
  induction path generalizing d with
  | nil => simp
  | cons n rest ih =>
      obtain ⟨d', hd', hrest⟩ := Option.bind_eq_some_iff.mp h
      have hentry := Folders.mem_entries_of_get? hd'
      cases hd with
      | mk _ named below => exact List.forall_mem_cons.mpr ⟨named _ hentry, ih (below _ hentry) hrest⟩

end Directory

namespace Reference

open Text FilePath

variable {cs ds : List Char} {ending : String}

theorem baseName_append_of_not_mem (cs : List Char) (h : '/' ∉ ds) :
    baseName (cs ++ ds) = baseName cs ++ ds := by
  have hall : ∀ c ∈ ds.reverse, (c != '/') = true := by
    intro c hc
    have hne : c ≠ '/' := fun heq => h (heq ▸ List.mem_reverse.mp hc)
    simpa using hne
  unfold baseName
  rw [List.reverse_append, List.takeWhile_append_of_pos hall, List.reverse_append, List.reverse_reverse]

-- The ending is the end of the name.
theorem length_le_of_hasEnding (hending : '/' ∉ ending.toList) (h : hasEnding cs ending = true) :
    ending.toList.length ≤ (baseName cs).length := by
  unfold hasEnding endsWith at h
  obtain ⟨front, hfront⟩ := List.isSuffixOf_iff_suffix.mp h
  obtain ⟨before, last, rfl, -, hlast⟩ := List.map_eq_append_iff.mp hfront.symm
  have hslash : '/' ∉ last := by
    intro hin
    refine hending ?_
    rw [← hlast]
    exact List.mem_map.mpr ⟨'/', hin, rfl⟩
  rw [baseName_append_of_not_mem before hslash, List.length_append, ← hlast, List.length_map]
  exact Nat.le_add_left _ _

-- A file that has one of the endings has a name.
theorem isPart_of_namesFile {path : String} (h : namesFile path.toList = true) :
    IsPart (Locator.baseName path) := by
  have hlength : 4 ≤ (baseName path.toList).length := by
    obtain ⟨ending, hin, hends⟩ := List.any_eq_true.mp h
    have hknown : ∀ e ∈ fileEndings, '/' ∉ e.toList ∧ 4 ≤ e.toList.length := by decide
    obtain ⟨hslash, hlong⟩ := hknown ending hin
    exact Nat.le_trans hlong (length_le_of_hasEnding hslash hends)
  have hne (short : String) (hshort : short.toList.length < 4) : Locator.baseName path ≠ short := by
    rintro rfl
    rw [Locator.baseName, String.toList_ofList] at hshort
    omega
  refine ⟨hne "" (by decide), hne "." (by decide), hne ".." (by decide), ?_⟩
  rw [Locator.baseName, String.toList_ofList]
  exact not_mem_baseName _

end Reference

namespace Locator

open FilePath Reference

variable {l : Locator} {p : FilePath} {c : FileContent} {path ref : String} {base : Option String}

theorem accept_eq_ok_true_iff :
    l.accept p = .ok true ↔ ∃ c, l.tree.file? p = some c ∧ c.size ≤ l.sizeLimit := by
  unfold accept
  cases l.tree.file? p with
  | none => simp
  | some c =>
      dsimp only
      split
      next hlarge => simpa using hlarge
      next hlarge => simpa using hlarge

theorem firstAccepted_eq_some {candidates : List FilePath}
    (h : l.firstAccepted candidates = .ok (some p)) : p ∈ candidates ∧ l.accept p = .ok true := by
  induction candidates with
  | nil => cases h
  | cons q rest ih =>
      unfold firstAccepted at h
      cases hq : l.accept q with
      | error e =>
          rw [hq] at h
          cases h
      | ok accepted =>
          rw [hq] at h
          cases accepted with
          | true =>
              cases h
              exact ⟨List.mem_cons_self, hq⟩
          | false =>
              obtain ⟨hmem, hp⟩ := ih h
              exact ⟨List.mem_cons_of_mem q hmem, hp⟩

-- A location on disk is a candidate that was accepted.
theorem exists_of_locate {found : Location} (harchive : l.archive = none)
    (h : l.locate ref base = .ok found) :
    namesFile (sanitize ref).toList = true ∧
      ∃ p, found = ⟨p.text, none⟩ ∧ l.onDisk (sanitize ref) base = .ok (some p) := by
  unfold locate at h
  rw [harchive] at h
  dsimp only at h
  split at h
  · cases h
  split at h
  · cases h
  next hnames =>
    refine ⟨by simpa using hnames, ?_⟩
    cases hdisk : l.onDisk (sanitize ref) base with
    | error e =>
        rw [hdisk] at h
        cases h
    | ok p? =>
        rw [hdisk] at h
        cases p? with
        | none => cases h
        | some p =>
            cases h
            exact ⟨p, rfl, rfl⟩

-- The file next to the referencing one, or a file below a root: by the path, by the name, by a search.
inductive IsCandidate (l : Locator) (path : String) (base : Option String) : FilePath → Prop
  | beside : IsCandidate l path base (l.besideCandidate path base)
  | below {root : String} (hroot : root ∈ l.roots)
      (hwithin : l.isWithin (ofText root) ((ofText root).join (ofText path)).normalize = true) :
      IsCandidate l path base ((ofText root).join (ofText path)).normalize
  | named {root : String} (hroot : root ∈ l.roots) :
      IsCandidate l path base ((ofText root).join (ofText (baseName path)))
  | searched {root : String} {p : FilePath} (hroot : root ∈ l.roots)
      (hsearch : l.tree.search? (ofText root) (baseName path) l.searchDepth = some p)
      (hwithin : l.isWithin (ofText root) p = true) : IsCandidate l path base p

theorem isCandidate_of_onDisk (h : l.onDisk path base = .ok (some p)) :
    l.IsCandidate path base p ∧ l.accept p = .ok true := by
  obtain ⟨hmem, haccept⟩ := firstAccepted_eq_some h
  refine ⟨?_, haccept⟩
  rw [List.append_assoc, List.cons_append, List.mem_cons, List.mem_append, List.mem_append] at hmem
  rcases hmem with rfl | hbelow | hname | hsearch
  · exact .beside
  · obtain ⟨_, hroot, hsome⟩ := List.mem_filterMap.mp hbelow
    obtain ⟨root, hin, rfl⟩ := List.mem_map.mp hroot
    dsimp only at hsome
    split at hsome
    next hwithin =>
      cases hsome
      exact .below hin hwithin
    next => cases hsome
  · unfold nameCandidates at hname
    split at hname
    next =>
      obtain ⟨_, hroot, rfl⟩ := List.mem_map.mp hname
      obtain ⟨root, hin, rfl⟩ := List.mem_map.mp hroot
      exact .named hin
    next => cases hname
  · obtain ⟨_, hroot, hsome⟩ := List.mem_filterMap.mp hsearch
    obtain ⟨root, hin, rfl⟩ := List.mem_map.mp hroot
    obtain ⟨q, hq, hsome⟩ := Option.bind_eq_some_iff.mp hsome
    split at hsome
    next hwithin =>
      cases hsome
      exact .searched hin hq hwithin
    next => cases hsome

-- A candidate is found again from its text.
theorem IsCandidate.readable (ht : l.tree.Proper) (hname : IsPart (baseName path))
    (h : l.IsCandidate path base p) : p.Readable := by
  cases h with
  | beside =>
      have hcwd : l.tree.cwd.Readable :=
        ⟨by rw [ht.start]; decide, fun part hpart => (ht.steps part hpart).isStep⟩
      unfold besideCandidate
      refine (Readable.join ?_ (readable_ofText path)).normalize
      cases base with
      | none => exact hcwd
      | some b =>
          dsimp only
          split
          · exact hcwd
          · exact readable_ofText b
  | @below root => exact ((readable_ofText root).join (readable_ofText path)).normalize
  | @named root => exact (readable_ofText root).join (readable_ofText (baseName path))
  | @searched root _ _ hsearch =>
      obtain ⟨d, way, hd, hway, rfl⟩ := (FileTree.search?_finds_first ht.root).2 p hsearch
      obtain ⟨-, e, he, -⟩ := hway.holds
      have hparts := (FileTree.proper_of_folder? ht.root hd).isPart he
      refine ⟨(readable_ofText root).start, ?_⟩
      refine List.forall_mem_append.mpr ⟨List.forall_mem_append.mpr ⟨(readable_ofText root).steps, ?_⟩, ?_⟩
      · exact fun part hpart => (hparts part hpart).isStep
      · exact List.forall_mem_singleton.mpr hname.isStep

-- Each candidate but the first one is inside a root, where it is a file and the roots are directories.
theorem IsCandidate.beside_or_isInside (hroots : ∀ root ∈ l.roots, (l.tree.folder? (ofText root)).isSome)
    (hname : IsPart (baseName path)) (hfile : l.tree.file? p = some c) (h : l.IsCandidate path base p) :
    p = l.besideCandidate path base ∨ ∃ root ∈ l.roots, l.tree.IsInside (ofText root) p := by
  have hinside {root : String} (hroot : root ∈ l.roots) (hwithin : l.isWithin (ofText root) p = true) :
      ∃ root ∈ l.roots, l.tree.IsInside (ofText root) p :=
    ⟨root, hroot, FileTree.isInside_of_isUnder (hroots root hroot) hfile hwithin⟩
  cases h with
  | beside => exact .inl rfl
  | below hroot hwithin => exact .inr (hinside hroot hwithin)
  | @named root hroot =>
      refine .inr (hinside hroot ?_)
      rw [join_of_isPart hname]
      exact FileTree.isUnder_child hname l.tree (ofText root)
  | searched hroot _ hwithin => exact .inr (hinside hroot hwithin)

-- A base that is missing or blank is the current directory.
theorem besideCandidate_eq (l : Locator) (path : String) (base : Option String) :
    l.besideCandidate path base =
      (((base.filter (· ≠ "")).elim l.tree.cwd ofText).join (ofText path)).normalize := by
  unfold besideCandidate
  cases base with
  | none => rfl
  | some b => by_cases hb : b = "" <;> simp [hb, Option.filter]

-- Where a reference is located on disk, there is a regular file that is not too large. Either the path to
-- it is the base joined with the reference and then made normal, or the file is below a root.
theorem located_confined {t : FileTree} {raw : List String} {sizeLimit searchDepth : Int}
    {found : Location} (ht : t.Proper)
    (h : (make t none raw sizeLimit searchDepth).locate ref base = .ok found) :
    found.archive = none ∧
      (∃ content, t.place? (.ofText found.path) = some (.file content) ∧ content.isRegular = true ∧
        content.size ≤ sizeLimit) ∧
      (ofText found.path =
          (((base.filter (· ≠ "")).elim t.cwd ofText).join (ofText (sanitize ref))).normalize ∨
        ∃ root ∈ (make t none raw sizeLimit searchDepth).roots,
          t.IsInside (.ofText root) (.ofText found.path)) := by
  have hroots : ∀ root ∈ (make t none raw sizeLimit searchDepth).roots,
      (t.folder? (.ofText root)).isSome := by
    intro root hroot
    have husable := (List.mem_filter.mp hroot).2
    simp only [Option.isSome_none, Bool.false_or, Bool.and_eq_true] at husable
    exact husable.2
  obtain ⟨hnames, p, rfl, hdisk⟩ := exists_of_locate rfl h
  have hname := isPart_of_namesFile hnames
  obtain ⟨hcandidate, haccept⟩ := isCandidate_of_onDisk hdisk
  obtain ⟨c, hfile, hsize⟩ := accept_eq_ok_true_iff.mp haccept
  obtain ⟨hplace, hregular⟩ := FileTree.file?_eq_some_iff.mp hfile
  rw [ofText_text (hcandidate.readable ht hname)]
  refine ⟨rfl, ⟨c, hplace, hregular, hsize⟩, ?_⟩
  exact (hcandidate.beside_or_isInside hroots hname hfile).imp_left fun hbeside =>
    hbeside.trans (besideCandidate_eq _ _ _)

-- A reference that climbs out of everything is found by its name in the root.
theorem located_shelves :
    FileTree.shelves.Proper ∧
      (make FileTree.shelves none ["lib/b"] 10 2).locate "../../x.yaml" (some "api") =
        .ok ⟨"lib/b/x.yaml", none⟩ ∧
      FileTree.shelves.IsInside (.ofText "lib/b") (.ofText "lib/b/x.yaml") := by
  have ht : FileTree.shelves.Proper := ⟨FileTree.proper_shelves, rfl, nofun⟩
  have hfound : (make FileTree.shelves none ["lib/b"] 10 2).locate "../../x.yaml" (some "api") =
      .ok ⟨"lib/b/x.yaml", none⟩ := by rfl
  have hroots : (make FileTree.shelves none ["lib/b"] 10 2).roots = ["lib/b"] := by decide
  have hinside := (located_confined ht hfound).2.2.resolve_left (by decide)
  simp only [hroots, List.mem_singleton, exists_eq_left] at hinside
  exact ⟨ht, hfound, hinside⟩

end Locator

end ApiGraph
