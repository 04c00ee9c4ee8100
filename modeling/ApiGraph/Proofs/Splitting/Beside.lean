import ApiGraph.Proofs.Files.Path
import ApiGraph.Proofs.Reference.FileName
import ApiGraph.Proofs.Resolve.WalkRecording

namespace ApiGraph.Resolve

open FilePath Reference Text

-- The file of the component beside the root document, where it is there.
def Request.beside? (q : Request) (name : String) : Option Location :=
  let l := q.context.locator
  match l.archive with
  | some a => do
      let entry ← EntryName.normalize? (Locator.joinNames (q.scope.base.getD "") (fileName name))
      if a.hasEntry entry then some ⟨entry, some a.path⟩ else none
  | none =>
      let p := l.besideCandidate (fileName name) q.scope.base
      match l.accept p with
      | .ok true => some ⟨p.text, none⟩
      | _ => none

def Request.fileKey? (q : Request) (name : String) : Option String :=
  (q.beside? name).map (locationKey q.tree)

section Beside

variable {q : Request} {name : String} {l : Location}

theorem inArchive_beside {locator : Locator} {a : Archive} {path base entry : String}
    (hentry : EntryName.normalize? (Locator.joinNames base path) = some entry)
    (hhas : a.hasEntry entry = true) : locator.inArchive a path base = some entry := by
  unfold Locator.inArchive Locator.entryCandidates
  simp only [hentry, List.cons_append, List.filterMap_cons, id_eq, List.find?_cons_of_pos hhas]

theorem onDisk_beside {locator : Locator} {path : String} {base : Option String}
    (haccept : locator.accept (locator.besideCandidate path base) = .ok true) :
    locator.onDisk path base = .ok (some (locator.besideCandidate path base)) := by
  unfold Locator.onDisk
  rw [List.cons_append, List.cons_append]
  unfold Locator.firstAccepted
  rw [haccept]
  rfl

-- What is beside the root document is found first.
theorem locate_beside (hword : IsWord name) (h : q.beside? name = some l) :
    q.context.locator.locate (fileName name) q.scope.base = .ok l := by
  have hne : fileName name ≠ "" := by
    intro hempty
    have hlist := congrArg String.toList hempty
    rw [toList_fileName] at hlist
    simp at hlist
  unfold Locator.locate
  rw [sanitize_fileName hword]
  dsimp only
  rw [if_neg hne, namesFile_fileName]
  unfold Request.beside? at h
  dsimp only at h
  cases ha : q.context.locator.archive with
  | some a =>
      rw [ha] at h
      dsimp only at h
      obtain ⟨entry, hentry, h⟩ := Option.bind_eq_some_iff.mp h
      split at h
      · next hhas =>
        dsimp only
        rw [inArchive_beside hentry hhas, ← Option.some.inj h]
        rfl
      · cases h
  | none =>
      rw [ha] at h
      dsimp only at h
      split at h
      · next haccept =>
        rw [onDisk_beside haccept, ← Option.some.inj h]
        rfl
      · cases h

theorem isPart_fileName (h : IsWord name) : IsPart (fileName name) := by
  have hlong (s : String) (hs : s.toList.length < 5) : fileName name ≠ s := by
    intro heq
    have hlist := congrArg (fun t => t.toList.length) heq
    rw [toList_fileName] at hlist
    simp at hlist hs
    omega
  exact ⟨hlong "" (by decide), hlong "." (by decide), hlong ".." (by decide),
    not_mem_fileName h (by decide) (by decide)⟩

-- The file is named by the last part of its key.
theorem baseName_locationKey (hword : IsWord name) {p : FilePath} (hp : p.EndsIn (fileName name)) :
    baseName (locationKey q.tree ⟨p.text, none⟩).toList = (fileName name).toList := by
  have hpart := isPart_fileName hword
  refine baseName_text ?_ hpart
  exact (endsIn_ofText (baseName_text hp hpart) hpart).absolute hpart q.tree.cwd

theorem endsIn_besideCandidate (hword : IsWord name) (locator : Locator) (base : Option String) :
    (locator.besideCandidate (fileName name) base).EndsIn (fileName name) := by
  have hpart := isPart_fileName hword
  have hfile : (ofText (fileName name)).EndsIn (fileName name) :=
    endsIn_ofText (baseName_of_not_mem hpart.plain) hpart
  exact (hfile.join _).normalize hpart

-- Dropping characters in front leaves something that ends in a slash, or nothing.
theorem exists_dropWhile_append {p : Char → Bool} {front cs : List Char}
    (hfront : ∀ c ∈ front.getLast?, c = '/') (hcs : cs.dropWhile p = cs) :
    ∃ front', (front ++ cs).dropWhile p = front' ++ cs ∧ ∀ c ∈ front'.getLast?, c = '/' := by
  rw [List.dropWhile_append]
  split
  · exact ⟨[], by rw [hcs, List.nil_append], fun c hc => by cases hc⟩
  · next hrest =>
    refine ⟨front.dropWhile p, rfl, fun c hc => hfront c ?_⟩
    have hparts := List.takeWhile_append_dropWhile (p := p) (l := front)
    rw [← hparts, List.getLast?_append, hc, Option.some_or]
    rfl

theorem exists_joinNames (hword : IsWord name) (base : String) :
    ∃ front, (Locator.joinNames base (fileName name)).toList = front ++ (fileName name).toList ∧
      ∀ c ∈ front.getLast?, c = '/' := by
  have hstart : startsWith (fileName name).toList ['/'] = false := by
    have hslash := (isPart_fileName hword).plain
    unfold startsWith
    cases hlist : (fileName name).toList with
    | nil => rfl
    | cons c rest =>
        have hne : c ≠ '/' := fun heq => hslash (hlist ▸ heq ▸ List.mem_cons_self)
        simp [List.isPrefixOf, Ne.symm hne]
  unfold Locator.joinNames
  rw [hstart]
  simp only [Bool.false_eq_true, if_false]
  split
  · next hbase =>
    refine ⟨base.toList, String.toList_append, fun c hc => ?_⟩
    rcases Bool.or_eq_true_iff.mp hbase with hempty | hends
    · rw [of_decide_eq_true hempty] at hc
      cases hc
    · obtain ⟨init, hinit⟩ := List.isSuffixOf_iff_suffix.mp hends
      rw [← hinit, List.getLast?_concat] at hc
      exact (Option.some.inj hc).symm
  · refine ⟨base.toList ++ ['/'], ?_, fun c hc => ?_⟩
    · rw [String.toList_append, String.toList_append]
      rfl
    · rw [List.getLast?_concat] at hc
      exact (Option.some.inj hc).symm

theorem exists_replaceChar {front cs : List Char} (hfront : ∀ c ∈ front.getLast?, c = '/')
    (hcs : '\\' ∉ cs) :
    ∃ front', replaceChar '\\' '/' (front ++ cs) = front' ++ cs ∧ ∀ c ∈ front'.getLast?, c = '/' := by
  refine ⟨replaceChar '\\' '/' front, ?_, fun c hc => ?_⟩
  · calc replaceChar '\\' '/' (front ++ cs)
        = replaceChar '\\' '/' front ++ replaceChar '\\' '/' cs := List.map_append
      _ = replaceChar '\\' '/' front ++ cs := by rw [replaceChar_eq_self hcs]
  · unfold replaceChar at hc
    rw [List.getLast?_map] at hc
    obtain ⟨last, hlast, rfl⟩ := Option.map_eq_some_iff.mp hc
    rw [hfront last hlast]
    rfl

theorem exists_trim_append {front cs : List Char} (hfront : ∀ c ∈ front.getLast?, c = '/')
    (hcs : ∀ c ∈ cs, isBlank c = false) (hne : cs ≠ []) :
    ∃ front', trim (front ++ cs) = front' ++ cs ∧ ∀ c ∈ front'.getLast?, c = '/' := by
  obtain ⟨front', hdrop, hends⟩ := exists_dropWhile_append hfront
    (dropWhile_eq_self fun c hc => hcs c (List.mem_of_mem_head? hc))
  have hlast : ∀ c ∈ (front' ++ cs).reverse.head?, isBlank c = false := by
    rw [List.head?_reverse, List.getLast?_append, Option.or_of_isSome (by simpa using hne)]
    exact fun c hc => hcs c (List.mem_of_getLast? hc)
  refine ⟨front', ?_, hends⟩
  unfold trim trimBoth
  rw [hdrop, dropWhile_eq_self hlast, List.reverse_reverse]

-- No step of cleaning reaches the last part.
theorem exists_clean (hword : IsWord name) (base : String) :
    ∃ front, EntryName.clean (Locator.joinNames base (fileName name)) =
      front ++ (fileName name).toList ∧ ∀ c ∈ front.getLast?, c = '/' := by
  have hne : (fileName name).toList ≠ [] := by
    rw [toList_fileName]
    exact List.append_ne_nil_of_right_ne_nil _ (List.cons_ne_nil _ _)
  have hslash : ∀ c ∈ (fileName name).toList.head?, (c == '/') = false := fun c hc =>
    beq_false_of_ne fun heq => (isPart_fileName hword).plain (heq ▸ List.mem_of_mem_head? hc)
  obtain ⟨front, hjoin, hfront⟩ := exists_joinNames hword base
  obtain ⟨front₁, hreplaced, hfront₁⟩ := exists_replaceChar hfront
    (not_mem_fileName hword (by decide) (by decide))
  obtain ⟨front₂, htrimmed, hfront₂⟩ := exists_trim_append hfront₁
    (fun _ hc => not_isBlank_of_mem_fileName hword hc) hne
  obtain ⟨front₃, hdropped, hfront₃⟩ := exists_dropWhile_append hfront₂ (dropWhile_eq_self hslash)
  refine ⟨front₃, ?_, hfront₃⟩
  unfold EntryName.clean
  rw [hjoin, hreplaced, htrimmed, hdropped]

-- An entry is named by the last part of its name.
theorem baseName_normalize? (hword : IsWord name) {base entry : String}
    (h : EntryName.normalize? (Locator.joinNames base (fileName name)) = some entry) :
    baseName entry.toList = (fileName name).toList := by
  have hpart := isPart_fileName hword
  obtain ⟨front', hcs, hends⟩ := exists_clean hword base
  unfold EntryName.normalize? at h
  rw [hcs] at h
  dsimp only at h
  split at h
  · cases h
  · split at h
    · cases h
    · cases h
      obtain ⟨ps, hps⟩ := exists_names_eq (baseName_append hends hpart.plain) hpart
      refine baseName_text ⟨collapse false ps, ?_⟩ hpart
      rw [hps, collapse_concat hpart]

-- An entry of the archive, or a file of that name.
theorem beside?_cases (hword : IsWord name) (h : q.beside? name = some l) :
    (∃ a entry, q.context.locator.archive = some a ∧ l = ⟨entry, some a.path⟩ ∧
        baseName entry.toList = (fileName name).toList) ∨
      q.context.locator.archive = none ∧ ∃ p : FilePath, l = ⟨p.text, none⟩ ∧ p.EndsIn (fileName name) := by
  unfold Request.beside? at h
  dsimp only at h
  cases ha : q.context.locator.archive with
  | some a =>
      rw [ha] at h
      obtain ⟨entry, hentry, h⟩ := Option.bind_eq_some_iff.mp h
      split at h
      · exact .inl ⟨a, entry, rfl, (Option.some.inj h).symm, baseName_normalize? hword hentry⟩
      · cases h
  | none =>
      rw [ha] at h
      dsimp only at h
      split at h
      · exact .inr ⟨rfl, _, (Option.some.inj h).symm, endsIn_besideCandidate hword _ _⟩
      · cases h

theorem fileKey?_inj {name' key : String} (hword : IsWord name) (hword' : IsWord name')
    (h : q.fileKey? name = some key) (h' : q.fileKey? name' = some key) : name = name' := by
  obtain ⟨l, hl, hkey⟩ := Option.map_eq_some_iff.mp h
  obtain ⟨l', hl', hkey'⟩ := Option.map_eq_some_iff.mp h'
  have hsame : locationKey q.tree l = locationKey q.tree l' := hkey.trans hkey'.symm
  have hfile : (fileName name).toList = (fileName name').toList := by
    rcases beside?_cases hword hl with ⟨a, entry, ha, rfl, hentry⟩ | ⟨ha, p, rfl, hp⟩
    · rcases beside?_cases hword' hl' with ⟨a', entry', ha', rfl, hentry'⟩ | ⟨ha', -⟩
      · obtain rfl : a = a' := Option.some.inj (ha.symm.trans ha')
        -- The keys start with the path of the archive.
        have hlist := congrArg String.toList hsame
        simp only [locationKey, toString, String.toList_append] at hlist
        rw [← hentry, ← hentry', List.append_cancel_left hlist]
      · rw [ha] at ha'
        cases ha'
    · rcases beside?_cases hword' hl' with ⟨a', _, ha', -⟩ | ⟨-, p', rfl, hp'⟩
      · rw [ha] at ha'
        cases ha'
      · rw [← baseName_locationKey hword hp, ← baseName_locationKey hword' hp', hsame]
  rw [toList_fileName, toList_fileName] at hfile
  exact String.toList_inj.mp (List.append_cancel_right hfile)

end Beside

end ApiGraph.Resolve
