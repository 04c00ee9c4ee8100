import ApiGraph.Proofs.Archive.EntryName
import ApiGraph.Proofs.Reference.FileName

namespace ApiGraph.EntryName

open ApiGraph.Text ApiGraph.FilePath

variable {s : String}

theorem clean_of_trim (hs : IsNormal s) (htrim : trim s.toList = s.toList) : clean s = s.toList := by
  unfold clean
  rw [Reference.replaceChar_eq_self hs.forward, htrim]
  cases hlist : s.toList with
  | nil => rfl
  | cons c rest =>
      have hc : c ≠ '/' := by
        have hstart := hs.start
        rw [hlist] at hstart
        simpa using hstart
      exact List.dropWhile_cons_of_neg (by simpa using hc)

-- White space at the ends is taken away, and a normal form is left as it is in all else.
theorem normalize?_eq_self_iff (hs : IsNormal s) :
    normalize? s = some s ↔ trim s.toList = s.toList := by
  constructor
  · intro h
    rcases normalized_sublist h with rfl | hsublist
    · decide
    · have htrim : (clean s).Sublist (trim s.toList) := by
        unfold clean
        rw [Reference.replaceChar_eq_self hs.forward]
        exact List.dropWhile_sublist _
      exact (trimBoth_sublist isBlank s.toList).eq_of_length_le (hsublist.trans htrim).length_le
  · intro htrim
    rcases hs.down with rfl | hplain
    · decide
    have hclean := clean_of_trim hs htrim
    have hnames : names s.toList = (components s).map String.ofList :=
      names_eq_map fun piece hpiece => ⟨(hplain piece hpiece).1, (hplain piece hpiece).2.1⟩
    have hup : ".." ∉ names s.toList := by
      rw [hnames]
      intro hin
      obtain ⟨piece, hpiece, heq⟩ := List.mem_map.mp hin
      exact (hplain piece hpiece).ofList_ne heq
    have hne : s.toList ≠ [] := by
      intro hnil
      have hcomponents : components s = [[]] := by
        unfold components
        rw [hnil]
        rfl
      exact (hplain [] (by simp [hcomponents])).1 rfl
    have htext : text ⟨0, names s.toList⟩ = s := by
      rw [← String.toList_inj, toList_text, hnames, List.map_map]
      have hjoin : Text.join '/' ((components s).map (String.toList ∘ String.ofList)) = s.toList := by
        simpa [Function.comp_def, components] using join_splitOn '/' s.toList
      rw [hjoin, if_neg fun h => hne h.2]
      rfl
    unfold normalize?
    dsimp only
    rw [hclean, if_neg (by simpa using hne), collapse_eq_self hup,
      if_neg fun heq => hup (List.mem_of_head? heq), htext]

end ApiGraph.EntryName

namespace ApiGraph.Archive

open ApiGraph.Text

-- The entry is known by the name.
def isKnownAs (name : String) (e : StoredEntry) : Bool :=
  EntryName.normalize? e.name = some name && !isFolderName e.name

-- The entry that counts under the name: the last one that is known by it.
def stored? (entries : List StoredEntry) (name : String) : Option StoredEntry :=
  entries.reverse.find? (isKnownAs name)

-- What reading the entry gives, where it was asked for by the name.
def reading (a : Archive) (name : String) (e : StoredEntry) : Except ParseError String :=
  if a.entryLimit < e.content.size then .error (.entryTooLarge name e.content.size a.entryLimit)
  else if e.damaged && e.content.size != 0 then .error (.brokenEntry a.path.text name)
  else match Text.ofBytes? e.content with
    | some text => .ok text
    | none => .error (.undecodableEntry a.path.text name)

variable {a : Archive} {name : String} {e : StoredEntry} {entries : List StoredEntry} {path : FilePath}
  {entryLimit : Int}

theorem readText_of_get? (h : a.get? name = some e) : a.readText name = a.reading name e := by
  unfold readText reading
  rw [h]
  dsimp only
  split
  · rfl
  split
  · rfl
  · cases Text.ofBytes? e.content <;> rfl

theorem get?_addEntry (m : OrderedMap String StoredEntry) (e : StoredEntry) (name : String) :
    (addEntry m e).get? name = if isKnownAs name e then some e else m.get? name := by
  unfold addEntry isKnownAs
  cases hname : EntryName.normalize? e.name with
  | none => simp
  | some known =>
      cases hfolder : isFolderName e.name with
      | true => simp
      | false => simp [OrderedMap.get?_insert]

theorem get?_foldl_addEntry (m : OrderedMap String StoredEntry) (entries : List StoredEntry)
    (name : String) :
    (entries.foldl addEntry m).get? name = (stored? entries name).or (m.get? name) := by
  unfold stored?
  induction entries generalizing m with
  | nil => rfl
  | cons e rest ih =>
      rw [List.foldl_cons, ih, get?_addEntry, List.reverse_cons, List.find?_append, Option.or_assoc]
      congr 1
      by_cases he : isKnownAs name e <;> simp [he]

theorem get?_entries_ofEntries (path : FilePath) (entryLimit : Int) (entries : List StoredEntry)
    (name : String) : (ofEntries path entryLimit entries).entries.get? name = stored? entries name := by
  unfold ofEntries
  rw [get?_foldl_addEntry]
  exact Option.or_none

theorem normalize?_of_stored? (h : stored? entries name = some e) :
    EntryName.normalize? e.name = some name := by
  have hknown := List.find?_some h
  unfold isKnownAs at hknown
  simpa using (Bool.and_eq_true_iff.mp hknown).1

theorem exists_stored_of_listed (h : name ∈ (ofEntries path entryLimit entries).entryNames) :
    ∃ e, stored? entries name = some e := by
  unfold entryNames at h
  rw [List.mem_mergeSort] at h
  obtain ⟨⟨_, e⟩, hentry, rfl⟩ := List.mem_map.mp h
  refine ⟨e, ?_⟩
  rw [← get?_entries_ofEntries path entryLimit]
  exact OrderedMap.get?_of_mem hentry

-- What is found under the name is the entry exactly if the name is a normal form of its own.
theorem get?_eq_stored_iff (path : FilePath) (entryLimit : Int) (h : stored? entries name = some e) :
    (ofEntries path entryLimit entries).get? name = some e ↔ EntryName.normalize? name = some name := by
  unfold get?
  rw [Option.bind_eq_bind, Option.bind_eq_some_iff]
  simp only [get?_entries_ofEntries]
  constructor
  · rintro ⟨found, hfound, hstored⟩
    have hsame := (normalize?_of_stored? hstored).symm.trans (normalize?_of_stored? h)
    rwa [Option.some.inj hsame] at hfound
  · exact fun hname => ⟨name, hname, h⟩

-- Under every listed name an entry is stored. It is found and read under that name exactly if the name has
-- no white space at its ends; these are the normal forms that stay as they are when made normal again.
theorem listed_found_iff (h : name ∈ (ofEntries path entryLimit entries).entryNames) :
    (∀ raw normal, EntryName.normalize? raw = some normal →
      (EntryName.normalize? normal = some normal ↔ trim normal.toList = normal.toList)) ∧
    ∃ e, stored? entries name = some e ∧
      ((ofEntries path entryLimit entries).get? name = some e ↔ trim name.toList = name.toList) ∧
      (trim name.toList = name.toList →
        (ofEntries path entryLimit entries).hasEntry name = true ∧
        (ofEntries path entryLimit entries).readText name =
          (ofEntries path entryLimit entries).reading name e) := by
  obtain ⟨e, he⟩ := exists_stored_of_listed h
  have hself := EntryName.normalize?_eq_self_iff
    (EntryName.isNormal_of_normalize? (normalize?_of_stored? he))
  have hget := (get?_eq_stored_iff path entryLimit he).trans hself
  refine ⟨fun _ _ hraw => EntryName.normalize?_eq_self_iff (EntryName.isNormal_of_normalize? hraw), e, he,
    hget, fun htrim => ⟨?_, readText_of_get? (hget.mpr htrim)⟩⟩
  unfold hasEntry
  rw [hget.mpr htrim]
  rfl

-- The white space of the second name is found only behind the dot.
def spaced : List StoredEntry :=
  [⟨"a.yaml", "x: 1".toUTF8, false⟩, ⟨"./ a.yaml", "x: 2".toUTF8, false⟩]

-- Both entries are listed, and the first one is found under both names.
theorem spaced_not_found :
    (∀ name ∈ ["a.yaml", " a.yaml"], name ∈ (ofEntries ⟨0, ["b.zip"]⟩ 100 spaced).entryNames) ∧
      (ofEntries ⟨0, ["b.zip"]⟩ 100 spaced).get? " a.yaml" = stored? spaced "a.yaml" ∧
      ∃ e, stored? spaced " a.yaml" = some e ∧
        (ofEntries ⟨0, ["b.zip"]⟩ 100 spaced).get? " a.yaml" ≠ some e := by
  have hlisted : ∀ name ∈ ["a.yaml", " a.yaml"],
      name ∈ (ofEntries ⟨0, ["b.zip"]⟩ 100 spaced).entryNames := by
    have hkeys : (ofEntries ⟨0, ["b.zip"]⟩ 100 spaced).entries.keys = ["a.yaml", " a.yaml"] := by decide
    unfold entryNames
    simp [hkeys]
  obtain ⟨-, e, he, hfound, -⟩ := listed_found_iff (hlisted " a.yaml" (by simp))
  exact ⟨hlisted, rfl, e, he, fun h => absurd (hfound.mp h) (by decide)⟩

end ApiGraph.Archive
