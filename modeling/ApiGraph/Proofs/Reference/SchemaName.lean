import ApiGraph.Proofs.Reference.Segments
import Mathlib.Data.List.TakeWhile

namespace ApiGraph.Text

theorem splitOn_append_cons_sep (sep : Char) (cs ds : List Char) :
    splitOn sep (cs ++ sep :: ds) = splitOn sep cs ++ splitOn sep ds := by
  induction cs with
  | nil => simp [splitOn]
  | cons c rest ih =>
      by_cases hc : c = sep
      · subst hc
        simp [splitOn, ih]
      · cases hs : splitOn sep rest with
        | nil => exact absurd hs (splitOn_ne_nil _ _)
        | cons piece pieces => simp [splitOn, hc, ih, hs]

end ApiGraph.Text

namespace ApiGraph.Reference

open ApiGraph.Text

section BaseName

variable {cs : List Char}

theorem not_mem_baseName (cs : List Char) : '/' ∉ baseName cs := by
  unfold baseName
  rw [List.mem_reverse]
  intro hin
  simpa using List.mem_takeWhile_imp hin

-- What follows the last slash is the last piece.
theorem getLast?_splitOn (cs : List Char) : (splitOn '/' cs).getLast? = some (baseName cs) := by
  have hparts := congrArg List.reverse (List.takeWhile_append_dropWhile (p := (· != '/')) (l := cs.reverse))
  rw [List.reverse_append, List.reverse_reverse] at hparts
  change _ ++ baseName cs = cs at hparts
  cases hrest : cs.reverse.dropWhile (· != '/') with
  | nil =>
      rw [hrest, List.reverse_nil, List.nil_append] at hparts
      have hnone : '/' ∉ cs := hparts ▸ not_mem_baseName cs
      rw [splitOn_of_not_mem hnone, hparts]
      rfl
  | cons c rest =>
      have hc : c = '/' := by
        have hhead := head_dropWhile (· != '/') cs.reverse c (by rw [hrest]; rfl)
        simpa using hhead
      subst hc
      rw [hrest, List.reverse_cons, List.append_assoc, List.singleton_append] at hparts
      rw [← hparts, splitOn_append_cons_sep, splitOn_of_not_mem (not_mem_baseName _), hparts]
      simp

theorem baseName_of_not_mem (h : '/' ∉ cs) : baseName cs = cs := by
  have hall : cs.reverse.takeWhile (· != '/') = cs.reverse := by
    rw [List.takeWhile_eq_self_iff]
    intro c hc
    have hne : c ≠ '/' := fun heq => h (heq ▸ List.mem_reverse.mp hc)
    simpa using hne
  unfold baseName
  rw [hall, List.reverse_reverse]

theorem length_baseName_le (cs : List Char) : (baseName cs).length ≤ cs.length := by
  unfold baseName
  rw [List.length_reverse]
  exact Nat.le_trans (List.takeWhile_sublist _).length_le (Nat.le_of_eq List.length_reverse)

end BaseName

-- The text without the slashes that end it.
def dropSlashes (cs : List Char) : List Char := (cs.reverse.dropWhile (· == '/')).reverse

-- What is read back for a name.
def readBack? (name : String) : Option String :=
  let body := dropSlashes name.toList
  if body.isEmpty then none else some (String.ofList (unescape (baseName body)))

section ReadBack

variable {name kind pointer : String} {cs piece : List Char}

theorem length_dropSlashes_le (cs : List Char) : (dropSlashes cs).length ≤ cs.length := by
  unfold dropSlashes
  rw [List.length_reverse]
  exact Nat.le_trans (List.dropWhile_sublist _).length_le (Nat.le_of_eq List.length_reverse)

theorem dropSlashes_of_not_mem (h : '/' ∉ cs) : dropSlashes cs = cs := by
  unfold dropSlashes
  cases hr : cs.reverse with
  | nil => simpa using hr
  | cons c rest =>
      have hc : c ≠ '/' := by
        intro heq
        exact h (List.mem_reverse.mp (hr ▸ heq ▸ List.mem_cons_self))
      rw [List.dropWhile_cons_of_neg (by simpa using hc), ← hr, List.reverse_reverse]

theorem dropSlashes_append (as : List Char) :
    dropSlashes (as ++ cs) = if (dropSlashes cs).isEmpty then dropSlashes as else as ++ dropSlashes cs := by
  unfold dropSlashes
  rw [List.reverse_append, List.dropWhile_append]
  cases hd : cs.reverse.dropWhile (· == '/') with
  | nil => simp
  | cons c rest => simp

theorem stripChar_eq_dropSlashes (cs : List Char) :
    stripChar '/' cs = dropSlashes (cs.dropWhile (· == '/')) := rfl

-- The segments of a pointer behind its first slash.
def segmentsBehind (cs : List Char) : List String :=
  if (dropSlashes cs).isEmpty then []
  else (splitOn '/' (dropSlashes cs)).map fun cs => String.ofList (unescape cs)

theorem segments_eq_segmentsBehind (h : pointer.toList = '/' :: cs) (hhead : cs.head? ≠ some '/') :
    segments pointer = segmentsBehind cs := by
  have hdrop : cs.dropWhile (· == '/') = cs := by
    cases cs with
    | nil => rfl
    | cons c rest =>
        have hc : c ≠ '/' := fun heq => hhead (congrArg some heq)
        exact List.dropWhile_cons_of_neg (by simpa using hc)
  unfold segments segmentsBehind
  rw [h, stripChar_cons_self, stripChar_eq_dropSlashes, hdrop]

theorem segmentsBehind_append_cons (hslash : '/' ∉ piece) (hne : piece ≠ []) (cs : List Char) :
    segmentsBehind (piece ++ '/' :: cs) = String.ofList (unescape piece) :: segmentsBehind cs := by
  have hsplit : piece ++ '/' :: cs = piece ++ ['/'] ++ cs := by simp
  unfold segmentsBehind
  rw [hsplit, dropSlashes_append]
  cases hempty : (dropSlashes cs).isEmpty with
  | true =>
      have hpiece : dropSlashes (piece ++ ['/']) = piece := by
        rw [dropSlashes_append, dropSlashes_of_not_mem hslash]
        rfl
      rw [if_pos rfl, hpiece, if_neg (by simpa using hne), splitOn_of_not_mem hslash]
      rfl
  | false =>
      have hrest : piece ++ ['/'] ++ dropSlashes cs = piece ++ '/' :: dropSlashes cs := by simp
      simp only [Bool.false_eq_true, if_false]
      rw [hrest, if_neg (by simp), splitOn_append_cons hslash, List.map_cons]

theorem segmentsBehind_of_isPlain (hplain : IsPlain name) (hne : name ≠ "") :
    segmentsBehind name.toList = [name] := by
  obtain ⟨hslash, hescape⟩ := hplain
  unfold segmentsBehind
  rw [dropSlashes_of_not_mem hslash, splitOn_of_not_mem hslash, List.map_singleton, hescape,
    String.ofList_toList, if_neg (by simpa using hne)]

-- The first segment is the whole text only if nothing is lost on the way.
theorem isPlain_of_head?_segmentsBehind (h : (segmentsBehind name.toList).head? = some name) :
    IsPlain name ∧ name ≠ "" := by
  unfold segmentsBehind at h
  split at h
  next => cases h
  next hne =>
    rw [List.head?_map] at h
    obtain ⟨piece, hpiece, rfl⟩ := Option.map_eq_some_iff.mp h
    rw [String.toList_ofList] at hpiece hne
    have hlength := length_head?_splitOn_le hpiece
    have hdrop := length_dropSlashes_le (unescape piece)
    have hsame : unescape piece = piece := unescape_eq_self (by omega)
    refine ⟨⟨?_, ?_⟩, fun hnil => ?_⟩
    · rw [String.toList_ofList, hsame]
      exact not_mem_of_mem_splitOn _ _ _ (List.mem_of_mem_head? hpiece)
    · rw [String.toList_ofList, hsame, hsame]
    · rw [String.ofList_eq_empty_iff.mp hnil] at hne
      exact hne rfl

-- A pointer into a section of the components.
theorem segments_component (hplain : IsPlain kind) (hne : kind ≠ "")
    (h : pointer.toList = '/' :: ("components".toList ++ '/' :: (kind.toList ++ '/' :: cs))) :
    segments pointer = "components" :: kind :: segmentsBehind cs := by
  obtain ⟨hslash, hescape⟩ := hplain
  rw [segments_eq_segmentsBehind h (by simp), segmentsBehind_append_cons (by decide) (by decide),
    segmentsBehind_append_cons hslash (by simpa using hne), hescape, String.ofList_toList]
  rfl

theorem readBack?_eq (name : String) :
    readBack? name = (segmentsBehind name.toList).getLast?.filter (· != "") := by
  unfold readBack? segmentsBehind
  dsimp only
  split
  next => rfl
  next hempty =>
    have hne : dropSlashes name.toList ≠ [] := by simpa using hempty
    -- The text does not end in a slash, so something follows the last one.
    have hbase : baseName (dropSlashes name.toList) ≠ [] := by
      intro hnil
      refine @getLast?_splitOn_ne '/' _ hne ?_ (by rw [getLast?_splitOn, hnil])
      rw [dropSlashes, List.getLast?_reverse]
      intro hhead
      have hsep := head_dropWhile (· == '/') _ '/' hhead
      cases hsep
    have hname : String.ofList (unescape (baseName (dropSlashes name.toList))) ≠ "" := by
      intro hnil
      exact unescape_ne_nil hbase (by simpa using congrArg String.toList hnil)
    rw [List.getLast?_map, getLast?_splitOn, Option.map_some, Option.filter_some,
      if_pos (bne_iff_ne.mpr hname)]

theorem schemaName?_schemaPointer (name : String) :
    schemaName? (schemaPointer ++ name) = readBack? name := by
  have hcut : (cutFirst '#' (schemaPointer ++ name).toList).2 =
      '/' :: ("components".toList ++ '/' :: ("schemas".toList ++ '/' :: name.toList)) := by
    rw [String.toList_append]
    rfl
  unfold schemaName?
  rw [segments_component (by decide) (by decide) (String.toList_ofList.trans hcut), readBack?_eq]
  cases segmentsBehind name.toList <;> rfl

-- A name is read back as it is if reading it as part of a pointer gives it back.
theorem readBack?_eq_self_iff : readBack? name = some name ↔ IsPlain name ∧ name ≠ "" := by
  unfold readBack?
  dsimp only
  constructor
  · intro h
    split at h
    · cases h
    · next hne =>
      have hsame : unescape (baseName (dropSlashes name.toList)) = name.toList := by
        simpa using congrArg String.toList (Option.some.inj h)
      have hdrop := length_dropSlashes_le name.toList
      have hbase := length_baseName_le (dropSlashes name.toList)
      have hread := length_unescape_le (baseName (dropSlashes name.toList))
      rw [hsame] at hread
      -- Nothing is lost on the way, so each step leaves the text as it is.
      have hdecoded : unescape (baseName (dropSlashes name.toList)) = baseName (dropSlashes name.toList) :=
        unescape_eq_self (by rw [hsame]; omega)
      rw [hsame] at hdecoded
      have hplain : '/' ∉ name.toList := hdecoded ▸ not_mem_baseName _
      refine ⟨⟨hplain, ?_⟩, fun hempty => ?_⟩
      · rwa [← hdecoded] at hsame
      · rw [hempty] at hne
        exact hne rfl
  · rintro ⟨⟨hslash, hescape⟩, hne⟩
    have hlist : name.toList ≠ [] := fun hnil => hne (String.toList_inj.mp (by rw [hnil]; rfl))
    rw [dropSlashes_of_not_mem hslash, baseName_of_not_mem hslash, hescape, String.ofList_toList,
      if_neg (by simpa using hlist)]

end ReadBack

example : readBack? "Pet" = some "Pet" ∧ readBack? "a/b~0" = some "b~" ∧ readBack? "/" = none := by
  decide

end ApiGraph.Reference
