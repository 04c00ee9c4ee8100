import ApiGraph.Reference.Target
import ApiGraph.Text.Blank

namespace ApiGraph.Text

variable {sep : Char} {cs piece : List Char} {pieces : List (List Char)}

theorem join_cons_of_ne_nil (piece : List Char) (h : pieces ≠ []) :
    join sep (piece :: pieces) = piece ++ sep :: join sep pieces := by
  cases pieces with
  | nil => exact absurd rfl h
  | cons _ _ => rfl

theorem join_concat (piece : List Char) (h : pieces ≠ []) :
    join sep (pieces ++ [piece]) = join sep pieces ++ sep :: piece := by
  induction pieces with
  | nil => exact absurd rfl h
  | cons first rest ih =>
      cases rest with
      | nil => rfl
      | cons second rest =>
          rw [List.cons_append, join_cons_of_ne_nil first (by simp), ih (by simp),
            join_cons_of_ne_nil first (List.cons_ne_nil second rest)]
          simp

theorem intercalate_eq_join (sep : Char) (pieces : List (List Char)) :
    List.intercalate [sep] pieces = join sep pieces := by
  induction pieces with
  | nil => rfl
  | cons piece rest ih =>
      cases rest with
      | nil => simp [join]
      | cons second rest =>
          rw [List.intercalate_cons_cons, ih,
            join_cons_of_ne_nil piece (List.cons_ne_nil second rest)]
          simp

theorem join_ne_nil (hne : pieces ≠ []) (hfirst : pieces.head? ≠ some []) :
    join sep pieces ≠ [] := by
  cases pieces with
  | nil => exact absurd rfl hne
  | cons piece rest =>
      cases rest with
      | nil => simpa [join] using hfirst
      | cons second rest => simp [join]

theorem length_join (sep : Char) (h : pieces ≠ []) :
    (join sep pieces).length + 1 = pieces.flatten.length + pieces.length := by
  induction pieces with
  | nil => exact absurd rfl h
  | cons piece rest ih =>
      cases rest with
      | nil => simp [join]
      | cons second rest =>
          have hrest := ih (by simp)
          rw [join_cons_of_ne_nil _ (by simp), List.length_append, List.length_cons, List.flatten_cons,
            List.length_append, List.length_cons]
          omega

theorem length_head?_splitOn_le (h : (splitOn sep cs).head? = some piece) : piece.length ≤ cs.length := by
  obtain ⟨rest, hsplit⟩ := List.head?_eq_some_iff.mp h
  have hlength := length_join sep (splitOn_ne_nil sep cs)
  rw [join_splitOn, hsplit, List.flatten_cons, List.length_append, List.length_cons] at hlength
  omega

theorem splitOn_of_not_mem (h : sep ∉ cs) : splitOn sep cs = [cs] := by
  induction cs with
  | nil => rfl
  | cons c rest ih =>
      obtain ⟨hc, hrest⟩ : sep ≠ c ∧ sep ∉ rest := by simpa using h
      simp [splitOn, Ne.symm hc, ih hrest]

theorem splitOn_append_cons (h : sep ∉ piece) (cs : List Char) :
    splitOn sep (piece ++ sep :: cs) = piece :: splitOn sep cs := by
  induction piece with
  | nil => simp [splitOn]
  | cons c rest ih =>
      obtain ⟨hc, hrest⟩ : sep ≠ c ∧ sep ∉ rest := by simpa using h
      simp [splitOn, Ne.symm hc, ih hrest]

-- Pieces without a separator are found again.
theorem splitOn_join (hne : pieces ≠ []) (h : ∀ piece ∈ pieces, sep ∉ piece) :
    splitOn sep (join sep pieces) = pieces := by
  induction pieces with
  | nil => exact absurd rfl hne
  | cons piece rest ih =>
      have hpiece := h piece List.mem_cons_self
      cases rest with
      | nil => exact splitOn_of_not_mem hpiece
      | cons second rest =>
          rw [join_cons_of_ne_nil _ (by simp), splitOn_append_cons hpiece,
            ih (by simp) fun p hp => h p (List.mem_cons_of_mem _ hp)]

theorem trimBoth_sublist (p : Char → Bool) (cs : List Char) : (trimBoth p cs).Sublist cs := by
  have hback := (List.dropWhile_sublist (l := (cs.dropWhile p).reverse) p).reverse
  rw [List.reverse_reverse] at hback
  exact hback.trans (List.dropWhile_sublist _)

theorem stripChar_sublist (sep : Char) (cs : List Char) : (stripChar sep cs).Sublist cs :=
  trimBoth_sublist (· == sep) cs

theorem stripChar_cons_self (sep : Char) (cs : List Char) :
    stripChar sep (sep :: cs) = stripChar sep cs := by
  simp [stripChar]

-- Separators at the ends come from empty pieces at the ends, and from nowhere else.
theorem head?_join_ne (h : ∀ piece ∈ pieces, sep ∉ piece) (hfirst : pieces.head? ≠ some []) :
    (join sep pieces).head? ≠ some sep := by
  cases pieces with
  | nil => simp [join]
  | cons piece rest =>
      cases piece with
      | nil => exact absurd rfl hfirst
      | cons c cs =>
          have hc : c ≠ sep := fun hc => h _ List.mem_cons_self (by simp [hc])
          cases rest with
          | nil => simpa [join] using hc
          | cons second rest => simpa [join] using hc

theorem getLast?_join_ne (h : ∀ piece ∈ pieces, sep ∉ piece) (hlast : pieces.getLast? ≠ some []) :
    (join sep pieces).getLast? ≠ some sep := by
  rcases List.eq_nil_or_concat pieces with rfl | ⟨init, piece, rfl⟩
  · simp [join]
  · have hpiece : piece ≠ [] := by simpa using hlast
    have hsep : piece.getLast? ≠ some sep := fun hl =>
      h piece (by simp) (List.mem_of_getLast? hl)
    rcases List.eq_nil_or_concat piece with rfl | ⟨cs, c, rfl⟩
    · exact absurd rfl hpiece
    · cases init with
      | nil => simpa [join] using hsep
      | cons first rest =>
          rw [List.concat_eq_append, join_concat _ (List.cons_ne_nil first rest)]
          simpa [List.getLast?_append, List.getLast?_cons] using hsep

theorem head?_splitOn_ne (hne : cs ≠ []) (hhead : cs.head? ≠ some sep) :
    (splitOn sep cs).head? ≠ some [] := by
  intro hfirst
  have hjoin := join_splitOn sep cs
  cases hs : splitOn sep cs with
  | nil => exact splitOn_ne_nil sep cs hs
  | cons piece rest =>
      rw [hs] at hfirst hjoin
      obtain rfl : piece = [] := Option.some.inj hfirst
      cases rest with
      | nil => exact hne hjoin.symm
      | cons second rest => exact hhead (by rw [← hjoin]; rfl)

theorem getLast?_splitOn_ne (hne : cs ≠ []) (hlast : cs.getLast? ≠ some sep) :
    (splitOn sep cs).getLast? ≠ some [] := by
  intro hend
  have hjoin := join_splitOn sep cs
  rcases List.eq_nil_or_concat (splitOn sep cs) with hs | ⟨init, piece, hs⟩
  · exact splitOn_ne_nil sep cs hs
  · rw [List.concat_eq_append] at hs
    rw [hs] at hend hjoin
    obtain rfl : piece = [] := by simpa using hend
    cases init with
    | nil => exact hne hjoin.symm
    | cons first rest =>
        rw [join_concat _ (List.cons_ne_nil first rest)] at hjoin
        exact hlast (by rw [← hjoin]; simp)

theorem stripChar_of_ends (hhead : cs.head? ≠ some sep) (hlast : cs.getLast? ≠ some sep) :
    stripChar sep cs = cs := by
  have hdrop {l : List Char} (hl : l.head? ≠ some sep) : l.dropWhile (· == sep) = l := by
    cases l with
    | nil => rfl
    | cons c rest =>
        have hc : c ≠ sep := by simpa using hl
        simp [hc]
  unfold stripChar
  rw [hdrop hhead, hdrop (by rwa [List.head?_reverse]), List.reverse_reverse]

theorem head?_stripChar_ne (sep : Char) (cs : List Char) : (stripChar sep cs).head? ≠ some sep := by
  have hprefix : (stripChar sep cs) <+: cs.dropWhile (· == sep) := by
    have hsuffix := List.dropWhile_suffix (l := (cs.dropWhile (· == sep)).reverse) (· == sep)
    rw [← List.reverse_prefix, List.reverse_reverse] at hsuffix
    exact hsuffix
  intro hhead
  obtain ⟨rest, hrest⟩ := hprefix
  have hdrop : (cs.dropWhile (· == sep)).head? = some sep := by
    rw [← hrest, List.head?_append, hhead, Option.some_or]
  have hsep := head_dropWhile (· == sep) cs sep hdrop
  rw [BEq.rfl] at hsep
  cases hsep

theorem getLast?_stripChar_ne (sep : Char) (cs : List Char) :
    (stripChar sep cs).getLast? ≠ some sep := by
  unfold stripChar
  rw [List.getLast?_reverse]
  intro hhead
  have hsep := head_dropWhile (· == sep) _ sep hhead
  rw [BEq.rfl] at hsep
  cases hsep

end ApiGraph.Text

namespace ApiGraph.Reference

open ApiGraph.Text

-- Reading the segment as part of a pointer gives the segment back.
def IsPlain (segment : String) : Prop :=
  '/' ∉ segment.toList ∧ unescape segment.toList = segment.toList

instance (segment : String) : Decidable (IsPlain segment) :=
  inferInstanceAs (Decidable (_ ∧ _))

example : IsPlain "a~b" ∧ ¬IsPlain "/pets" ∧ ¬IsPlain "a~0b" := by decide

section Unescape

variable {cs : List Char} {pieces : List (List Char)}

theorem length_unescape_le (cs : List Char) : (unescape cs).length ≤ cs.length := by
  fun_induction unescape cs with
  | case1 => exact Nat.le_refl _
  | case2 rest ih =>
      simp only [List.length_cons]
      omega
  | case3 rest ih =>
      simp only [List.length_cons]
      omega
  | case4 c rest _ _ ih => simpa using ih

theorem unescape_of_not_mem (h : '~' ∉ cs) : unescape cs = cs := by
  fun_induction unescape cs with
  | case1 => rfl
  | case2 rest _ => exact absurd List.mem_cons_self h
  | case3 rest _ => exact absurd List.mem_cons_self h
  | case4 c rest _ _ ih => rw [ih fun hin => h (List.mem_cons_of_mem c hin)]

-- Every escape that is decoded makes the text shorter.
theorem unescape_eq_self (h : cs.length ≤ (unescape cs).length) : unescape cs = cs := by
  fun_induction unescape cs with
  | case1 => rfl
  | case2 rest ih =>
      have := length_unescape_le rest
      simp only [List.length_cons] at h
      omega
  | case3 rest ih =>
      have := length_unescape_le rest
      simp only [List.length_cons] at h
      omega
  | case4 c rest _ _ ih => rw [ih (by simpa using h)]

theorem unescape_ne_nil (h : cs ≠ []) : unescape cs ≠ [] := by
  fun_cases unescape cs with
  | case1 => exact absurd rfl h
  | case2 rest => simp
  | case3 rest => simp
  | case4 c rest _ _ => simp

theorem map_unescape_ne {piece? : Option (List Char)} (h : piece? ≠ some []) :
    piece?.map unescape ≠ some [] := by
  cases piece? with
  | none => simp
  | some piece => simpa using unescape_ne_nil (by simpa using h)

theorem length_flatten_map_unescape_le (pieces : List (List Char)) :
    (pieces.map unescape).flatten.length ≤ pieces.flatten.length := by
  induction pieces with
  | nil => exact Nat.le_refl _
  | cons piece rest ih =>
      have := length_unescape_le piece
      simp only [List.map_cons, List.flatten_cons, List.length_append]
      omega

theorem map_unescape_eq_self
    (h : pieces.flatten.length ≤ (pieces.map unescape).flatten.length) :
    pieces.map unescape = pieces := by
  induction pieces with
  | nil => rfl
  | cons piece rest ih =>
      have hpiece := length_unescape_le piece
      have hrest := length_flatten_map_unescape_le rest
      simp only [List.map_cons, List.flatten_cons, List.length_append] at h
      rw [List.map_cons, unescape_eq_self (by omega), ih (by omega)]

end Unescape

section Segments

variable {pointer : String} {path : List String}

-- The pieces of a pointer between its slashes, as they are written.
def pieces (pointer : String) : List (List Char) :=
  let body := stripChar '/' pointer.toList
  if body.isEmpty then [] else splitOn '/' body

theorem toList_segments (pointer : String) :
    (segments pointer).map String.toList = (pieces pointer).map unescape := by
  unfold segments pieces
  dsimp only
  split
  · rfl
  · simp [Function.comp_def]

theorem toList_joinSegments (path : List String) :
    (joinSegments path).toList = '/' :: join '/' (path.map String.toList) := by
  simp [joinSegments, String.toList_intercalate, intercalate_eq_join]

theorem not_mem_of_mem_pieces {piece : List Char} (h : piece ∈ pieces pointer) : '/' ∉ piece := by
  unfold pieces at h
  dsimp only at h
  split at h
  · cases h
  · exact not_mem_of_mem_splitOn _ _ _ h

theorem head?_pieces_ne (pointer : String) : (pieces pointer).head? ≠ some [] := by
  unfold pieces
  dsimp only
  split
  · simp
  next h => exact head?_splitOn_ne (by simpa using h) (head?_stripChar_ne _ _)

theorem getLast?_pieces_ne (pointer : String) : (pieces pointer).getLast? ≠ some [] := by
  unfold pieces
  dsimp only
  split
  · simp
  next h => exact getLast?_splitOn_ne (by simpa using h) (getLast?_stripChar_ne _ _)

-- Pieces that were joined are found again if the first and the last one are not empty.
theorem pieces_eq {l : List (List Char)} (hsep : ∀ piece ∈ l, '/' ∉ piece)
    (hfirst : l.head? ≠ some []) (hlast : l.getLast? ≠ some [])
    (h : stripChar '/' pointer.toList = stripChar '/' (join '/' l)) : pieces pointer = l := by
  unfold pieces
  rw [h, stripChar_of_ends (head?_join_ne hsep hfirst) (getLast?_join_ne hsep hlast)]
  dsimp only
  by_cases hne : l = []
  · subst hne
    rfl
  · rw [if_neg (by simpa using join_ne_nil hne hfirst), splitOn_join hne hsep]

theorem length_pieces_le (hpath : path ≠ []) :
    (pieces (joinSegments path)).flatten.length + (pieces (joinSegments path)).length ≤
      (path.map String.toList).flatten.length + path.length := by
  unfold pieces
  rw [toList_joinSegments, stripChar_cons_self]
  dsimp only
  split
  · simp
  · have hjoin : path.map String.toList ≠ [] := by simpa using hpath
    generalize hcs : path.map String.toList = cs at hjoin
    have hsplit := length_join '/' (splitOn_ne_nil '/' (stripChar '/' (join '/' cs)))
    have hlength := length_join '/' hjoin
    have hstrip := (stripChar_sublist '/' (join '/' cs)).length_le
    have hcount : cs.length = path.length := by rw [← hcs, List.length_map]
    rw [join_splitOn] at hsplit
    omega

-- Where the segments are found again, no slash was dropped and no escape was decoded.
theorem isPlain_of_segments_joinSegments (h : segments (joinSegments path) = path) :
    ∀ segment ∈ path, IsPlain segment := by
  by_cases hne : path = []
  · simp [hne]
  have hlist := toList_segments (joinSegments path)
  rw [h] at hlist
  have hcount : (pieces (joinSegments path)).length = path.length := by
    simpa using (congrArg List.length hlist).symm
  have hlength := length_pieces_le hne
  rw [hlist, hcount] at hlength
  have hsame : (pieces (joinSegments path)).map unescape = pieces (joinSegments path) :=
    map_unescape_eq_self (by omega)
  rw [hsame] at hlist
  intro segment hsegment
  have hmem : segment.toList ∈ pieces (joinSegments path) := by
    rw [← hlist]
    exact List.mem_map_of_mem hsegment
  constructor
  · exact not_mem_of_mem_pieces hmem
  · exact List.map_inj_left.mp (hsame.trans (List.map_id _).symm) _ hmem

-- The first and the last segment are not empty, so the slashes around them are found again.
theorem segments_joinSegments (h : ∀ segment ∈ segments pointer, IsPlain segment) :
    segments (joinSegments (segments pointer)) = segments pointer := by
  have hlist := toList_segments pointer
  have hsep : ∀ piece ∈ (segments pointer).map String.toList, '/' ∉ piece := by
    intro piece hpiece
    obtain ⟨segment, hsegment, rfl⟩ := List.mem_map.mp hpiece
    exact (h segment hsegment).1
  have hfirst : ((segments pointer).map String.toList).head? ≠ some [] := by
    rw [hlist, List.head?_map]
    exact map_unescape_ne (head?_pieces_ne pointer)
  have hlast : ((segments pointer).map String.toList).getLast? ≠ some [] := by
    rw [hlist, List.getLast?_map]
    exact map_unescape_ne (getLast?_pieces_ne pointer)
  have hpieces : pieces (joinSegments (segments pointer)) = (segments pointer).map String.toList :=
    pieces_eq hsep hfirst hlast (by rw [toList_joinSegments, stripChar_cons_self])
  have hsame : ((segments pointer).map String.toList).map unescape =
      (segments pointer).map String.toList := by
    rw [List.map_map]
    exact List.map_congr_left fun segment hsegment => (h segment hsegment).2
  refine (List.map_inj_right fun _ _ => String.toList_inj.mp).mp ?_
  rw [toList_segments, hpieces, hsame]

end Segments

end ApiGraph.Reference
