namespace ApiGraph.Text

-- The pieces between the separators; there is always one more piece than separators.
def splitOn (sep : Char) : List Char → List (List Char)
  | [] => [[]]
  | c :: rest =>
      if c = sep then [] :: splitOn sep rest
      else match splitOn sep rest with
        | [] => [[c]]
        | piece :: pieces => (c :: piece) :: pieces

def join (sep : Char) : List (List Char) → List Char
  | [] => []
  | [piece] => piece
  | piece :: pieces => piece ++ sep :: join sep pieces

-- What stands before the first separator and what stands after it; nothing if there is none.
def cutFirst (sep : Char) (cs : List Char) : List Char × List Char :=
  (cs.takeWhile (· != sep), (cs.dropWhile (· != sep)).drop 1)

def replaceChar (old new : Char) (cs : List Char) : List Char :=
  cs.map fun c => if c = old then new else c

-- Drops the separators at both ends.
def stripChar (sep : Char) (cs : List Char) : List Char :=
  ((cs.dropWhile (· == sep)).reverse.dropWhile (· == sep)).reverse

def endsWith (cs tail : List Char) : Bool := tail.isSuffixOf cs

def startsWith (cs head : List Char) : Bool := head.isPrefixOf cs

-- Whether the part stands somewhere in the text.
def occursIn (part : List Char) : List Char → Bool
  | [] => part.isEmpty
  | c :: rest => part.isPrefixOf (c :: rest) || occursIn part rest

theorem splitOn_ne_nil (sep : Char) (cs : List Char) : splitOn sep cs ≠ [] := by
  cases cs with
  | nil => simp [splitOn]
  | cons c rest =>
      simp only [splitOn]
      split
      · simp
      · split <;> simp

-- No separator is lost and none is invented.
theorem join_splitOn (sep : Char) (cs : List Char) : join sep (splitOn sep cs) = cs := by
  induction cs with
  | nil => rfl
  | cons c rest ih =>
      simp only [splitOn]
      split
      next h =>
        subst h
        cases hs : splitOn c rest with
        | nil => exact absurd hs (splitOn_ne_nil _ _)
        | cons p ps => rw [hs] at ih; simp [join, ih]
      next h =>
        cases hs : splitOn sep rest with
        | nil => exact absurd hs (splitOn_ne_nil _ _)
        | cons p ps =>
            rw [hs] at ih
            cases ps with
            | nil => simp only [join] at ih ⊢; rw [ih]
            | cons q qs => simp only [join] at ih ⊢; simp [ih]

theorem not_mem_of_mem_splitOn (sep : Char) (cs : List Char) :
    ∀ piece ∈ splitOn sep cs, sep ∉ piece := by
  induction cs with
  | nil => simp [splitOn]
  | cons c rest ih =>
      simp only [splitOn]
      split
      next => simpa using ih
      next h =>
        cases hs : splitOn sep rest with
        | nil => exact absurd hs (splitOn_ne_nil _ _)
        | cons p ps =>
            rw [hs] at ih
            intro piece hp
            rcases List.mem_cons.1 hp with rfl | hp
            · have := ih p (by simp)
              simp [this, Ne.symm h]
            · exact ih piece (by simp [hp])

end ApiGraph.Text
