import ApiGraph.Locator
import ApiGraph.Proofs.Reference.SchemaName

namespace ApiGraph.Reference

open ApiGraph.Text

def isWordChar (c : Char) : Bool := c.isAlphanum || c == '_' || c == '-'

-- Letters, digits, underscores and hyphens.
def IsWord (name : String) : Prop := ∀ c ∈ name.toList, isWordChar c = true

instance (name : String) : Decidable (IsWord name) :=
  decidable_of_iff (name.toList.all isWordChar = true) List.all_eq_true

-- The file of the component.
def fileName (name : String) : String := name ++ ".yaml"

section Word

variable {c : Char} {cs : List Char} {name : String}

theorem isWordChar_cases (h : isWordChar c = true) :
    (48 ≤ c.toNat ∧ c.toNat ≤ 57) ∨ (65 ≤ c.toNat ∧ c.toNat ≤ 90) ∨ (97 ≤ c.toNat ∧ c.toNat ≤ 122) ∨
      c.toNat = 95 ∨ c.toNat = 45 := by
  unfold isWordChar Char.isAlphanum Char.isAlpha Char.isUpper Char.isLower Char.isDigit at h
  simp only [Bool.or_eq_true, Bool.and_eq_true, decide_eq_true_eq, beq_iff_eq, UInt32.le_iff_toNat_le,
    Char.reduceVal, ge_iff_le] at h
  rcases h with (((h | h) | h) | rfl) | rfl
  · exact .inr (.inl h)
  · exact .inr (.inr (.inl h))
  · exact .inl h
  · exact .inr (.inr (.inr (.inl rfl)))
  · exact .inr (.inr (.inr (.inr rfl)))

theorem not_isBlank_of_isWordChar (h : isWordChar c = true) : isBlank c = false := by
  have hcases := isWordChar_cases h
  simp only [isBlank, Bool.or_eq_false_iff, Bool.and_eq_false_iff, decide_eq_false_iff_not,
    beq_eq_false_iff_ne]
  omega

theorem toList_fileName (name : String) :
    (fileName name).toList = name.toList ++ ['.', 'y', 'a', 'm', 'l'] := String.toList_append

-- A character that is in no word and not in the ending is in no such name.
theorem not_mem_fileName (h : IsWord name) (hc : isWordChar c = false) (hdot : c ≠ '.') :
    c ∉ (fileName name).toList := by
  rw [toList_fileName, List.mem_append, not_or]
  refine ⟨fun hin => ?_, fun hin => ?_⟩
  · rw [h c hin] at hc
    cases hc
  · simp only [List.mem_cons, List.not_mem_nil, or_false] at hin
    rcases hin with rfl | rfl | rfl | rfl | rfl
    · exact hdot rfl
    all_goals cases hc

theorem not_isBlank_of_mem_fileName (h : IsWord name) (hc : c ∈ (fileName name).toList) :
    isBlank c = false := by
  rw [toList_fileName, List.mem_append] at hc
  rcases hc with hin | hin
  · exact not_isBlank_of_isWordChar (h c hin)
  · simp only [List.mem_cons, List.not_mem_nil, or_false] at hin
    rcases hin with rfl | rfl | rfl | rfl | rfl <;> decide

theorem trim_fileName (h : IsWord name) : trim (fileName name).toList = (fileName name).toList :=
  trimBoth_eq_self fun _ hc => not_isBlank_of_mem_fileName h hc

theorem replaceChar_eq_self {new : Char} (h : c ∉ cs) : replaceChar c new cs = cs := by
  have hsame : ∀ x ∈ cs, (if x = c then new else x) = x := by
    intro x hx
    rw [if_neg]
    rintro rfl
    exact h hx
  unfold replaceChar
  rw [List.map_congr_left hsame, List.map_id']

end Word

section FileName

variable {name : String}

theorem split_fileName (h : IsWord name) : split (fileName name) = (fileName name, "") := by
  have hhash : '#' ∉ (fileName name).toList := not_mem_fileName h (by decide) (by decide)
  have hslash : '\\' ∉ (fileName name).toList := not_mem_fileName h (by decide) (by decide)
  have hcut : cutFirst '#' (fileName name).toList = ((fileName name).toList, []) := by
    have hall : ∀ c ∈ (fileName name).toList, (c != '#') = true := by
      intro c hc
      simpa using fun heq : c = '#' => hhash (heq ▸ hc)
    unfold cutFirst
    rw [List.takeWhile_eq_self_iff.mpr hall, List.dropWhile_eq_nil_iff.mpr hall]
    rfl
  unfold split
  rw [hcut]
  dsimp only
  rw [trim_fileName h, replaceChar_eq_self hslash,
    String.ofList_toList]

theorem filePart_fileName (h : IsWord name) : filePart (fileName name) = fileName name := by
  rw [filePart, split_fileName h]

theorem pointerPart_fileName (h : IsWord name) : pointerPart (fileName name) = "" := by
  rw [pointerPart, split_fileName h]

theorem hasEnding_fileName (name : String) : hasEnding (fileName name).toList ".yaml" = true := by
  unfold hasEnding endsWith
  rw [toList_fileName, List.map_append]
  exact List.isSuffixOf_iff_suffix.mpr (List.suffix_append _ _)

theorem namesFile_fileName (name : String) : namesFile (fileName name).toList = true := by
  unfold namesFile fileEndings
  rw [List.any_cons, hasEnding_fileName, Bool.true_or]

theorem isExternal_fileName (h : IsWord name) : isExternal (fileName name) = true := by
  unfold isExternal
  rw [filePart_fileName h]
  dsimp only
  rw [namesFile_fileName, toList_fileName]
  simp

theorem fileStem?_fileName (h : IsWord name) (hne : name ≠ "") :
    fileStem? (fileName name) = some name := by
  have hslash : '/' ∉ (fileName name).toList := not_mem_fileName h (by decide) (by decide)
  have hlist : name.toList ≠ [] := fun hnil => hne (String.toList_inj.mp (by rw [hnil]; rfl))
  unfold fileStem? fileEndings
  rw [filePart_fileName h, baseName_of_not_mem hslash]
  dsimp only
  rw [List.find?_cons, hasEnding_fileName, toList_fileName]
  have hlength : ".yaml".length = 5 := rfl
  simp [hlist, hlength]

theorem sanitize_fileName (h : IsWord name) : Locator.sanitize (fileName name) = fileName name := by
  have hnull : '\x00' ∉ (fileName name).toList := not_mem_fileName h (by decide) (by decide)
  have hslash : '\\' ∉ (fileName name).toList := not_mem_fileName h (by decide) (by decide)
  have hfilter : (fileName name).toList.filter (· != '\x00') = (fileName name).toList := by
    rw [List.filter_eq_self]
    intro c hc
    simpa using fun heq : c = '\x00' => hnull (heq ▸ hc)
  unfold Locator.sanitize
  rw [hfilter, trim_fileName h, replaceChar_eq_self hslash,
    String.ofList_toList]

-- A word is read back from the reference to its component.
theorem schemaName?_of_isWord (h : IsWord name) (hne : name ≠ "") :
    schemaName? (schemaPointer ++ name) = some name := by
  rw [schemaName?_schemaPointer, readBack?_eq_self_iff]
  have hslash : '/' ∉ name.toList := fun hin => by cases h _ hin
  have htilde : '~' ∉ name.toList := fun hin => by cases h _ hin
  exact ⟨⟨hslash, unescape_of_not_mem htilde⟩, hne⟩

end FileName

end ApiGraph.Reference
