import ApiGraph.Config.Project
import ApiGraph.Proofs.Parsing.Json

namespace ApiGraph.Config

variable {t : FileTree} {directory : Option FilePath} {explicit environment : List String} {s : Store}
  {cs : List Char} {f : Fault}

-- The characters of the project file, where it is there and holds text.
def projectText? (t : FileTree) (directory : Option FilePath) : Option (List Char) :=
  ((t.file? (filePath t directory)).bind FileContent.text?).map fun text => Text.universalBreaks text.toList

-- The project file is there and holds no text.
def IsUndecodable (t : FileTree) (directory : Option FilePath) : Prop :=
  ∃ content, t.file? (filePath t directory) = some content ∧ content.text? = none

theorem parseFile_eq_fault_iff (path : FilePath) :
    parseFile path cs s = .error (.fault f) ↔ Json.read nestingAllowance cs s = .error (.fault f) := by
  unfold parseFile
  cases Json.read nestingAllowance cs s with
  | error e => cases e <;> simp [Except.mapError, bind, Except.bind]
  | ok r =>
      obtain ⟨v, s'⟩ := r
      simp only [Except.mapError, bind, Except.bind, reduceCtorEq, iff_false]
      split
      · exact fun h => nomatch h
      · exact fun h => nomatch h

theorem loadProject_of_missing (hfile : t.file? (filePath t directory) = none) :
    loadProject t directory s = .ok (none, s) := by
  unfold loadProject
  dsimp only
  rw [hfile]
  rfl

theorem loadProject_of_undecodable (h : IsUndecodable t directory) :
    loadProject t directory s = .error (.fault .undecodableBytes) := by
  obtain ⟨content, hfile, htext⟩ := h
  unfold loadProject
  dsimp only
  rw [hfile]
  dsimp only
  rw [htext]
  rfl

theorem loadProject_of_text (h : projectText? t directory = some cs) :
    loadProject t directory s =
      (parseFile (filePath t directory) cs s).map fun r => (some r.1, r.2) := by
  obtain ⟨text, hbind, rfl⟩ := Option.map_eq_some_iff.mp h
  obtain ⟨content, hfile, htext⟩ := Option.bind_eq_some_iff.mp hbind
  unfold loadProject
  dsimp only
  rw [hfile]
  dsimp only
  rw [htext]
  dsimp only
  cases parseFile (filePath t directory) (Text.universalBreaks text.toList) s <;> rfl

theorem file_cases (t : FileTree) (directory : Option FilePath) :
    t.file? (filePath t directory) = none ∨ IsUndecodable t directory ∨
      ∃ cs, projectText? t directory = some cs := by
  unfold IsUndecodable projectText?
  cases hfile : t.file? (filePath t directory) with
  | none => exact .inl rfl
  | some content =>
      cases htext : content.text? with
      | none => exact .inr (.inl ⟨content, rfl, htext⟩)
      | some text => exact .inr (.inr ⟨_, by rw [Option.bind_some, htext]; rfl⟩)

-- A fault is one of decoding or one of reading.
theorem loadProject_eq_fault_iff :
    loadProject t directory s = .error (.fault f) ↔
      f = .undecodableBytes ∧ IsUndecodable t directory ∨
        ∃ cs, projectText? t directory = some cs ∧ Json.read nestingAllowance cs s = .error (.fault f) := by
  constructor
  · intro h
    rcases file_cases t directory with hfile | hbytes | ⟨cs, htext⟩
    · rw [loadProject_of_missing hfile] at h
      cases h
    · rw [loadProject_of_undecodable hbytes] at h
      cases h
      exact .inl ⟨rfl, hbytes⟩
    · rw [loadProject_of_text htext] at h
      refine .inr ⟨cs, htext, (parseFile_eq_fault_iff (filePath t directory)).mp ?_⟩
      cases hparse : parseFile (filePath t directory) cs s with
      | error e =>
          rw [hparse] at h
          exact congrArg Except.error (Except.error.inj h)
      | ok r =>
          rw [hparse] at h
          cases h
  · rintro (⟨rfl, hbytes⟩ | ⟨cs, htext, hread⟩)
    · exact loadProject_of_undecodable hbytes
    · rw [loadProject_of_text htext, (parseFile_eq_fault_iff _).mpr hread]
      rfl

-- Everything else that is wrong is collected and announced.
theorem resolve_eq_fault_iff :
    resolve t directory explicit environment s = .error (.fault f) ↔
      loadProject t directory s = .error (.fault f) := by
  unfold resolve
  cases hload : loadProject t directory s with
  | error e => simp [bind, Except.bind]
  | ok r =>
      obtain ⟨project, s'⟩ := r
      simp only [bind, Except.bind, reduceCtorEq, iff_false]
      split
      · exact fun h => nomatch h
      · exact fun h => nomatch h

-- Reading the settings gives them or announces what is wrong, whatever the caller and the environment list,
-- unless the project file is no text, is nested too deep or has an integer in it that is too long. A file that
-- is no text is a fault, and so is one that is nothing but such an integer.
theorem resolve_outcome (t : FileTree) (directory : Option FilePath) (explicit : List String) (raw : String)
    (s : Store) :
    ((∃ g, resolve t directory explicit (environmentPaths raw) s = .ok g) ∨
      (∃ e, resolve t directory explicit (environmentPaths raw) s = .error (.announced e)) ∨
      resolve t directory explicit (environmentPaths raw) s = .error (.fault .stackExhausted) ∨
      resolve t directory explicit (environmentPaths raw) s = .error (.fault .undecodableBytes) ∧
        IsUndecodable t directory ∨
      resolve t directory explicit (environmentPaths raw) s = .error (.fault .unreadableLiteral) ∧
        ∃ cs, projectText? t directory = some cs ∧ Text.HasLongDigits cs) ∧
    (IsUndecodable t directory →
      resolve t directory explicit (environmentPaths raw) s = .error (.fault .undecodableBytes)) ∧
    ∀ cs, projectText? t directory = some cs → Json.IsLongInteger cs →
      resolve t directory explicit (environmentPaths raw) s = .error (.fault .unreadableLiteral) := by
  refine ⟨?_, fun hbytes => ?_, fun cs htext hlong => ?_⟩
  · cases hresolve : resolve t directory explicit (environmentPaths raw) s with
    | ok g => exact .inl ⟨g, rfl⟩
    | error e =>
        cases e with
        | announced e => exact .inr (.inl ⟨e, rfl⟩)
        | fault f =>
            have hload := resolve_eq_fault_iff.mp hresolve
            rcases loadProject_eq_fault_iff.mp hload with ⟨rfl, hbytes⟩ | ⟨cs, htext, hread⟩
            · exact .inr (.inr (.inr (.inl ⟨rfl, hbytes⟩)))
            · rcases Json.read_accounted hread f rfl with rfl | ⟨rfl, hlong⟩
              · exact .inr (.inr (.inl rfl))
              · exact .inr (.inr (.inr (.inr ⟨rfl, cs, htext, hlong⟩)))
  · exact resolve_eq_fault_iff.mpr (loadProject_of_undecodable hbytes)
  · exact resolve_eq_fault_iff.mpr (loadProject_eq_fault_iff.mpr
      (.inr ⟨cs, htext, Json.read_longInteger nestingAllowance s hlong⟩))

-- A directory with nothing but the project file.
def projectTree (content : ByteArray) : FileTree := ⟨.mk [(fileName, .bytes content)] .nil, .ofText "/"⟩

theorem file?_projectTree (content : ByteArray) :
    (projectTree content).file? (filePath (projectTree content) none) = some (.bytes content) := rfl

theorem universalBreaks_of_not_mem {cs : List Char} (h : '\r' ∉ cs) : Text.universalBreaks cs = cs := by
  fun_induction Text.universalBreaks cs with
  | case1 => rfl
  | case2 rest _ => exact absurd List.mem_cons_self h
  | case3 rest _ _ => exact absurd List.mem_cons_self h
  | case4 c rest _ _ ih => rw [ih fun hin => h (List.mem_cons_of_mem c hin)]

-- What was written as text is read as that text.
theorem projectText?_projectTree {cs : List Char} (h : '\r' ∉ cs) :
    projectText? (projectTree (String.ofList cs).toUTF8) none = some cs := by
  have htext : Text.ofBytes? (String.ofList cs).toUTF8 = some (String.ofList cs) :=
    dif_pos (String.ofList cs).isValidUTF8
  unfold projectText?
  rw [file?_projectTree, Option.bind_some, FileContent.text?, htext, Option.map_some, String.toList_ofList,
    universalBreaks_of_not_mem h]

theorem isUndecodable_projectTree : IsUndecodable (projectTree ⟨#[0xff]⟩) none :=
  ⟨_, file?_projectTree _, by decide +kernel⟩

theorem isLongInteger_replicate {n : Nat} (h : Text.maxDecimalDigits < n) :
    Json.IsLongInteger (List.replicate n '1') where
  digits c hc := by
    rw [List.eq_of_mem_replicate hc]
    rfl
  head := by
    rw [List.head?_replicate]
    split
    · exact fun h => nomatch h
    · decide
  length := by rwa [List.length_replicate]

-- A byte that starts no character, and an integer with one digit too many.
theorem projectTree_unannounced :
    resolve (projectTree ⟨#[0xff]⟩) none ["lib"] (environmentPaths "a:b") .empty =
        .error (.fault .undecodableBytes) ∧
      resolve (projectTree (String.ofList (List.replicate (Text.maxDecimalDigits + 1) '1')).toUTF8) none []
        (environmentPaths "") .empty = .error (.fault .unreadableLiteral) := by
  obtain ⟨-, hbytes, -⟩ := resolve_outcome (projectTree ⟨#[0xff]⟩) none ["lib"] "a:b" .empty
  obtain ⟨-, -, hlong⟩ := resolve_outcome
    (projectTree (String.ofList (List.replicate (Text.maxDecimalDigits + 1) '1')).toUTF8) none [] "" .empty
  have hplain : '\r' ∉ List.replicate (Text.maxDecimalDigits + 1) '1' := by
    intro hin
    cases List.eq_of_mem_replicate hin
  exact ⟨hbytes isUndecodable_projectTree,
    hlong _ (projectText?_projectTree hplain) (isLongInteger_replicate (Nat.lt_succ_self _))⟩

end ApiGraph.Config
