import ApiGraph.Proofs.Files.Position
import ApiGraph.Proofs.Resolve.Invariant
import ApiGraph.Proofs.Resolve.WalkRecording
import Mathlib.Data.List.Nodup

namespace ApiGraph.Resolve

open Store Reference

theorem locationKey_of_position? {t : FileTree} {path : String} {place : List String}
    (h : t.position? (.ofText path) = some place) :
    locationKey t ⟨path, none⟩ = (⟨1, place⟩ : FilePath).text := by
  unfold locationKey
  dsimp only
  rw [FileTree.absolute_of_position? h]

section Filed

variable {c : Context} {first : List String} {r : Run}

-- The documents are kept in the order in which their files were parsed, and the files are there.
structure Filed (c : Context) (first : List String) (r : Run) : Prop where
  keys : r.loaded.keys = first ++ (parsedFiles r.events).map fun path =>
    locationKey c.locator.tree ⟨path, none⟩
  there : ∀ path ∈ parsedFiles r.events, (c.locator.tree.position? (.ofText path)).isSome

theorem Filed.of_same {r' : Run} (h : Filed c first r) (hloaded : r'.loaded = r.loaded)
    (hparsed : parsedFiles r'.events = parsedFiles r.events) : Filed c first r' := by
  refine ⟨?_, ?_⟩
  · rw [hloaded, hparsed]
    exact h.keys
  · rw [hparsed]
    exact h.there

-- Nothing is read where nothing is.
theorem isSome_position?_of_parseFile {l : Location} {s s' : Store} {d : NodeId}
    (harchive : c.locator.archive = none) (hl : l.archive = none)
    (hparse : parseFile c l s = .ok (d, s')) :
    (c.locator.tree.position? (.ofText l.path)).isSome := by
  rw [FileTree.isSome_position?]
  unfold parseFile Location.load at hparse
  rw [harchive, hl] at hparse
  dsimp only at hparse
  unfold Location.loadFile at hparse
  cases hplace : c.locator.tree.place? (.ofText l.path) with
  | none =>
      rw [hplace] at hparse
      exact absurd hparse (by simp [throw, throwThe, MonadExceptOf.throw])
  | some place => rfl

-- One more document is kept, under a key that was free.
theorem Filed.load {l : Location} {ref : String} {base : Option String} {d : NodeId} {s : Store}
    (h : Filed c first r) (harchive : c.locator.archive = none)
    (hl : c.locator.locate ref base = .ok l)
    (hnew : r.loaded.get? (locationKey c.locator.tree l) = none)
    (hparse : parseFile c l r.store = .ok (d, s)) :
    Filed c first { r with
      store := s, loaded := r.loaded.insert (locationKey c.locator.tree l) d,
      events := r.events ++ [.loaded l.path] } := by
  obtain ⟨path, archive⟩ := l
  obtain rfl : archive = none := by
    rw [show archive = _ from archive_of_locate hl, harchive]
    rfl
  have hone : parsedFiles [.loaded path] = [path] := rfl
  refine ⟨?_, fun path' hin => ?_⟩
  · have hfree : r.loaded.contains (locationKey c.locator.tree ⟨path, none⟩) = false := by
      rw [OrderedMap.contains_eq_isSome_get?, hnew]
      rfl
    dsimp only
    rw [OrderedMap.keys_insert, if_neg (by simp [hfree]), h.keys, parsedFiles_append, hone,
      List.map_append, List.append_assoc]
    rfl
  · dsimp only at hin
    rw [parsedFiles_append, hone, List.mem_append, List.mem_singleton] at hin
    rcases hin with hin | rfl
    · exact h.there path' hin
    · exact isSome_position?_of_parseFile (l := ⟨path', none⟩) harchive rfl hparse

theorem invariant_filed (harchive : c.locator.archive = none) :
    Invariant c fun _ => Filed c first where
  steady _ _ _ hq h := h.of_same hq.loaded hq.parsed
  drop h := h
  onCount _ _ _ h := h.of_same rfl rfl
  onCountMore h := h.of_same rfl rfl
  onLimit _ h := h.of_same rfl (by simp [parsedFiles, parsed?])
  onMark h := h.of_same rfl (by simp [parsedFiles, parsed?])
  onVisit h := h.of_same rfl rfl
  onInline h := h.of_same rfl (by simp [parsedFiles, parsed?])
  onLoad hl hnew hparse h := h.load harchive hl hnew hparse

theorem filed_startRun (c : Context) (s : Store) (document : NodeId) (scope : Scope) :
    Filed c scope.key.toList (startRun s document scope) := by
  refine ⟨?_, fun path hin => by cases hin⟩
  unfold startRun
  cases scope.key <;> rfl

end Filed

section Call

variable {s : Store} {q : Request} {h : History}

-- Where the files are that a call parsed, as the log has them. A load counts only if it succeeds: a file
-- that is nested too deep for the parser is not kept, and it is read again at each reference to it.
def parsedPlaces (s : Store) (q : Request) : List (Option (List String)) :=
  (parsedFiles (references s q).events).map fun path => q.tree.position? (.ofText path)

-- Where the file of the root document is.
def Request.place? (q : Request) : Option (List String) :=
  q.source.bind fun src => q.tree.position? (.ofText src.pathText)

-- The document that is kept for the file at a place.
def documentAt? (s : Store) (q : Request) (place : List String) : Option NodeId :=
  (q.ending s).2.loaded.get? (⟨1, place⟩ : FilePath).text

-- The reference is followed into the document that is kept for its file: to the document itself, or to
-- what its pointer selects with it.
def Sees (s : Store) (q : Request) (h : History) (link : Link) (start : NodeId) (whole : Bool) : Prop :=
  ∃ ref base l d, .look link.node ref base ∈ h ∧
    q.context.locator.locate (filePart ref) base = .ok l ∧
    (∀ place, q.tree.position? (.ofText l.path) = some place → documentAt? s q place = some d) ∧
    if whole then start = d
    else (segments (pointerPart ref) = [] ∧ start = d) ∨
      Selected q.context s q.files h d (segments (pointerPart ref)) start

theorem Request.archive_context (hdisk : q.archive? = .ok none) : q.context.locator.archive = none := by
  unfold Request.context
  rw [hdisk]
  rfl

-- The root document is known by its own path.
theorem Request.files_of_place? (hdisk : q.archive? = .ok none) {place : List String}
    (hplace : q.place? = some place) :
    q.files = [((⟨1, place⟩ : FilePath).text, q.document)] ∧
      q.scope.key = some (⟨1, place⟩ : FilePath).text := by
  obtain ⟨src, hsrc, hposition⟩ := Option.bind_eq_some_iff.mp hplace
  have hkey : q.scope.key = some (⟨1, place⟩ : FilePath).text := by
    unfold Request.scope rootScope rootLocation?
    rw [hdisk, hsrc]
    exact congrArg some (locationKey_of_position? hposition)
  refine ⟨?_, hkey⟩
  unfold Request.files
  rw [hkey]
  rfl

theorem filed_ending (hdisk : q.archive? = .ok none) :
    Filed q.context q.scope.key.toList (q.ending s).2 :=
  ((invariant_filed (q.archive_context hdisk)).keeps_run q.scope _
    (filed_startRun q.context s q.document q.scope)).state

theorem nodup_keys (m : OrderedMap String NodeId) : m.keys.Nodup :=
  m.distinct.imp fun hne heq => by simp [heq] at hne

-- A reference is followed into the document that is known under the key of its file.
theorem sees_of_led (hr : Records q.context q.scope s q.files h (q.ending s).2) {pre : History}
    {link : Link} {start : NodeId} {whole : Bool} (hdisk : q.archive? = .ok none)
    (hpre : pre ++ [.follow link start whole] <+: h) : Sees s q pre link start whole := by
  cases (hr.lawful.of_prefix hpre).last with
  | follow hled =>
      obtain ⟨ref, key, d, -, ⟨base, l, hlook, hlocate, rfl⟩, -, hknown, hstart⟩ := hled
      refine ⟨ref, base, l, d, hlook, hlocate, fun place hplace => ?_, ?_⟩
      · obtain ⟨path, archive⟩ := l
        obtain rfl : archive = none := by
          rw [show archive = _ from archive_of_locate hlocate, q.archive_context hdisk]
          rfl
        have hin : (locationKey q.tree ⟨path, none⟩, d) ∈ (q.ending s).2.loaded.entries := by
          rw [hr.loaded]
          exact hknown.mono ((List.prefix_append pre _).trans hpre)
        rw [locationKey_of_position? hplace] at hin
        exact OrderedMap.get?_of_mem hin
      · split
        next hwhole =>
          rw [if_pos hwhole] at hstart
          exact hstart.2.1
        next hwhole =>
          rw [if_neg hwhole] at hstart
          exact hstart

-- Two spellings of one file, and one of the root document's own file.
def respelled : Store :=
  ⟨#[
    .ofFields [("a", .node 1), ("b", .node 2), ("c", .node 3), ("t", .node 4)],
    .ofFields [("$ref", .str "x/../f.json")],
    .ofFields [("$ref", .str "./f.json#/u")],
    .ofFields [("$ref", .str "..\\r.json#/t")],
    .ofFields [("type", .str "string")]]⟩

def respelledCall : Request :=
  let content := "\x7b\"u\":\x7b\"type\":\"object\"\x7d\x7d"
  ⟨0, some (.text "./r.json"), {}, [], [], none,
    ⟨.mk [("r.json", .bytes "".toUTF8), ("f.json", .bytes content.toUTF8)] .nil, ⟨1, []⟩⟩⟩

end Call

end ApiGraph.Resolve
