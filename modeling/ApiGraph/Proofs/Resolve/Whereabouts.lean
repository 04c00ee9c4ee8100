import ApiGraph.Proofs.Resolve.Completeness
import ApiGraph.Proofs.Resolve.History

namespace ApiGraph.Resolve

open Store Reference

section Whereabouts

variable (c : Context) (root : Scope) (s : Store) (files : List (String × NodeId)) (h : History)

-- The file at the location is loaded under the key.
def Keyed (key : String) (l : Location) : Prop :=
  locationKey c.locator.tree l = key ∧ l.archive = c.locator.archive.map Archive.path

-- The scope of the root document, or of a file that is known.
def IsScope (scope : Scope) : Prop :=
  scope = root ∨ ∃ d key l, scope = scopeOf c d key l ∧ Keyed c key l ∧ Known files h key d

-- The reference names nothing in the document, but a component of another file.
def Lent (d : NodeId) (ref : String) (x : NodeId) : Prop :=
  (∀ v, Reference.resolve (after c s h) (.node d)
      (joinSegments (segments (pointerPart ref))) ≠ .ok v) ∧
    ∃ kind name key d', component? (segments (pointerPart ref)) = some (kind, name) ∧
      Known files h key d' ∧ d' ≠ d ∧ componentIn? (after c s h) d' kind name = some x

-- Where the walk of a scope comes to.
inductive Within (scope : Scope) : NodeId → Prop
  | document : Within scope scope.document
  | lent {x node : NodeId} {key ref : String} {e : History} (hkey : scope.key = some key)
      (hlent : Lent c s files e scope.document ref x)
      (hf : e ++ [.follow ⟨targetText key ref, node⟩ x false] <+: h) : Within scope x
  | child {b x : NodeId} {e : History} (hb : Within scope b) (he : e <+: h)
      (hx : .node x ∈ (after c s e).children b) : Within scope x

-- The walk comes to the container, in the scope of some file.
def Comes (id : NodeId) : Prop :=
  ∃ scope, IsScope c root files h scope ∧ Within c s files h scope id

-- The walk of a scope comes to a mapping with an internal reference that is still to be settled.
structure Encounters (scope : Scope) (node : NodeId) (ref : String) : Prop where
  isScope : IsScope c root files h scope
  within : Within c s files h scope node
  pending : pendingRef? (after c s h) ((after c s h).entries node) = some ref
  internal : isInternal ref = true

-- A file besides the root document that has the component.
def Supplies (kind name : String) (target : NodeId) : Prop :=
  ∃ key d, Known files h key d ∧ d ≠ c.document ∧
    componentIn? (after c s h) d kind name = some target

-- No file besides the root document has the component.
def Lacks (kind name : String) : Prop :=
  ∀ key d, Known files h key d → d ≠ c.document → componentIn? (after c s h) d kind name = none

-- The document has the component, or it has not and another file has.
def Offers (d : NodeId) (kind name : String) (target : NodeId) : Prop :=
  componentIn? (after c s h) d kind name = some target ∨
    componentIn? (after c s h) d kind name = none ∧ Supplies c s files h kind name target

-- What gives rise to a look-up, to a component in the root document or to a mark.
inductive Occasion : Deed → Prop
  | look {scope : Scope} {node : NodeId} (ref : String) (hscope : IsScope c root files h scope)
      (hwithin : Within c s files h scope node) : Occasion (.look node ref scope.base)
  | register {e : History} {node target : NodeId} {ref name : String}
      (hinlined : h = e ++ [.inline node target ref (some name)]) :
      Occasion (.bind "schemas" name target)
  | adopt {scope : Scope} {node target : NodeId} {ref kind name : String}
      (hmet : Encounters c root s files h scope node ref) (hfile : scope.isRoot = false)
      (hcomponent : component? (segments (pointerPart ref)) = some (kind, name))
      (hfree : isBound c (after c s h) kind name = false)
      (hoffers : Offers c s files h scope.document kind name target) :
      Occasion (.bind kind name target)
  -- A reference of the root document that would dangle.
  | rescue {e : History} {scope : Scope} {node target : NodeId} {ref kind name : String}
      (he : e <+: h) (hmet : Encounters c root s files e scope node ref) (hroot : scope.isRoot = true)
      (hcomponent : component? (segments (pointerPart ref)) = some (kind, name))
      (hsupplies : Supplies c s files h kind name target) : Occasion (.bind kind name target)
  | mark {node : NodeId} {ref : String} (name : Option String) (hpending : Pending c s h node ref) :
      Occasion (.mark node ref name)
  | other {d : Deed} (hevent : ∀ node ref base, d ≠ .look node ref base)
      (hbind : ∀ kind name target, d ≠ .bind kind name target)
      (hmark : ∀ node ref name, d ≠ .mark node ref name) : Occasion d

-- What became of a reference that was met in a file: its component is in the root document, or it was
-- found nowhere.
def Answered (scope : Scope) (ref : String) (k : History) : Prop :=
  ∀ kind name, component? (segments (pointerPart ref)) = some (kind, name) →
    isBound c (after c s h) kind name = true ∨
      (∃ target, h ++ [.bind kind name target] <+: k) ∨
      componentIn? (after c s h) scope.document kind name = none ∧ Lacks c s files h kind name

-- An internal reference is passed by for its mark, or it is kept for the end of the walk, or it is
-- dealt with where it is met.
def Consulted (rootRefs : List String) (id : NodeId) (ref : String) : Prop :=
  Passed c s h id ∨ ref ∈ rootRefs ∨
    ∃ e scope, e <+: h ∧ Encounters c root s files e scope id ref ∧ scope.isRoot = false ∧
      Answered c s files e scope ref h

end Whereabouts

section Mono

variable {c : Context} {root : Scope} {s : Store} {files : List (String × NodeId)}
  {h h' : History} {scope : Scope} {id : NodeId} {ref : String}

theorem Known.mono {key : String} {d : NodeId} (hk : Known files h key d) (hpre : h <+: h') :
    Known files h' key d := by
  refine (List.mem_append.mp hk).elim (List.mem_append_left _) fun hin => ?_
  exact List.mem_append_right _ ((hpre.sublist.filterMap Deed.file?).subset hin)

theorem occasion_inline (node target : NodeId) (name : Option String) :
    Occasion c root s files h (.inline node target ref name) :=
  .other (by simp) (by simp) (by simp)

theorem Passed.mono (hp : Passed c s h id) (hpre : h <+: h') : Passed c s h' id := by
  obtain ⟨e, v, he, hv⟩ := hp
  exact ⟨e, v, he.trans hpre, hv⟩

theorem IsScope.mono (hs : IsScope c root files h scope) (hpre : h <+: h') :
    IsScope c root files h' scope := by
  refine hs.imp_right fun hfile => ?_
  obtain ⟨d, key, l, heq, hkeyed, hknown⟩ := hfile
  exact ⟨d, key, l, heq, hkeyed, hknown.mono hpre⟩

theorem Within.mono (hw : Within c s files h scope id) (hpre : h <+: h') :
    Within c s files h' scope id := by
  induction hw with
  | document => exact .document
  | lent hkey hlent hf => exact .lent hkey hlent (hf.trans hpre)
  | child _ he hx ih => exact .child ih (he.trans hpre) hx

theorem Comes.mono (hc : Comes c root s files h id) (hpre : h <+: h') :
    Comes c root s files h' id := by
  obtain ⟨scope, hscope, hwithin⟩ := hc
  exact ⟨scope, hscope.mono hpre, hwithin.mono hpre⟩

theorem Answered.mono {k k' : History} (ha : Answered c s files h scope ref k) (hpre : k <+: k') :
    Answered c s files h scope ref k' := by
  intro kind name hcomponent
  refine (ha kind name hcomponent).imp_right fun hrest => hrest.imp_left fun hbound => ?_
  obtain ⟨target, hbind⟩ := hbound
  exact ⟨target, hbind.trans hpre⟩

theorem Consulted.mono {rootRefs rootRefs' : List String}
    (hc : Consulted c root s files h rootRefs id ref) (hpre : h <+: h')
    (hrefs : rootRefs ⊆ rootRefs') : Consulted c root s files h' rootRefs' id ref := by
  rcases hc with hpassed | hin | ⟨e, scope, he, hmet, hfile, hanswered⟩
  · exact .inl (hpassed.mono hpre)
  · exact .inr (.inl (hrefs hin))
  · exact .inr (.inr ⟨e, scope, he.trans hpre, hmet, hfile, hanswered.mono hpre⟩)

-- All that can be reached from a container at some moment.
theorem Within.reach {b : NodeId} {e : History} (hw : Within c s files h scope b) (he : e <+: h)
    (hreach : (after c s e).Reach b id) : Within c s files h scope id := by
  induction hreach with
  | refl => exact hw
  | step _ hx ih => exact .child ih he hx

end Mono

-- What is found is an entry of the archive, or a file on disk where there is none.
theorem archive_of_locate {locator : Locator} {ref : String} {base : Option String} {l : Location}
    (hl : locator.locate ref base = .ok l) : l.archive = locator.archive.map Archive.path := by
  unfold Locator.locate at hl
  dsimp only at hl
  by_cases hempty : Locator.sanitize ref = ""
  · rw [if_pos hempty] at hl
    cases hl
  rw [if_neg hempty] at hl
  by_cases hending : (!Reference.namesFile (Locator.sanitize ref).toList) = true
  · rw [if_pos hending] at hl
    cases hl
  rw [if_neg hending] at hl
  cases harchive : locator.archive with
  | some a =>
      rw [harchive] at hl
      dsimp only at hl
      cases hname : locator.inArchive a (Locator.sanitize ref) (base.getD "") with
      | none =>
          rw [hname] at hl
          cases hl
      | some name =>
          rw [hname] at hl
          cases hl
          rfl
  | none =>
      rw [harchive] at hl
      dsimp only at hl
      cases hdisk : locator.onDisk (Locator.sanitize ref) base with
      | error e =>
          rw [hdisk] at hl
          cases hl
      | ok p? =>
          rw [hdisk] at hl
          cases p? with
          | none => cases hl
          | some p =>
              cases hl
              rfl

end ApiGraph.Resolve
