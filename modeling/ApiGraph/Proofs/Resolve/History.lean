import ApiGraph.Proofs.Resolve.Growth
import Mathlib.Data.List.Induction

namespace ApiGraph.Resolve

open Store Reference

inductive Deed where
  -- The section of the schemas is made before the walk.
  | prepare
  | load (key : String) (document : NodeId) (read : Store)
  | bind (kind name : String) (target : NodeId)
  | limit (l : SoftLimit)
  -- The file of the reference is looked up from a directory.
  | look (node : NodeId) (ref : String) (base : Option String)
  -- The walk goes on in the target of the reference, or in the whole file that was loaded for it.
  | follow (link : Link) (start : NodeId) (whole : Bool)
  | mark (node : NodeId) (ref : String) (name : Option String)
  | inline (node target : NodeId) (ref : String) (name : Option String)

abbrev History := List Deed

-- The store with the component bound in the document, unless the name is taken.
@[irreducible] def bound (s : Store) (document : NodeId) (kind name : String) (target : NodeId) : Store :=
  let place := s.ensureComponents document kind
  if (place.2.entries place.1).has name then place.2
  else place.2.put place.1 (.str name) (.node target)

-- The store with the content of the target in the place of the reference.
@[irreducible] def replaced (s : Store) (node target : NodeId) (name : Option String) : Store :=
  let own := (s.entries node).erase (.str refKey)
  let cleared := s.set node (.mapping .empty)
  cleared.set node (.mapping (inlinedContent (cleared.entries target) own name))

namespace Deed

def apply (document : NodeId) (s : Store) : Deed → Store
  | prepare => (s.ensureComponents document "schemas").2
  | load _ _ read => read
  | bind kind name target => bound s document kind name target
  | limit _ => s
  | look _ _ _ => s
  | follow _ _ _ => s
  | mark node _ name => s.set node (.mapping (markedContent (s.entries node) name))
  | inline node target _ name => replaced s node target name

-- The mapping whose reference is settled.
def settles? : Deed → Option NodeId
  | mark node _ _ => some node
  | inline node _ _ _ => some node
  | _ => none

def inlines? : Deed → Option NodeId
  | inline node _ _ _ => some node
  | _ => none

def file? : Deed → Option (String × NodeId)
  | load key document _ => some (key, document)
  | _ => none

def limit? : Deed → Option SoftLimit
  | limit l => some l
  | _ => none

-- Components are brought into the document.
def brings : Deed → Bool
  | prepare => true
  | bind _ _ _ => true
  | _ => false

-- What the log says about the reference.
def event? : Deed → Option Event
  | look node ref base => some (.lookedUp node ref base)
  | mark node ref _ => some (.circular node ref)
  | inline node target ref _ => some (.inlined node target ref)
  | _ => none

variable {d : Deed} {node target : NodeId} {ref : String}

theorem inlines?_eq_some (h : d.inlines? = some node) :
    ∃ target ref name, d = .inline node target ref name := by
  cases d <;> simp_all [inlines?]

theorem settles?_eq_some (h : d.settles? = some node) :
    (∃ ref name, d = .mark node ref name) ∨ d.inlines? = some node := by
  cases d <;> simp_all [settles?, inlines?]

theorem limit?_eq_some {l : SoftLimit} (h : d.limit? = some l) : d = .limit l := by
  cases d <;> simp_all [limit?]

theorem event?_eq_inlined (h : d.event? = some (.inlined node target ref)) :
    ∃ name, d = .inline node target ref name := by
  cases d <;> simp_all [event?]

theorem event?_eq_lookedUp {base : Option String} (h : d.event? = some (.lookedUp node ref base)) :
    d = .look node ref base := by
  cases d <;> simp_all [event?]

theorem event?_eq_circular (h : d.event? = some (.circular node ref)) :
    ∃ name, d = .mark node ref name := by
  cases d <;> simp_all [event?]

end Deed

-- The log says what is done to a reference.
def isOfReference : Event → Bool
  | .lookedUp _ _ _ => true
  | .circular _ _ => true
  | .inlined _ _ _ => true
  | _ => false

-- The component that the log says was bound.
def announced? : Event → Option (String × String)
  | .registered name _ => some ("schemas", name)
  | .adopted kind name => some (kind, name)
  | _ => none

-- The reference that the log says was inlined, and its target.
def inlining? : Event → Option (NodeId × NodeId)
  | .inlined node target _ => some (node, target)
  | _ => none

-- The store after the deeds.
def after (c : Context) (s : Store) (h : History) : Store := h.foldl (Deed.apply c.document) s

-- The component that the deed binds under a name that was free.
def newBinding? (c : Context) (s : Store) : Deed → Option (String × String)
  | .bind kind name _ => if isBound c s kind name then none else some (kind, name)
  | _ => none

-- The components that are bound under names that were free, in the order of time.
def bindings (c : Context) (s : Store) : History → List (String × String)
  | [] => []
  | d :: h => (newBinding? c s d).toList ++ bindings c (d.apply c.document s) h

section Reasons

variable (c : Context) (s : Store) (files : List (String × NodeId)) (h : History)

-- The mapping had the external reference at some moment.
def Carried (id : NodeId) (ref : String) : Prop :=
  ∃ e, e <+: h ∧ ((after c s e).entries id).ref? = some ref ∧ isExternal ref = true

-- The file that the reference of the mapping was looked up to.
def Locates (node : NodeId) (ref key : String) : Prop :=
  ∃ base l, .look node ref base ∈ h ∧ c.locator.locate (filePart ref) base = .ok l ∧
    locationKey c.locator.tree l = key

-- What the references that are being resolved are compared by.
def targetText (key ref : String) : String := s!"{key}#{joinSegments (segments (pointerPart ref))}"

def Known (key : String) (d : NodeId) : Prop := (key, d) ∈ files ++ h.filterMap Deed.file?

-- The value of the file, or else the component of another file, that the segments select.
def Selected (d : NodeId) (path : List String) (start : NodeId) : Prop :=
  Reference.resolve (after c s h) (.node d) (joinSegments path) = .ok (.node start) ∨
    ∃ kind name key d', component? path = some (kind, name) ∧ Known files h key d' ∧
      componentIn? (after c s h) d' kind name = some start

-- Where the walk goes on for a reference: at its target, or at the document of its file when that was
-- just loaded.
def Led (link : Link) (start : NodeId) (whole : Bool) : Prop :=
  ∃ ref key d, Carried c s h link.node ref ∧ Locates c h link.node ref key ∧
    link.target = targetText key ref ∧ Known files h key d ∧
    if whole then
      segments (pointerPart ref) ≠ [] ∧ start = d ∧ ∃ e read, h = e ++ [.load key d read]
    else (segments (pointerPart ref) = [] ∧ start = d) ∨
      Selected c s files h d (segments (pointerPart ref)) start

-- The container was parsed just then, with the documents that were given or with a file.
def Birth (e : History) (id : NodeId) : Prop :=
  e = [] ∨ ∃ e' key d read, e = e' ++ [.load key d read] ∧ (after c s e').nodes.size ≤ id

-- Down the values that stood in a container when it was parsed, and along the references that were
-- followed to their targets. A loose way also goes along those that were followed to a whole file, and
-- down the components that were brought in.
inductive Leads (loose : Bool) (a : NodeId) : NodeId → Prop
  | refl : Leads loose a a
  | child {b x : NodeId} {e : History} (hb : Leads loose a b) (he : e <+: h)
      (hbirth : Birth c s e b) (hx : .node x ∈ (after c s e).children b) : Leads loose a x
  | ref {b x : NodeId} {target : String} {whole : Bool} (hb : Leads loose a b)
      (hf : .follow ⟨target, b⟩ x whole ∈ h) (hloose : whole = true → loose = true) :
      Leads loose a x
  | brought {b x : NodeId} {e : History} {d : Deed} (hb : Leads loose a b)
      (hloose : loose = true) (he : e ++ [d] <+: h) (hd : d.brings = true)
      (hnew : .node x ∉ (after c s e).children b)
      (hx : .node x ∈ (after c s (e ++ [d])).children b) : Leads loose a x

-- The mark of the mapping counted at some moment.
def Passed (id : NodeId) : Prop :=
  ∃ e v, e <+: h ∧ ((after c s e).entries id).get? (.str circularRefKey) = some v ∧
    (after c s e).isTruthy v = true

-- The reference of the mapping was followed to the target.
def Aims (node : NodeId) (ref : String) (target : NodeId) : Prop :=
  ∃ key, Locates c h node ref key ∧ .follow ⟨targetText key ref, node⟩ target false ∈ h

-- A reference with the same target was followed.
def Points (loose : Bool) (node : NodeId) (ref : String) (start : NodeId) : Prop :=
  ∃ link key whole, Locates c h node ref key ∧ link.target = targetText key ref ∧
    .follow link start whole ∈ h ∧ (whole = true → loose = true)

-- Why a reference is taken to close a cycle.
inductive Closes (node : NodeId) (ref : String) : Prop
  | back {start : NodeId} (hpoints : Points c h true node ref start)
      (hleads : Leads c s h true start node)
  -- Its target is a reference that was passed by, or that a limit left as it is.
  | passed {target : NodeId} (haims : Aims c h node ref target)
      (hext : isExternalRef ((after c s h).entries target) = true) (hpassed : Passed c s h target)
  | limited {target : NodeId} {l : SoftLimit} (haims : Aims c h node ref target)
      (hext : isExternalRef ((after c s h).entries target) = true) (hlimit : .limit l ∈ h)

-- The reference was to be resolved at some moment, and it was not settled before or since.
def Pending (node : NodeId) (ref : String) : Prop :=
  ∃ e k, h = e ++ k ∧ pendingRef? (after c s e) ((after c s e).entries node) = some ref ∧
    isExternal ref = true ∧ (∀ d ∈ e, d.inlines? ≠ some node) ∧ ∀ d ∈ k, d.settles? ≠ some node

-- Why a reference is inlined.
structure Resolves (node target : NodeId) (ref : String) : Prop where
  pending : Pending c s h node ref
  isMapping : ((after c s h).mapping? node).isSome
  toMapping : ((after c s h).mapping? target).isSome
  plain : isExternalRef ((after c s h).entries target) = false
  aims : Aims c h node ref target

-- The deed has a reason in what was done before.
inductive Legit : Deed → Prop
  | prepare : Legit .prepare
  | load {key : String} {l : Location} {d : NodeId} {read : Store}
      (hkey : locationKey c.locator.tree l = key)
      (hread : parseFile c l (after c s h) = .ok (d, read)) : Legit (.load key d read)
  | bind (kind name : String) (target : NodeId) : Legit (.bind kind name target)
  | limit (l : SoftLimit) : Legit (.limit l)
  | look {node : NodeId} {ref : String} (base : Option String) (hcarried : Carried c s h node ref) :
      Legit (.look node ref base)
  | follow {link : Link} {start : NodeId} {whole : Bool}
      (hled : Led c s files h link start whole) : Legit (.follow link start whole)
  | mark {node : NodeId} {ref : String} (name : Option String)
      (hnode : ((after c s h).mapping? node).isSome) (hcarried : Carried c s h node ref)
      (hcloses : Closes c s h node ref) : Legit (.mark node ref name)
  | inline {node target : NodeId} {ref : String} (name : Option String)
      (hresolves : Resolves c s h node target ref) : Legit (.inline node target ref name)

-- Every deed has its reason.
def Lawful : Prop := ∀ pre d post, h = pre ++ d :: post → Legit c s files pre d

end Reasons

section After

variable {c : Context} {s : Store} {files : List (String × NodeId)} {h h' pre : History} {d : Deed}

theorem after_append (h k : History) : after c s (h ++ k) = after c (after c s h) k :=
  List.foldl_append

theorem after_concat (h : History) (d : Deed) :
    after c s (h ++ [d]) = d.apply c.document (after c s h) := after_append h [d]

theorem bindings_append (h k : History) :
    bindings c s (h ++ k) = bindings c s h ++ bindings c (after c s h) k := by
  induction h generalizing s with
  | nil => rfl
  | cons d h ih =>
      show (newBinding? c s d).toList ++ bindings c (d.apply c.document s) (h ++ k) = _
      rw [ih, ← List.append_assoc]
      rfl

theorem bindings_concat (h : History) (d : Deed) :
    bindings c s (h ++ [d]) = bindings c s h ++ (newBinding? c (after c s h) d).toList := by
  rw [bindings_append]
  simp [bindings]

-- What is there behind some deeds was there before, or one of them brought it.
theorem came_of_after {P : Store → Prop} (hp : P (after c s h)) :
    P s ∨ ∃ e d, e ++ [d] <+: h ∧ ¬P (after c s e) ∧ P (after c s (e ++ [d])) := by
  induction h using List.reverseRecOn with
  | nil => exact .inl hp
  | append_singleton h d ih =>
      by_cases hold : P (after c s h)
      · refine (ih hold).imp_right fun ⟨e, d', he, hnew⟩ => ⟨e, d', ?_, hnew⟩
        exact he.trans (List.prefix_append h [d])
      · exact .inr ⟨h, d, List.prefix_rfl, hold, hp⟩

theorem Lawful.nil : Lawful c s files [] := by
  intro pre d post h
  simp at h

theorem Lawful.concat (h' : Lawful c s files h) (hd : Legit c s files h d) :
    Lawful c s files (h ++ [d]) := by
  intro pre d' post heq
  rcases List.eq_nil_or_concat post with rfl | ⟨init, last, rfl⟩
  · obtain ⟨rfl, hlast⟩ := List.append_inj' heq rfl
    cases hlast
    exact hd
  · refine h' pre d' init ?_
    rw [List.concat_eq_append, ← List.cons_append, ← List.append_assoc] at heq
    exact (List.append_inj' heq rfl).1

theorem Lawful.of_prefix (h' : Lawful c s files h) (hpre : pre <+: h) : Lawful c s files pre := by
  obtain ⟨rest, rfl⟩ := hpre
  intro pre' d post heq
  exact h' pre' d (post ++ rest) (by rw [heq, List.append_assoc, List.cons_append])

theorem Lawful.last (h' : Lawful c s files (pre ++ [d])) : Legit c s files pre d :=
  h' pre d [] rfl

end After

section Entries

variable {s s' : Store} {id i : NodeId} {m m' : Entries} {key t : String}

theorem entries_set_self (h : s.mapping? id = some m) (m' : Entries) :
    (s.set id (.mapping m')).entries id = m' := entries_of_mapping? (mapping?_set_self h)

theorem entries_set_of_ne (h : id ≠ i) (m' : Entries) :
    (s.set id (.mapping m')).entries i = s.entries i := by
  unfold entries
  rw [mapping?_set_of_ne h]

theorem entries_eq_empty (h : s.mapping? id = none) : s.entries id = .empty := by
  simp [entries, h]

-- Only a mapping has fields.
theorem exists_mapping?_of_get? {k : Key} {v : Value} (h : (s.entries id).get? k = some v) :
    ∃ m, s.mapping? id = some m ∧ m.get? k = some v := by
  cases hm : s.mapping? id with
  | some m => exact ⟨m, rfl, entries_of_mapping? hm ▸ h⟩
  | none =>
      rw [entries_eq_empty hm] at h
      cases h

theorem lt_size_of_get?_entries {k : Key} {v : Value} (h : (s.entries id).get? k = some v) :
    id < s.nodes.size := by
  obtain ⟨m, hm, -⟩ := exists_mapping?_of_get? h
  exact lt_size_of_mapping? hm

theorem entries_of_extends (h : s.Extends s') (hid : id < s.nodes.size) :
    s'.entries id = s.entries id := by
  unfold entries mapping?
  rw [h.old id hid]

-- A mapping takes texts from nothing but its own content.
theorem text?_of_set (hm : s.mapping? id = some m)
    (hself : m'.text? key = some t → m.text? key = some t)
    (h : ((s.set id (.mapping m')).entries i).text? key = some t) :
    (s.entries i).text? key = some t := by
  by_cases hi : id = i
  · subst hi
    rw [entries_set_self hm] at h
    rw [entries_of_mapping? hm]
    exact hself h
  · rwa [entries_set_of_ne hi] at h

theorem text?_of_put {k : Key} {j : NodeId} (hm : s.mapping? id = some m)
    (h : ((s.put id k (.node j)).entries i).text? key = some t) :
    (s.entries i).text? key = some t := by
  rw [put_of_mapping? hm] at h
  refine text?_of_set hm (fun hins => ?_) h
  rw [text?_insert_node] at hins
  split at hins
  · cases hins
  · exact hins

theorem text?_of_alloc (h : ((s.alloc (.mapping .empty)).2.entries i).text? key = some t) :
    (s.entries i).text? key = some t := by
  rcases Nat.lt_trichotomy i s.nodes.size with hlt | rfl | hgt
  · unfold entries at h ⊢
    rwa [mapping?_alloc_of_lt hlt] at h
  · rw [entries_of_mapping? mapping?_alloc_self] at h
    cases h
  · have hnone : (s.alloc (.mapping .empty)).2.mapping? i = none := by
      unfold mapping?
      rw [get?_eq_none (by rw [size_alloc]; omega)]
    rw [entries_eq_empty hnone] at h
    cases h

theorem text?_of_ensureField (hm : (s.mapping? id).isSome) {field : String}
    (h : ((s.ensureField id field).2.entries i).text? key = some t) :
    (s.entries i).text? key = some t := by
  unfold ensureField at h
  split at h
  · exact h
  · obtain ⟨m, hm⟩ := Option.isSome_iff_exists.mp
      ((grows_alloc s (.mapping .empty)).mapping id hm)
    exact text?_of_alloc (text?_of_put hm h)

theorem text?_of_ensureComponents {document : NodeId} (hm : (s.mapping? document).isSome)
    {kind : String} (h : ((s.ensureComponents document kind).2.entries i).text? key = some t) :
    (s.entries i).text? key = some t := by
  obtain ⟨-, hplace⟩ := keeps_ensureField hm "components"
  exact text?_of_ensureField hm (text?_of_ensureField hplace h)

theorem ref?_markedContent (name : Option String) : (markedContent m name).ref? = m.ref? := by
  simp only [Entries.ref?, Entries.text?, Entries.field?, get?_markedContent_refKey]

end Entries

section Places

-- The mappings that components are brought into: the document, its components and their sections.
def IsPlace (s : Store) (document id : NodeId) : Prop :=
  id = document ∨ ∃ comps m, s.fieldMapping? document "components" = some (comps, m) ∧
    (id = comps ∨ ∃ kind e, s.fieldMapping? comps kind = some (id, e))

variable {s : Store} {document id i : NodeId} {key kind : String}

-- What is made in a mapping is new, and nothing else changes.
theorem get?_ensureField (h : i < s.nodes.size) (hi : i ≠ id) :
    (s.ensureField id key).2.get? i = s.get? i := by
  unfold ensureField
  split
  · rfl
  · rw [get?_put_of_ne _ _ _ (Ne.symm hi), get?_alloc_of_lt s _ h]

-- What is found or made: a mapping that is there, or a new empty one.
theorem ensureField_cases (h : (s.mapping? id).isSome) (key : String) :
    (∃ child m, s.fieldMapping? id key = some (child, m) ∧ s.ensureField id key = (child, s)) ∨
      (s.ensureField id key).1 = s.nodes.size ∧
        (s.ensureField id key).2.entries s.nodes.size = .empty := by
  cases hf : s.fieldMapping? id key with
  | some e =>
      exact .inl ⟨e.1, e.2, rfl, ensureField_of_fieldMapping? hf⟩
  | none =>
      obtain ⟨m, hm⟩ := Option.isSome_iff_exists.mp h
      rw [ensureField_of_eq_none hf]
      exact .inr ⟨rfl, entries_put_alloc hm _ _ _⟩

theorem size_ensureField_le (h : (s.mapping? id).isSome) (key : String) :
    s.nodes.size ≤ (s.ensureField id key).2.nodes.size := (keeps_ensureField h key).1.size

-- Only places change, and the section that is found or made is one.
theorem get?_ensureComponents (hdoc : (s.mapping? document).isSome) (hi : i < s.nodes.size)
    (hplace : ¬IsPlace s document i) :
    (s.ensureComponents document kind).2.get? i = s.get? i ∧
      i ≠ (s.ensureComponents document kind).1 := by
  have hne : i ≠ document := fun h => hplace (.inl h)
  unfold ensureComponents
  dsimp only
  rcases ensureField_cases hdoc "components" with ⟨comps, m, hf, heq⟩ | ⟨hnew, hempty⟩
  · rw [heq]
    dsimp only
    have hcomps : i ≠ comps := fun h => hplace (.inr ⟨comps, m, hf, .inl h⟩)
    have hm : (s.mapping? comps).isSome := by simp [(fieldMapping?_eq_some.mp hf).2]
    refine ⟨get?_ensureField hi hcomps, ?_⟩
    rcases ensureField_cases hm kind with ⟨place, e, hp, heq'⟩ | ⟨hnew', -⟩
    · rw [heq']
      exact fun h => hplace (.inr ⟨comps, m, hf, .inr ⟨kind, e, h ▸ hp⟩⟩)
    · rw [hnew']
      exact Nat.ne_of_lt hi
  · have hfirst := @get?_ensureField s document i "components" hi hne
    have hsize := size_ensureField_le hdoc "components"
    have hm := (keeps_ensureField hdoc "components").2
    rw [hnew] at hm ⊢
    generalize (s.ensureField document "components").2 = s₁ at hfirst hsize hempty hm ⊢
    have hlt := Nat.lt_of_lt_of_le hi hsize
    refine ⟨(get?_ensureField hlt (Nat.ne_of_lt hi)).trans hfirst, ?_⟩
    rcases ensureField_cases hm kind with ⟨place, e, hp, -⟩ | ⟨hnew', -⟩
    · -- Nothing stands in the new mapping.
      have hin := (fieldMapping?_eq_some.mp hp).1
      rw [hempty] at hin
      cases hin
    · rw [hnew']
      exact Nat.ne_of_lt hlt

-- What is made is empty, so a name is taken there exactly if it was before.
theorem has_ensureComponents {c : Context} (hdoc : (s.mapping? c.document).isSome) (kind name : String) :
    ((s.ensureComponents c.document kind).2.entries (s.ensureComponents c.document kind).1).has name =
      isBound c s kind name := by
  have empty {t : Store} {place : NodeId} (h : t.entries place = .empty) :
      (t.entries place).has name = false := by
    rw [h]
    rfl
  unfold ensureComponents isBound components?
  dsimp only
  cases hf : s.fieldMapping? c.document "components" with
  | some e =>
      have hm : (s.mapping? e.1).isSome := by simp [(fieldMapping?_eq_some.mp hf).2]
      rw [ensureField_of_fieldMapping? hf]
      dsimp only
      cases hk : s.fieldMapping? e.1 kind with
      | some e' =>
          rw [ensureField_of_fieldMapping? hk]
          dsimp only
          rw [entries_of_mapping? (fieldMapping?_eq_some.mp hk).2]
          simp [hk]
      | none =>
          rcases ensureField_cases hm kind with ⟨child, m, hwrong, -⟩ | ⟨hnew, hempty⟩
          · rw [hk] at hwrong
            cases hwrong
          · rw [hnew, empty hempty]
            simp [hk]
  | none =>
      rcases ensureField_cases hdoc "components" with ⟨child, m, hwrong, -⟩ | ⟨hnew, hempty⟩
      · rw [hf] at hwrong
        cases hwrong
      have hm := (keeps_ensureField hdoc "components").2
      rw [hnew] at hm ⊢
      rcases ensureField_cases hm kind with ⟨child, m, hwrong, -⟩ | ⟨hnew', hempty'⟩
      · have hin := (fieldMapping?_eq_some.mp hwrong).1
        rw [hempty] at hin
        cases hin
      · rw [hnew', empty hempty']
        simp

end Places

section Apply

variable {c : Context} {s : Store} {files : List (String × NodeId)} {h : History} {d : Deed}

theorem keeps_bound {document : NodeId} (hroot : (s.mapping? document).isSome) (kind name : String)
    (target : NodeId) : Keeps s (bound s document kind name target) := by
  obtain ⟨hkeeps, hplace⟩ := keeps_ensureComponents hroot kind
  obtain ⟨m, hm⟩ := Option.isSome_iff_exists.mp hplace
  unfold bound
  dsimp only
  split
  · exact hkeeps
  · next hhas =>
    refine hkeeps.trans (keeps_put (.refl _) hm fun v hv => ?_)
    rw [entries_of_mapping? hm, Entries.has, OrderedMap.contains_eq_isSome_get?, hv] at hhas
    exact absurd rfl hhas

theorem text?_of_bound {document id target : NodeId} (hroot : (s.mapping? document).isSome)
    {kind name key t : String}
    (h : ((bound s document kind name target).entries id).text? key = some t) :
    (s.entries id).text? key = some t := by
  obtain ⟨-, hplace⟩ := keeps_ensureComponents hroot kind
  obtain ⟨m, hm⟩ := Option.isSome_iff_exists.mp hplace
  have hbefore : ((s.ensureComponents document kind).2.entries id).text? key = some t := by
    unfold bound at h
    dsimp only at h
    split at h
    · exact h
    · exact text?_of_put hm h
  exact text?_of_ensureComponents hroot hbefore

-- A component is bound in a place only.
theorem get?_bound {document id target : NodeId} (hroot : (s.mapping? document).isSome)
    (hid : id < s.nodes.size) (hplace : ¬IsPlace s document id) (kind name : String) :
    (bound s document kind name target).get? id = s.get? id := by
  obtain ⟨hsame, hne⟩ := @get?_ensureComponents s document id kind hroot hid hplace
  unfold bound
  dsimp only
  split
  · exact hsame
  · rw [get?_put_of_ne _ _ _ (Ne.symm hne), hsame]

theorem replaced_of_mapping? {node target : NodeId} {m : Entries} (hm : s.mapping? node = some m)
    (name : Option String) :
    replaced s node target name = s.set node (.mapping (inlinedContent
      ((s.set node (.mapping .empty)).entries target) (m.erase (.str refKey)) name)) := by
  unfold replaced
  rw [set_set, entries_of_mapping? hm]

theorem entries_replaced {node target : NodeId} {m : Entries} (hm : s.mapping? node = some m)
    (name : Option String) :
    (replaced s node target name).entries node = inlinedContent
      ((s.set node (.mapping .empty)).entries target) (m.erase (.str refKey)) name := by
  rw [replaced_of_mapping? hm, entries_set_self hm]

-- What stands in a container after a deed.
inductive Becomes (s : Store) (document id : NodeId) : Deed → Entries → Prop
  | same {d : Deed} (hother : d.settles? ≠ some id) : Becomes s document id d (s.entries id)
  | prepared : Becomes s document id .prepare ((s.ensureComponents document "schemas").2.entries id)
  | bound (kind name : String) (target : NodeId) :
      Becomes s document id (.bind kind name target) ((bound s document kind name target).entries id)
  | read {key : String} {d : NodeId} {read : Store} (hnew : s.nodes.size ≤ id) :
      Becomes s document id (.load key d read) (read.entries id)
  | marked (ref : String) (name : Option String) (hid : (s.mapping? id).isSome) :
      Becomes s document id (.mark id ref name) (markedContent (s.entries id) name)
  | inlined (target : NodeId) (ref : String) (name : Option String) (hid : (s.mapping? id).isSome) :
      Becomes s document id (.inline id target ref name) (inlinedContent
        ((s.set id (.mapping .empty)).entries target) ((s.entries id).erase (.str refKey)) name)

theorem Legit.becomes (hd : Legit c s files h d) (id : NodeId) :
    Becomes (after c s h) c.document id d ((d.apply c.document (after c s h)).entries id) := by
  cases hd with
  | prepare => exact .prepared
  | @load key l document read hkey hread =>
      show Becomes _ _ _ _ (read.entries id)
      rcases Nat.lt_or_ge id (after c s h).nodes.size with hlt | hge
      · rw [entries_of_extends (extends_parseFile hread).1 hlt]
        exact .same nofun
      · exact .read hge
  | bind kind name target => exact .bound kind name target
  | limit l => exact .same nofun
  | look base hcarried => exact .same nofun
  | follow hled => exact .same nofun
  | @mark node ref name hnode _ _ =>
      obtain ⟨m, hm⟩ := Option.isSome_iff_exists.mp hnode
      show Becomes _ _ _ _ ((Store.set _ node (.mapping (markedContent _ name))).entries id)
      by_cases heq : node = id
      · subst heq
        rw [entries_set_self hm]
        exact .marked ref name hnode
      · rw [entries_set_of_ne heq]
        exact .same fun hsettles => heq (Option.some.inj hsettles)
  | @inline node target ref name hresolves =>
      obtain ⟨m, hm⟩ := Option.isSome_iff_exists.mp hresolves.isMapping
      show Becomes _ _ _ _ ((replaced _ node target name).entries id)
      by_cases heq : node = id
      · subst heq
        rw [entries_replaced hm, ← entries_of_mapping? hm]
        exact .inlined target ref name hresolves.isMapping
      · rw [replaced_of_mapping? hm, entries_set_of_ne heq]
        exact .same fun hsettles => heq (Option.some.inj hsettles)

theorem Legit.entries_marked {node : NodeId} {ref : String} {name : Option String}
    (hd : Legit c s files h (.mark node ref name)) :
    (after c s (h ++ [.mark node ref name])).entries node =
      markedContent ((after c s h).entries node) name := by
  have hb := hd.becomes node
  rw [← after_concat] at hb
  generalize (after c s (h ++ [.mark node ref name])).entries node = new at hb ⊢
  cases hb with
  | same hother => exact absurd rfl hother
  | marked _ _ _ => rfl

-- No deed takes anything away from a mapping but its reference.
theorem Legit.keeps (hd : Legit c s files h d) (hroot : ((after c s h).mapping? c.document).isSome) :
    Keeps (after c s h) (d.apply c.document (after c s h)) := by
  cases hd with
  | prepare => exact (keeps_ensureComponents hroot "schemas").1
  | load hkey hread => exact keeps_of_extends (extends_parseFile hread).1
  | bind kind name target => exact keeps_bound hroot kind name target
  | limit l => exact .refl _
  | look base hcarried => exact .refl _
  | follow hled => exact .refl _
  | @mark node ref name hnode _ _ =>
      obtain ⟨m, hm⟩ := Option.isSome_iff_exists.mp hnode
      show Keeps _ ((after c s h).set node (.mapping (markedContent ((after c s h).entries node) name)))
      rw [entries_of_mapping? hm]
      exact keeps_mark hm name
  | @inline node target ref name hresolves =>
      obtain ⟨m, hm⟩ := Option.isSome_iff_exists.mp hresolves.isMapping
      show Keeps _ (replaced (after c s h) node target name)
      rw [replaced_of_mapping? hm]
      exact keeps_inline hm _ name

-- A reference is there from the beginning, or since its file was loaded.
theorem Legit.ref? (hd : Legit c s files h d) (hroot : ((after c s h).mapping? c.document).isSome)
    {id : NodeId} {ref : String}
    (href : ((d.apply c.document (after c s h)).entries id).ref? = some ref) :
    ((after c s h).entries id).ref? = some ref ∨
      ∃ key document read, d = .load key document read ∧ (after c s h).nodes.size ≤ id := by
  have hb := hd.becomes id
  generalize (d.apply c.document (after c s h)).entries id = new at hb href
  cases hb with
  | same _ => exact .inl href
  | prepared => exact .inl (text?_of_ensureComponents hroot href)
  | bound kind name target => exact .inl (text?_of_bound hroot href)
  | read hnew => exact .inr ⟨_, _, _, rfl, hnew⟩
  | marked ref' name _ => exact .inl ((ref?_markedContent name).symm.trans href)
  | inlined target ref' name _ =>
      rw [ref?_inlinedContent] at href
      cases href

-- What is inlined is a mapping, and it has no reference any more.
theorem Legit.of_inlines? (hd : Legit c s files h d) {id : NodeId} (hid : d.inlines? = some id) :
    ((after c s h).mapping? id).isSome ∧
      ((d.apply c.document (after c s h)).entries id).ref? = none := by
  obtain ⟨target, ref, name, rfl⟩ := Deed.inlines?_eq_some hid
  cases hd with
  | inline _ hresolves =>
      refine ⟨hresolves.isMapping, ?_⟩
      obtain ⟨m, hm⟩ := Option.isSome_iff_exists.mp hresolves.isMapping
      show ((replaced (after c s h) id target name).entries id).ref? = none
      rw [entries_replaced hm]
      exact ref?_inlinedContent

-- What is no place changes only where its own reference is settled.
theorem Legit.get? (hd : Legit c s files h d) (hroot : ((after c s h).mapping? c.document).isSome)
    {id : NodeId} (hid : id < (after c s h).nodes.size)
    (hplace : ¬IsPlace (after c s h) c.document id) (hother : d.settles? ≠ some id) :
    (d.apply c.document (after c s h)).get? id = (after c s h).get? id := by
  cases hd with
  | prepare => exact (get?_ensureComponents hroot hid hplace).1
  | load hkey hread => exact (extends_parseFile hread).1.old id hid
  | bind kind name target => exact get?_bound hroot hid hplace kind name
  | limit l => rfl
  | look base hcarried => rfl
  | follow hled => rfl
  | @mark node ref name _ _ _ =>
      exact get?_set_of_ne _ _ fun heq => hother (congrArg some heq)
  | @inline node target ref name hresolves =>
      have hne : node ≠ id := fun heq => hother (congrArg some heq)
      show (replaced (after c s h) node target name).get? id = _
      unfold replaced
      dsimp only
      rw [set_set, get?_set_of_ne _ _ hne]

end Apply

section Lawful

variable {c : Context} {s : Store} {files : List (String × NodeId)} {h pre k : History}

theorem Lawful.root (hl : Lawful c s files h) (hdoc : (s.mapping? c.document).isSome) :
    ((after c s h).mapping? c.document).isSome := by
  induction h using List.reverseRecOn with
  | nil => exact hdoc
  | append_singleton h d ih =>
      have hroot := ih (hl.of_prefix (List.prefix_append _ _))
      rw [after_concat]
      exact (hl.last.keeps hroot).mapping _ hroot

-- What a store has and each of the deeds that follow keeps is there behind all of them.
theorem Lawful.preserved {P : Store → Prop} (hl : Lawful c s files (pre ++ k))
    (hdoc : (s.mapping? c.document).isSome) (hstart : P (after c s pre))
    (hstep : ∀ e d, pre <+: e → e ++ [d] <+: pre ++ k → d ∈ k → Legit c s files e d →
      ((after c s e).mapping? c.document).isSome → P (after c s e) →
      P (d.apply c.document (after c s e))) : P (after c s (pre ++ k)) := by
  induction k using List.reverseRecOn with
  | nil => rwa [List.append_nil]
  | append_singleton k d ih =>
      rw [← List.append_assoc] at hl hstep ⊢
      have hpre : pre ++ k <+: pre ++ k ++ [d] := List.prefix_append _ _
      have hbefore := hl.of_prefix hpre
      have hp := ih hbefore fun e d' he hd' hin =>
        hstep e d' he (hd'.trans hpre) (List.mem_append_left _ hin)
      rw [after_concat]
      exact hstep _ d (List.prefix_append _ _) List.prefix_rfl
        (List.mem_append_right _ (List.mem_singleton_self d)) hl.last (hbefore.root hdoc) hp

theorem Lawful.keeps (hl : Lawful c s files h) (hdoc : (s.mapping? c.document).isSome)
    (hpre : pre <+: h) : Keeps (after c s pre) (after c s h) := by
  obtain ⟨k, rfl⟩ := hpre
  exact hl.preserved hdoc (.refl _) fun e d _ _ _ hd hroot hkept => hkept.trans (hd.keeps hroot)

theorem Lawful.ref? (hl : Lawful c s files h) (hdoc : (s.mapping? c.document).isSome)
    (hpre : pre <+: h) {id : NodeId} (hid : id < (after c s pre).nodes.size) {ref : String}
    (href : ((after c s h).entries id).ref? = some ref) :
    ((after c s pre).entries id).ref? = some ref := by
  obtain ⟨k, rfl⟩ := hpre
  refine hl.preserved (P := fun t => (t.entries id).ref? = some ref →
    ((after c s pre).entries id).ref? = some ref) hdoc (fun h => h) ?_ href
  intro e d he hed _ hd hroot hsame href
  rcases hd.ref? hroot href with hold | ⟨key, document, read, -, hsize⟩
  · exact hsame hold
  · have hgrows := ((hl.of_prefix ((List.prefix_append e [d]).trans hed)).keeps hdoc he).size
    exact absurd (Nat.lt_of_lt_of_le hid hgrows) (Nat.not_lt.mpr hsize)

-- A reference is not found again once it is gone.
theorem Lawful.ref?_eq_none (hl : Lawful c s files h) (hdoc : (s.mapping? c.document).isSome)
    (hpre : pre <+: h) {id : NodeId} (hid : id < (after c s pre).nodes.size)
    (hnone : ((after c s pre).entries id).ref? = none) :
    ((after c s h).entries id).ref? = none :=
  Option.eq_none_iff_forall_ne_some.mpr fun ref href => by
    rw [hl.ref? hdoc hpre hid href] at hnone
    cases hnone

theorem Lawful.ref?_of_inlines? (hl : Lawful c s files h) (hdoc : (s.mapping? c.document).isSome)
    {id : NodeId} (hpre : pre ++ [d] <+: h) (hd : d.inlines? = some id) :
    ((after c s h).entries id).ref? = none := by
  have hbefore := hl.of_prefix hpre
  obtain ⟨hmapping, hgone⟩ := hbefore.last.of_inlines? hd
  obtain ⟨m, hm⟩ := Option.isSome_iff_exists.mp hmapping
  rw [← after_concat] at hgone
  exact hl.ref?_eq_none hdoc hpre (Nat.lt_of_lt_of_le (lt_size_of_mapping? hm)
    (hbefore.keeps hdoc (List.prefix_append _ _)).size) hgone

end Lawful

end ApiGraph.Resolve
