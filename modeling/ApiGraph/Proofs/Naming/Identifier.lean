import ApiGraph.Proofs.Naming.Completeness
import ApiGraph.Proofs.Naming.Table
import ApiGraph.Proofs.Parsing.Spelling
import Mathlib

namespace ApiGraph.Identifier

-- ASCII letters and digits with a capital in front.
def IsValid (s : String) : Prop := s.toList.head?.any Char.isUpper ∧ s.toList.all Char.isAlphanum

instance (s : String) : Decidable (IsValid s) := inferInstanceAs (Decidable (_ ∧ _))

variable {s t : String} {c : Char} {cs : List Char} {capital : Bool}

theorem isAlphanum_toUpper (h : c.isAlphanum) : c.toUpper.isAlphanum := by
  unfold Char.isAlphanum at h ⊢
  rw [Char.isAlpha_toUpper_eq_isAlpha]
  rcases Bool.or_eq_true_iff.mp h with halpha | hdigit
  · rw [halpha, Bool.true_or]
  · have hlower : ¬c.isLower := by
      intro hlower
      rw [Char.isDigit_iff_toNat] at hdigit
      simp only [Char.isLower, Bool.and_eq_true, decide_eq_true_eq, UInt32.le_iff_toNat_le] at hlower
      have hle : 97 ≤ c.toNat := hlower.1
      have hnine : '9'.toNat = 57 := rfl
      omega
    rw [Char.toUpper_eq_of_not_isLower hlower, hdigit, Bool.or_true]

theorem isAlphanum_of_isUpper (h : c.isUpper) : c.isAlphanum := by
  simp [Char.isAlphanum, Char.isAlpha, h]

theorem toUpper_of_isUpper (h : c.isUpper) : c.toUpper = c :=
  Char.toUpper_eq_of_not_isLower (Char.not_isLower_of_isUpper h)

theorem isAlphanum_of_mem_letters (h : c ∈ letters capital cs) : c.isAlphanum := by
  induction cs generalizing capital with
  | nil => cases h
  | cons first rest ih =>
      unfold letters at h
      split at h
      next hfirst =>
        rcases List.mem_cons.mp h with rfl | h
        · split
          · exact isAlphanum_toUpper hfirst
          · exact hfirst
        · exact ih h
      next => exact ih h

-- What is dropped in front does not use the capital up.
theorem head?_letters (h : (letters true cs).head? = some c) (halpha : c.isAlpha) : c.isUpper := by
  induction cs with
  | nil => cases h
  | cons first rest ih =>
      unfold letters at h
      split at h
      next =>
        obtain rfl : first.toUpper = c := Option.some.inj h
        rw [Char.isAlpha_toUpper_eq_isAlpha] at halpha
        rwa [Char.isUpper_toUpper_eq_isAlpha]
      next => exact ih h

theorem letters_eq_self (h : ∀ c ∈ cs, c.isAlphanum) : letters false cs = cs := by
  induction cs with
  | nil => rfl
  | cons first rest ih =>
      unfold letters
      rw [if_pos (h first List.mem_cons_self), ih fun c hc => h c (List.mem_cons_of_mem _ hc)]
      rfl

theorem isValid_iff :
    IsValid s ↔ ∃ c rest, s.toList = c :: rest ∧ c.isUpper ∧ ∀ x ∈ rest, x.isAlphanum := by
  unfold IsValid
  cases s.toList with
  | nil => simp
  | cons c rest =>
      simp only [List.head?_cons, Option.any_some, List.all_cons, Bool.and_eq_true, List.all_eq_true,
        List.cons.injEq, ↓existsAndEq, true_and]
      exact and_congr_right fun hc => and_iff_right (isAlphanum_of_isUpper hc)

theorem IsValid.append (h : IsValid s) (ht : ∀ c ∈ t.toList, c.isAlphanum) : IsValid (s ++ t) := by
  obtain ⟨c, rest, hs, hc, hrest⟩ := isValid_iff.mp h
  refine isValid_iff.mpr ⟨c, rest ++ t.toList, ?_, hc, fun x hx => ?_⟩
  · rw [String.toList_append, hs]
    rfl
  · rcases List.mem_append.mp hx with hx | hx
    · exact hrest x hx
    · exact ht x hx

theorem isValid_schema : IsValid "Schema" := by decide

theorem isValid_ofText (s : String) : IsValid (ofText s) := by
  have hletters : ∀ c ∈ letters true s.toList, c.isAlphanum := fun c => isAlphanum_of_mem_letters
  unfold ofText ofChars
  split
  · decide
  · split
    next =>
      rw [String.ofList_toList]
      exact isValid_schema
    next c rest hcs =>
      rw [hcs] at hletters
      split
      next halpha =>
        have hcapital : c.isUpper := head?_letters (by rw [hcs]; rfl) halpha
        exact isValid_iff.mpr ⟨c, rest, String.toList_ofList, hcapital,
          fun x hx => hletters x (List.mem_cons_of_mem _ hx)⟩
      next =>
        rw [String.ofList_append, String.ofList_toList]
        exact isValid_schema.append (by rwa [String.toList_ofList])

theorem ofText_eq_self_iff : ofText s = s ↔ IsValid s := by
  constructor
  · intro h
    rw [← h]
    exact isValid_ofText s
  · intro h
    obtain ⟨c, rest, hs, hc, hrest⟩ := isValid_iff.mp h
    have hne : s ≠ "" := by
      rintro rfl
      cases hs
    have hletters : letters true s.toList = c :: rest := by
      rw [hs, letters, if_pos (isAlphanum_of_isUpper hc), if_pos rfl, toUpper_of_isUpper hc,
        letters_eq_self hrest]
    have halpha : c.isAlpha := by simp [Char.isAlpha, hc]
    unfold ofText ofChars
    rw [if_neg hne, hletters]
    dsimp only
    rw [if_pos halpha, ← hs, String.ofList_toList]

end ApiGraph.Identifier

namespace ApiGraph.Naming

open Identifier

section Names

variable {key : Key} {keys : List Key} {name label : String}

theorem isValid_propertyIdentifier (h : propertyIdentifier key = .ok name) : IsValid name := by
  unfold propertyIdentifier at h
  split at h <;> cases h
  · exact isValid_ofText _
  · exact isValid_ofText _

theorem isValid_firstCollection? (h : firstCollection? keys = .ok (some name)) : IsValid name := by
  induction keys with
  | nil => cases h
  | cons key rest ih =>
      rw [firstCollection?] at h
      split at h
      · split at h
        · cases h
          exact isValid_ofText _
        · exact ih h
      · cases h
      · cases h

theorem isValid_numbered (h : IsValid label) (number : Nat) : IsValid (label ++ toString number) := by
  refine h.append fun c hc => ?_
  have hdigit := (Text.isDecimal_toString number).2.1 c hc
  rw [Char.isAlphanum, hdigit, Bool.or_true]

theorem isValid_responseName {operationId : Option String} {counter : Nat}
    (h : responseName operationId keys counter = .ok name) : IsValid name := by
  unfold responseName at h
  split at h
  · exact isValid_propertyIdentifier h
  · cases hfirst : firstCollection? keys with
    | error f =>
        rw [hfirst] at h
        cases h
    | ok found =>
        rw [hfirst] at h
        cases found with
        | some collection =>
            cases h
            exact isValid_firstCollection? hfirst
        | none =>
            dsimp only [bind, Except.bind] at h
            split at h <;> cases h
            · exact isValid_ofText _
            · exact isValid_numbered (by decide) counter

theorem isValid_propertyName {title : Option String} {property : Option Key} {counter : Nat}
    (h : propertyName title property counter = .ok name) : IsValid name := by
  unfold propertyName at h
  split at h
  · cases h
    exact isValid_ofText _
  · exact isValid_propertyIdentifier h
  · cases h
    exact isValid_numbered (by decide) counter

end Names

section Run

variable {c : Scope} {p : Progress} {document : NodeId}

-- The table comes from identifiers that were assigned.
def Identified (p : Progress) : Prop :=
  ∃ h : InlineTable.History, p.table = .after h ∧ ∀ e ∈ h, IsValid e.2

theorem identified_start : Identified start := by
  refine ⟨[], rfl, fun e he => ?_⟩
  cases he

-- The table is all that counts.
theorem Identified.congr {q : Progress} (h : Identified p) (htable : q.table = p.table) : Identified q := by
  unfold Identified at h ⊢
  rwa [htable]

theorem Identified.assign (h : Identified p) (node : NodeId) {name : String} (hname : IsValid name)
    (events : List Event) :
    Identified { p with table := (p.table.assign node name).1, events := events } := by
  obtain ⟨history, htable, hvalid⟩ := h
  refine ⟨history ++ [(node, name)], ?_, fun e he => ?_⟩
  · rw [htable]
    exact (InlineTable.after_concat history (node, name)).symm
  · rcases List.mem_append.mp he with he | he
    · exact hvalid e he
    · obtain rfl := List.mem_singleton.mp he
      exact hname

-- The program only assigns identifiers; it may fail in any way.
abbrev Identifies {α : Type} (x : Collect α) : Prop := Confined Identified (fun _ => True) x

theorem identifies_assign (node : NodeId) {name : String} (hname : IsValid name) :
    Identifies (Naming.assign node name) :=
  confined_modify fun _ hp => hp.assign node hname _

theorem identifies_nameBodies (l : List (Entries × Value)) (counter : Nat) :
    Identifies (nameBodies c l counter) := by
  induction l generalizing counter with
  | nil => exact confined_pure ()
  | cons e rest ih =>
      obtain ⟨operation, v⟩ := e
      unfold nameBodies
      split
      · exact ih counter
      · split
        · exact ih counter
        · exact confined_lift_bind (fun _ _ => trivial) fun name hname =>
            (identifies_assign _ (isValid_responseName hname)).bind fun _ => ih (counter + 1)

theorem identifies_nameVisit (v : Visit) : Identifies (nameVisit c v) := by
  unfold nameVisit
  refine confined_get_bind fun p hp => ?_
  dsimp only
  split
  · exact confined_lift_bind (fun _ _ => trivial)
      (fun name hname => identifies_assign v.node (isValid_propertyName hname)) p hp
  · exact hp

theorem identifies_scanVisit (allowance depth : Nat) (v : Visit) :
    Identifies (scanVisit c allowance depth v) := by
  induction allowance generalizing depth v with
  | zero => exact confined_throw trivial
  | succ allowance ih =>
      have hall (l : List Visit) : Identifies (l.forM (scanVisit c allowance (depth + 1))) :=
        confined_forM (fun w => ih (depth + 1) w) l
      rw [scanVisit_succ]
      split
      · exact confined_modify fun _ hp => hp.congr rfl
      · refine confined_get.bind fun p => ?_
        split
        · exact confined_pure ()
        · refine (confined_modify fun _ hp => hp.congr rfl).bind fun _ => ?_
          split
          · exact confined_pure ()
          · exact (hall _).bind fun _ => (identifies_nameVisit v).bind fun _ => hall _

theorem identifies_pass (allowance : Nat) : Identifies (pass c document allowance) :=
  (identifies_nameBodies _ 1).bind fun _ => confined_forM (fun v => identifies_scanVisit allowance 0 v) _

theorem identified_of_collect {s : Store} {settings : NamingSettings}
    (h : collect s settings document = .ok p) : Identified p := by
  rw [collect_eq] at h
  rcases hrun : (pass (scopeOf s settings document) document nestingAllowance).run start with f | ⟨_, q⟩
  · rw [hrun] at h
    cases h
  · rw [hrun] at h
    obtain rfl : q = p := Except.ok.inj h
    exact (ends_of_ok hrun).mp (identifies_pass nestingAllowance start identified_start)

theorem Identified.toList (h : Identified p) : ∀ e ∈ p.table.toList, IsValid e.2 := by
  obtain ⟨history, htable, hvalid⟩ := h
  intro e he
  rw [htable, (InlineTable.describes_after history).entries, InlineTable.History.mem_kept] at he
  exact hvalid e (InlineTable.History.mem_of_nameOf? he)

theorem Identified.names (h : Identified p) : ∀ name ∈ p.table.names, IsValid name := by
  obtain ⟨history, htable, hvalid⟩ := h
  intro name hname
  rw [htable, (InlineTable.describes_after history).names, InlineTable.History.mem_names] at hname
  obtain ⟨node, hnode⟩ := List.exists_mem_of_ne_nil _ hname
  exact hvalid (node, name) (InlineTable.History.mem_of_nameOf? (InlineTable.History.mem_bearers.mp hnode))

-- Every text is made into an identifier, which is the text itself just if that is one. So the names that a
-- pass leaves in its table are identifiers, whatever they were made from, and on a document with text keys
-- the pass returns.
theorem names_are_identifiers :
    (∀ text, IsValid (ofText text)) ∧
    (∀ text, ofText text = text ↔ IsValid text) ∧
    ∀ (s : Store) (settings : NamingSettings) (document : NodeId),
      (∀ p, collect s settings document = .ok p →
        (∀ e ∈ p.table.toList, IsValid e.2) ∧ ∀ name ∈ p.table.names, IsValid name) ∧
      (HasTextKeys s → settings.maxDepth + 1 < nestingAllowance → ∃ p, collect s settings document = .ok p) :=
  ⟨isValid_ofText, fun _ => ofText_eq_self_iff, fun _ _ _ =>
    ⟨fun _ hp => ⟨(identified_of_collect hp).toList, (identified_of_collect hp).names⟩, collect_returns⟩⟩

-- A response body that is named after its operation, and schemas that are named after the property around
-- them, by their title and by number.
def variedNames : Store :=
  ⟨#[
    .ofFields [("paths", .node 1), ("components", .node 2)],
    .ofFields [("/users", .node 3)],
    .ofFields [("schemas", .node 4)],
    .ofFields [("get", .node 5)],
    .ofFields [("A", .node 6), ("B", .node 7)],
    .ofFields [("operationId", .str "list-all"), ("responses", .node 8)],
    .ofFields [("properties", .node 9)],
    .ofFields [("type", .str "array"), ("items", .node 18)],
    .ofFields [("200", .node 11)],
    .ofFields [("2fa", .node 10), ("x", .node 12)],
    .ofFields [("type", .str "object"), ("properties", .node 13)],
    .ofFields [("content", .node 14)],
    .ofFields [("type", .str "object"), ("title", .str "user profile"), ("properties", .node 13)],
    .ofFields [],
    .ofFields [("application/json", .node 15)],
    .ofFields [("schema", .node 16)],
    .ofFields [("type", .str "object"), ("properties", .node 17)],
    .ofFields [("id", .node 13), ("n", .node 13)],
    .ofFields [("type", .str "object"), ("properties", .node 13)]]⟩

theorem variedNames_are_identifiers :
    ∃ p, collect variedNames {} 0 = .ok p ∧
      p.table.names = ["ListAllResponse", "Schema2fa", "UserProfile", "InlineObject3"] ∧
      ∀ name ∈ p.table.names, IsValid name := by
  obtain ⟨-, -, hcollect⟩ := names_are_identifiers
  obtain ⟨hvalid, hreturns⟩ := hcollect variedNames {} 0
  obtain ⟨p, hp⟩ := hreturns (by decide +kernel) (by decide)
  have hnames : (collect variedNames {} 0).toOption.map (·.table.names) =
      some ["ListAllResponse", "Schema2fa", "UserProfile", "InlineObject3"] := by decide +kernel
  rw [hp] at hnames
  exact ⟨p, hp, Option.some.inj hnames, (hvalid p hp).2⟩

end Run

end ApiGraph.Naming
