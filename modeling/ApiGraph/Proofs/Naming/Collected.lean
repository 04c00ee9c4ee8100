import ApiGraph.Proofs.Naming.Scan

namespace ApiGraph.Naming

section Bodies

variable {s : Store} {c : Scope} {p q : Progress} {n : NodeId} {f : Fault}
  {l : List (Entries × Value)} {counter : Nat}

-- The bodies of all responses, each with the operation around it.
def responseBodies (s : Store) (document : NodeId) : List (Entries × Value) :=
  (s.operations document).flatMap fun o => (bodies s o.fields).map (o.fields, ·)

def IsBody (s : Store) (document : NodeId) (n : NodeId) : Prop :=
  ∃ o ∈ s.operations document, Value.node n ∈ bodies s o.fields

def propertyKeys (s : Store) (n : NodeId) : List Key :=
  ((properties? s (s.entries n)).getD .empty).keys

theorem firstCollection?_str (text : String) (rest : List Key) : firstCollection? (.str text :: rest) =
    (collectionOf? text).elim (firstCollection? rest) fun base =>
      .ok (some (Identifier.ofText (Identifier.capitalizeFirst base))) := by
  rw [firstCollection?]
  dsimp only [Key.str]
  cases collectionOf? text <;> rfl

-- Neither the only property makes a name, nor is one that looks like a collection found without
-- stumbling over another property.
def KeysFail (keys : List Key) (f : Fault) : Prop :=
  (∃ key, keys = [key] ∧ propertyIdentifier key = .error f) ∨
    keys.length ≠ 1 ∧ firstCollection? keys = .error f

theorem responseName_eq_error_iff {operationId : Option String} {keys : List Key} :
    responseName operationId keys counter = .error f ↔ KeysFail keys f := by
  unfold responseName KeysFail
  split
  next key => simp
  next hne =>
    have hone : ¬∃ key, keys = [key] ∧ propertyIdentifier key = .error f := by
      rintro ⟨key, h, -⟩
      exact hne key h
    have hlength : keys.length ≠ 1 := by
      intro h
      obtain ⟨key, rfl⟩ := List.length_eq_one_iff.mp h
      exact hne key rfl
    cases hfirst : firstCollection? keys with
    | error e => simp [hone, hlength, bind, Except.bind]
    | ok found =>
        simp only [hone, reduceCtorEq, and_false, or_false, iff_false]
        intro h
        cases found with
        | some name => cases h
        | none => cases hid : operationId.filter (· != "") <;> simp [hid, bind, Except.bind, pure, Except.pure] at h

-- A schema that is named where it is a response body.
def IsNamedBody (c : Scope) (l : List (Entries × Value)) (n : NodeId) : Prop :=
  (∃ e ∈ l, e.2 = .node n) ∧ IsInline c n

theorem isNamedBody_cons {e : Entries × Value} :
    IsNamedBody c (e :: l) n ↔ e.2 = .node n ∧ IsInline c n ∨ IsNamedBody c l n := by
  simp only [IsNamedBody, List.mem_cons, or_and_right, exists_or, exists_eq_left]

structure BodiesNamed (c : Scope) (l : List (Entries × Value)) (p q : Progress) : Prop where
  visited : q.visited = p.visited
  limits : q.limits = p.limits
  named : ∀ n, q.table.contains n = true ↔ p.table.contains n = true ∨ IsNamedBody c l n
  told : ∀ n f, IsNamedBody c l n → ¬KeysFail (propertyKeys c.store n) f

-- A value that names no mapping, or one without fields, is passed by.
theorem not_isInline (h : c.store.asMapping? (.node n) = none) : ¬IsInline c n := by
  rintro ⟨-, hnameable⟩
  have hnone : c.store.mapping? n = none := by simpa [Store.asMapping?] using h
  have hempty : c.store.entries n = .empty := by simp [Store.entries, hnone]
  rw [hempty] at hnameable
  cases hnameable

theorem isNamedBody_cons_of_not {e : Entries × Value} (hno : ∀ n, e.2 = .node n → ¬IsInline c n) :
    IsNamedBody c (e :: l) n ↔ IsNamedBody c l n := by
  rw [isNamedBody_cons]
  exact ⟨fun h => h.resolve_left fun hv => hno n hv.1 hv.2, .inr⟩

theorem bodiesNamed_nil : BodiesNamed c [] p p := by
  have hnone (n : NodeId) : ¬IsNamedBody c [] n := by
    rintro ⟨⟨e, he, -⟩, -⟩
    cases he
  exact ⟨rfl, rfl, fun n => ⟨.inl, fun h => h.resolve_right (hnone n)⟩, fun n f h => absurd h (hnone n)⟩

theorem BodiesNamed.skip {e : Entries × Value} (h : BodiesNamed c l p q)
    (hno : ∀ n, e.2 = .node n → ¬IsInline c n) : BodiesNamed c (e :: l) p q where
  visited := h.visited
  limits := h.limits
  named n := by rw [h.named, isNamedBody_cons_of_not hno]
  told n f hn := h.told n f ((isNamedBody_cons_of_not hno).mp hn)

theorem BodiesNamed.assign {e : Entries × Value} {id : NodeId} {name : String} {events : List Event}
    (h : BodiesNamed c l { p with table := (p.table.assign id name).1, events := events } q)
    (he : e.2 = .node id) (hfit : IsInline c id) (htold : ∀ f, ¬KeysFail (propertyKeys c.store id) f) :
    BodiesNamed c (e :: l) p q where
  visited := h.visited
  limits := h.limits
  named n := by
    rw [h.named, contains_assign, or_assoc, isNamedBody_cons, he]
    refine or_congr_right (or_congr_left ⟨?_, fun hn => (Value.node.inj hn.1).symm⟩)
    rintro rfl
    exact ⟨rfl, hfit⟩
  told n f hn := by
    rcases isNamedBody_cons.mp hn with ⟨heq, -⟩ | hn
    · obtain rfl := Value.node.inj (he.symm.trans heq)
      exact htold f
    · exact h.told n f hn

theorem ends_nameBodies (l : List (Entries × Value)) (counter : Nat) (p : Progress) :
    Ends (nameBodies c l counter) p (fun _ => BodiesNamed c l p) fun f =>
      ∃ n, IsNamedBody c l n ∧ KeysFail (propertyKeys c.store n) f := by
  induction l generalizing counter p with
  | nil => exact ends_pure.mpr bodiesNamed_nil
  | cons e rest ih =>
      obtain ⟨operation, v⟩ := e
      have hpass (hno : ∀ n, v = .node n → ¬IsInline c n) :
          Ends (nameBodies c rest counter) p (fun _ => BodiesNamed c ((operation, v) :: rest) p) fun f =>
            ∃ n, IsNamedBody c ((operation, v) :: rest) n ∧ KeysFail (propertyKeys c.store n) f := by
        simp only [isNamedBody_cons_of_not (e := (operation, v)) hno]
        exact (ih counter p).mono (fun _ _ hq => hq.skip hno) fun _ => id
      unfold nameBodies
      cases hv : c.store.asMapping? v with
      | none =>
          refine hpass fun n hn => ?_
          rw [hn] at hv
          exact not_isInline hv
      | some found =>
          obtain ⟨id, m⟩ := found
          obtain ⟨rfl, hm⟩ := Store.asMapping?_eq_some.mp hv
          obtain rfl := Store.entries_of_mapping? hm
          dsimp only
          by_cases hfit : IsInline c id
          · have hhere : IsNamedBody c ((operation, Value.node id) :: rest) id :=
              isNamedBody_cons.mpr (.inl ⟨rfl, hfit⟩)
            rw [if_neg (by simp [hfit.1, hfit.2]), ends_bind]
            refine ends_lift (fun name hname => ?_) fun f hf => ⟨id, hhere, responseName_eq_error_iff.mp hf⟩
            have htold (f : Fault) : ¬KeysFail (propertyKeys c.store id) f := fun hfails => by
              have herror : responseName (operation.text? "operationId") (propertyKeys c.store id) counter =
                  .error f := responseName_eq_error_iff.mpr hfails
              cases hname.symm.trans herror
            unfold Naming.assign
            rw [ends_bind, ends_modify]
            refine (ih (counter + 1) _).mono (fun _ _ hq => hq.assign rfl hfit htold) ?_
            rintro f ⟨n, hn, hf⟩
            exact ⟨n, isNamedBody_cons.mpr (.inr hn), hf⟩
          · rw [if_pos (by simpa [IsInline, ← not_and_or, imp_iff_not_or] using hfit)]
            refine hpass fun n hn => ?_
            obtain rfl := Value.node.inj hn
            exact hfit

end Bodies

section Pass

variable {s : Store} {settings : NamingSettings} {document n : NodeId} {p : Progress} {f : Fault}

def scopeOf (s : Store) (settings : NamingSettings) (document : NodeId) : Scope :=
  ⟨s, componentIds s document, settings.maxDepth⟩

def start : Progress := ⟨.empty, [], [], []⟩

theorem isNamedBody_iff : IsNamedBody (scopeOf s settings document) (responseBodies s document) n ↔
    IsBody s document n ∧ IsInline (scopeOf s settings document) n := by
  unfold IsNamedBody IsBody responseBodies
  simp only [List.mem_flatMap, List.mem_map]
  refine and_congr_left fun _ => ⟨?_, ?_⟩
  · rintro ⟨e, ⟨o, ho, value, hvalue, rfl⟩, rfl⟩
    exact ⟨o, ho, hvalue⟩
  · rintro ⟨o, ho, hvalue⟩
    exact ⟨_, ⟨o, ho, _, hvalue, rfl⟩, rfl⟩

theorem BodiesNamed.contains {q : Progress}
    (h : BodiesNamed (scopeOf s settings document) (responseBodies s document) start q) :
    q.table.contains n = true ↔ IsBody s document n ∧ IsInline (scopeOf s settings document) n := by
  rw [h.named, isNamedBody_iff]
  exact or_iff_right Bool.false_ne_true

-- The components, as the scan comes to them.
def rootVisits (s : Store) (document : NodeId) : List Visit :=
  (componentIds s document).map (⟨·, none, false⟩)

theorem BodiesNamed.settled {c : Scope} {l : List (Entries × Value)} {q : Progress} (h : BodiesNamed c l start q) :
    Settled s [] q.visited := by
  refine ⟨List.nil_subset _, fun a ha => ?_⟩
  rw [h.visited] at ha
  cases ha

-- Nothing is seen before the scan.
theorem BodiesNamed.due_iff {c : Scope} {l : List (Entries × Value)} {q : Progress} {v : Visit}
    {L : List Visit} (h : BodiesNamed c l start q) :
    Due c [] L q v ↔ First c.store [] L v ∧ IsFit c v := by
  refine ⟨fun h => ⟨h.first, h.fit⟩, fun hv => ⟨hv.1, ?_, hv.2⟩⟩
  rw [h.visited]
  exact List.not_mem_nil

-- Chains of schemas that a scan follows to the end.
def IsShallow (s : Store) (settings : NamingSettings) (document : NodeId) : Prop :=
  ∀ l, Chain s (componentIds s document) l → (l.length : Int) ≤ settings.maxDepth

-- The whole pass. The allowance is left open, so that no proof counts it out.
def pass (c : Scope) (document : NodeId) (allowance : Nat) : Collect Unit := do
  nameBodies c (responseBodies c.store document) 1
  (rootVisits c.store document).forM (scanVisit c allowance 0)

theorem pass_eq {c : Scope} {allowance : Nat} : pass c document allowance = (do
    nameResponses c document
    (componentIds c.store document).forM (scan c allowance 0 none false)) := by
  have hroots : (rootVisits c.store document).forM (scanVisit c allowance 0) =
      (componentIds c.store document).forM (scan c allowance 0 none false) := by
    unfold rootVisits
    rw [List.forM_eq_forM, List.forM_map]
    rfl
  unfold pass
  rw [hroots]
  rfl

theorem collect_eq : collect s settings document =
    ((pass (scopeOf s settings document) document nestingAllowance).run start).map Prod.snd := by
  rw [pass_eq]
  unfold collect
  generalize nestingAllowance = allowance
  have hmap (x : Except Fault (Unit × Progress)) : (x >>= fun e => pure e.2) = x.map Prod.snd := by
    cases x <;> rfl
  exact hmap _

-- The bodies are named, then the components are scanned.
def ReturnsAs (s : Store) (settings : NamingSettings) (document : NodeId) (p : Progress) : Prop :=
  ∃ q, BodiesNamed (scopeOf s settings document) (responseBodies s document) start q ∧
    Outcome (scopeOf s settings document) (IsShallow s settings document) [] (rootVisits s document) q p

def FailsAs (s : Store) (settings : NamingSettings) (document : NodeId) (f : Fault) : Prop :=
  (∃ n, IsNamedBody (scopeOf s settings document) (responseBodies s document) n ∧
    KeysFail (propertyKeys s n) f) ∨
  ∃ q, BodiesNamed (scopeOf s settings document) (responseBodies s document) start q ∧
    (settings.maxDepth + 1 < nestingAllowance →
      Failed (scopeOf s settings document) (IsShallow s settings document) [] (rootVisits s document) q f)

theorem collect_cases (s : Store) (settings : NamingSettings) (document : NodeId) :
    (∃ p, collect s settings document = .ok p ∧ ReturnsAs s settings document p) ∨
      ∃ f, collect s settings document = .error f ∧ FailsAs s settings document f := by
  have hends : Ends (pass (scopeOf s settings document) document nestingAllowance) start
      (fun _ => ReturnsAs s settings document) (FailsAs s settings document) := by
    unfold pass
    rw [ends_bind]
    refine (ends_nameBodies _ 1 start).mono (fun _ q hq => ?_) fun f hf => .inl hf
    refine (ends_scanAll (fun v hv r hr => ?_) (List.nil_subset _)).mono (fun _ p hp => ⟨q, hq, hp⟩)
      fun f hf => .inr ⟨q, hq, hf⟩
    obtain ⟨id, hid, rfl⟩ := List.mem_map.mp hv
    exact ends_scanVisit (fun h => h) (fun h => h) (Nat.zero_add _) (.inr rfl) rfl .nil
      (fun _ => .root hid) hr
  rw [collect_eq]
  rcases hrun : (pass (scopeOf s settings document) document nestingAllowance).run start with f | ⟨_, p⟩
  · exact .inr ⟨f, rfl, (ends_of_error hrun).mp hends⟩
  · exact .inl ⟨p, rfl, (ends_of_ok hrun).mp hends⟩

end Pass

end ApiGraph.Naming
