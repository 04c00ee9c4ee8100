import ApiGraph.Proofs.Naming.Collected

namespace ApiGraph.Naming

variable {s : Store} {settings : NamingSettings} {document n : NodeId} {key : Key} {keys : List Key} {f : Fault}
  {v : Visit}

section Keys

theorem propertyIdentifier_eq_error (h : propertyIdentifier key = .error f) :
    key.string? = none ∧ key.scalar ≠ .bytes [] ∧ (f = .keyNotText ∨ f = .keyWithoutLetters) := by
  unfold propertyIdentifier at h
  unfold Key.string?
  split at h
  · cases h
  · cases h
  · next bytes hne hscalar =>
    cases h
    rw [hscalar]
    exact ⟨rfl, fun heq => hne (Scalar.bytes.inj heq), .inr rfl⟩
  · next hstr hempty _ =>
    cases h
    refine ⟨?_, hempty, .inl rfl⟩
    split
    · next text hscalar => exact absurd hscalar (hstr text)
    · rfl

theorem exists_propertyIdentifier_error (hkey : key.string? = none) (hne : key.scalar ≠ .bytes []) :
    ∃ f, propertyIdentifier key = .error f := by
  unfold Key.string? at hkey
  unfold propertyIdentifier
  split at hkey
  · cases hkey
  · next hstr =>
    split
    · next text hscalar => exact absurd hscalar (hstr text)
    · next hscalar => exact absurd hscalar hne
    · exact ⟨_, rfl⟩
    · exact ⟨_, rfl⟩

-- No name can be made of the properties: the only one is not text, or one that is not text stands before
-- every property that looks like a collection.
def Blocked (keys : List Key) : Prop :=
  (∃ key, keys = [key] ∧ key.string? = none ∧ key.scalar ≠ .bytes []) ∨
    ∃ before key after, keys = before ++ key :: after ∧ keys.length ≠ 1 ∧ key.string? = none ∧
      ∀ k ∈ before, ∃ text, k = .str text ∧ collectionOf? text = none

theorem firstCollection?_eq_error (h : firstCollection? keys = .error f) :
    (f = .keyNotText ∨ f = .keyWithoutLetters) ∧
      ∃ before key after, keys = before ++ key :: after ∧ key.string? = none ∧
        ∀ k ∈ before, ∃ text, k = .str text ∧ collectionOf? text = none := by
  induction keys with
  | nil => cases h
  | cons key rest ih =>
      obtain ⟨scalar⟩ := key
      cases scalar with
      | str text =>
          have hstep := firstCollection?_str text rest
          rw [Key.str] at hstep
          rw [hstep] at h
          cases hnone : collectionOf? text with
          | some base =>
              rw [hnone] at h
              cases h
          | none =>
              rw [hnone] at h
              obtain ⟨hfault, before, key, after, rfl, hkey, hbefore⟩ := ih h
              exact ⟨hfault, ⟨.str text⟩ :: before, key, after, rfl, hkey,
                List.forall_mem_cons.mpr ⟨⟨text, rfl, hnone⟩, hbefore⟩⟩
      | bytes _ =>
          cases h
          exact ⟨.inl rfl, [], _, rest, rfl, rfl, List.forall_mem_nil _⟩
      | null | bool _ | int _ | float _ | date _ | dateTime _ =>
          cases h
          exact ⟨.inr rfl, [], _, rest, rfl, rfl, List.forall_mem_nil _⟩

theorem exists_firstCollection?_error {before : List Key} (after : List Key) (hkey : key.string? = none)
    (hbefore : ∀ k ∈ before, ∃ text, k = .str text ∧ collectionOf? text = none) :
    ∃ f, firstCollection? (before ++ key :: after) = .error f := by
  induction before with
  | nil =>
      obtain ⟨scalar⟩ := key
      cases scalar with
      | str text => cases hkey
      | null | bool _ | int _ | float _ | date _ | dateTime _ | bytes _ => exact ⟨_, rfl⟩
  | cons k rest ih =>
      obtain ⟨⟨text, rfl, hnone⟩, hrest⟩ := List.forall_mem_cons.mp hbefore
      obtain ⟨f, hf⟩ := ih hrest
      refine ⟨f, ?_⟩
      rw [List.cons_append, firstCollection?_str, hnone]
      exact hf

theorem KeysFail.blocked (h : KeysFail keys f) : (f = .keyNotText ∨ f = .keyWithoutLetters) ∧ Blocked keys := by
  rcases h with ⟨key, rfl, hf⟩ | ⟨hlength, hf⟩
  · obtain ⟨hkey, hne, hfault⟩ := propertyIdentifier_eq_error hf
    exact ⟨hfault, .inl ⟨key, rfl, hkey, hne⟩⟩
  · obtain ⟨hfault, before, key, after, hkeys, hkey, hbefore⟩ := firstCollection?_eq_error hf
    exact ⟨hfault, .inr ⟨before, key, after, hkeys, hlength, hkey, hbefore⟩⟩

theorem Blocked.exists_keysFail (h : Blocked keys) : ∃ f, KeysFail keys f := by
  rcases h with ⟨key, rfl, hkey, hne⟩ | ⟨before, key, after, rfl, hlength, hkey, hbefore⟩
  · obtain ⟨f, hf⟩ := exists_propertyIdentifier_error hkey hne
    exact ⟨f, .inl ⟨key, rfl, hf⟩⟩
  · obtain ⟨f, hf⟩ := exists_firstCollection?_error after hkey hbefore
    exact ⟨f, .inr ⟨hlength, hf⟩⟩

-- The schema has no title, and the property around it is a key that is not text.
def Untold (s : Store) (v : Visit) : Prop :=
  ((s.entries v.node).text? "title").filter (· != "") = none ∧
    ∃ key, v.property = some key ∧ key.scalar.isTruthy = true ∧ key.string? = none

theorem NameFails.untold (h : NameFails s v f) : (f = .keyNotText ∨ f = .keyWithoutLetters) ∧ Untold s v := by
  obtain ⟨htitle, key, hkey, htruthy, hf⟩ := h
  obtain ⟨hstring, -, hfault⟩ := propertyIdentifier_eq_error hf
  exact ⟨hfault, htitle, key, hkey, htruthy, hstring⟩

theorem Untold.exists_nameFails (h : Untold s v) : ∃ f, NameFails s v f := by
  obtain ⟨htitle, key, hkey, htruthy, hstring⟩ := h
  have hne : key.scalar ≠ .bytes [] := by
    intro hempty
    rw [hempty] at htruthy
    cases htruthy
  obtain ⟨f, hf⟩ := exists_propertyIdentifier_error hstring hne
  exact ⟨f, htitle, key, hkey, htruthy, hf⟩

end Keys

section Collect

-- A body that is to be named, with properties of which no name can be made.
def HasBlockedBody (s : Store) (document : NodeId) : Prop :=
  ∃ n, IsBody s document n ∧ n ∉ componentIds s document ∧ isNameable s (s.entries n) = true ∧
    Blocked (propertyKeys s n)

-- A visit that is to name a schema which no body is, and has nothing to make the name from.
def IsNameless (s : Store) (document : NodeId) (v : Visit) : Prop :=
  v.inComposition = false ∧ v.node ∉ componentIds s document ∧
    isNameable s (s.entries v.node) = true ∧ ¬IsBody s document v.node ∧ Untold s v

theorem Unnamed.isNameless {q : Progress}
    (hq : BodiesNamed (scopeOf s settings document) (responseBodies s document) start q)
    (h : Unnamed (scopeOf s settings document) q v f) :
    (f = .keyNotText ∨ f = .keyWithoutLetters) ∧ IsNameless s document v := by
  obtain ⟨hplain, htop, hnameable⟩ := h.fit
  obtain ⟨hfault, huntold⟩ := h.fails.untold
  refine ⟨hfault, hplain, htop, hnameable, fun hbody => ?_, huntold⟩
  have hin := hq.contains.mpr ⟨hbody, htop, hnameable⟩
  rw [h.unnamed] at hin
  cases hin

theorem exists_error_of_blocked (h : HasBlockedBody s document) :
    ∃ f, collect s settings document = .error f := by
  obtain ⟨n, hbody, htop, hnameable, hblocked⟩ := h
  rcases collect_cases s settings document with ⟨p, -, q, hq, -⟩ | ⟨f, hf, -⟩
  · obtain ⟨f, hfails⟩ := hblocked.exists_keysFail
    exact absurd hfails (hq.told n f (isNamedBody_iff.mpr ⟨hbody, htop, hnameable⟩))
  · exact ⟨f, hf⟩

-- A depth that the nesting allows never ends the pass; what ends it is a key that is not text. It ends the
-- pass where it stands in a body, and on the first way to a schema, if the scan goes far enough.
theorem collect_fails (s : Store) (settings : NamingSettings) (document : NodeId)
    (hroom : settings.maxDepth + 1 < nestingAllowance) :
    (∀ f, collect s settings document = .error f →
      (f = .keyNotText ∨ f = .keyWithoutLetters) ∧
        (HasBlockedBody s document ∨ ∃ v, Way s (rootVisits s document) v ∧ IsNameless s document v)) ∧
    (HasBlockedBody s document → ∃ f, collect s settings document = .error f) ∧
    (IsShallow s settings document → ((∃ f, collect s settings document = .error f) ↔
      HasBlockedBody s document ∨
        ∃ v, First s [] (rootVisits s document) v ∧ IsNameless s document v)) := by
  refine ⟨fun f hf => ?_, exists_error_of_blocked, fun hshallow => ⟨?_, ?_⟩⟩
  · rcases collect_cases s settings document with
      ⟨p, hp, -⟩ | ⟨f', hf', hfails⟩
    · cases hf.symm.trans hp
    · obtain rfl : f = f' := Except.error.inj (hf.symm.trans hf')
      rcases hfails with ⟨n, hn, hkeys⟩ | ⟨q, hq, hfailed⟩
      · obtain ⟨hfault, hblocked⟩ := hkeys.blocked
        obtain ⟨hbody, htop, hnameable⟩ := isNamedBody_iff.mp hn
        exact ⟨hfault, .inl ⟨n, hbody, htop, hnameable, hblocked⟩⟩
      · obtain ⟨v, hway, hv⟩ := (hfailed hroom).way
        obtain ⟨hfault, hnameless⟩ := hv.isNameless hq
        exact ⟨hfault, .inr ⟨v, hway, hnameless⟩⟩
  · rintro ⟨f, hf⟩
    rcases collect_cases s settings document with
      ⟨p, hp, -⟩ | ⟨f', hf', hfails⟩
    · cases hf.symm.trans hp
    · rcases hfails with ⟨n, hn, hkeys⟩ | ⟨q, hq, hfailed⟩
      · obtain ⟨hbody, htop, hnameable⟩ := isNamedBody_iff.mp hn
        exact .inl ⟨n, hbody, htop, hnameable, hkeys.blocked.2⟩
      · obtain ⟨v, hdue, hv⟩ := (hfailed hroom).due hq.settled hshallow
        exact .inr ⟨v, hdue.first, (hv.isNameless hq).2⟩
  · rintro (hbody | ⟨v, hfirst, hplain, htop, hnameable, hbody, huntold⟩)
    · exact exists_error_of_blocked hbody
    · rcases collect_cases s settings document with
        ⟨p, -, q, hq, hscan⟩ | ⟨f, hf, -⟩
      · obtain ⟨f, hfails⟩ := huntold.exists_nameFails
        have hdue := hq.due_iff.mpr ⟨hfirst, hplain, htop, hnameable⟩
        refine absurd hfails ((hscan.scanned hq.settled (hscan.unlimited hshallow)).told v f hdue ?_)
        rw [Bool.eq_false_iff, Ne, hq.contains]
        exact fun hin => hbody hin.1
      · exact ⟨f, hf⟩

-- A document of no more containers than the depth is shallow.
theorem isShallow_of_size (h : (s.nodes.size : Int) ≤ settings.maxDepth) : IsShallow s settings document := by
  intro l hl
  have hroot : ∀ a ∈ componentIds s document, a < s.nodes.size := by
    intro a ha
    unfold componentIds at ha
    split at ha
    · obtain ⟨value, -, hvalue⟩ := List.mem_filterMap.mp ha
      obtain ⟨⟨id, m⟩, hm, rfl⟩ := Option.map_eq_some_iff.mp hvalue
      exact lt_size_of_asMapping? hm
    · cases ha
  have hinside : l.Nodup ∧ l.toFinset ⊆ Finset.range s.nodes.size := by
    induction hl with
    | nil => simp
    | root ha => simpa using hroot _ ha
    | held _ hb hn ih =>
        refine ⟨List.nodup_cons.mpr ⟨hn, ih.1⟩, ?_⟩
        rw [List.toFinset_cons]
        exact Finset.insert_subset (Finset.mem_range.mpr (held_lt_size hb)) ih.2
  have hcard := Finset.card_le_card hinside.2
  rw [List.toFinset_card_of_nodup hinside.1, Finset.card_range] at hcard
  omega

-- A component with a property whose key is a number.
def numberedProperty : Store :=
  ⟨#[
    .ofFields [("components", .node 1)],
    .ofFields [("schemas", .node 2)],
    .ofFields [("A", .node 3)],
    .ofFields [("properties", .node 4)],
    .mapping (.ofList [(⟨.int 404⟩, .node 5)]),
    .ofFields [("type", .str "object"), ("properties", .node 6)],
    .ofFields []]⟩

theorem numberedProperty_fails :
    collect numberedProperty {} 0 = .error .keyNotText ∧
      ∃ v, First numberedProperty [] (rootVisits numberedProperty 0) v ∧ IsNameless numberedProperty 0 v := by
  have hfails : collect numberedProperty {} 0 = .error .keyNotText := by
    have hfault : (collect numberedProperty {} 0).map (fun _ => ()) = .error .keyNotText := by decide +kernel
    cases h : collect numberedProperty {} 0 with
    | error f =>
        rw [h] at hfault
        rw [Except.error.inj hfault]
    | ok p =>
        rw [h] at hfault
        cases hfault
  refine ⟨hfails, ?_⟩
  obtain ⟨-, -, hiff⟩ := collect_fails numberedProperty {} 0 (by decide)
  have hshallow : IsShallow numberedProperty {} 0 := isShallow_of_size (by decide)
  refine ((hiff hshallow).mp ⟨_, hfails⟩).resolve_left ?_
  rintro ⟨n, ⟨o, ho, -⟩, -⟩
  have hnone : (numberedProperty.operations 0).isEmpty = true := by decide +kernel
  rw [List.isEmpty_iff.mp hnone] at ho
  cases ho

end Collect

end ApiGraph.Naming
