import ApiGraph.Proofs.Naming.Collected

namespace ApiGraph.Naming

variable {s : Store} {settings : NamingSettings} {document : NodeId} {p : Progress} {f : Fault} {n : NodeId}
  {v w : Visit}

def HasTextKeys (s : Store) : Prop :=
  ∀ id m, s.mapping? id = some m → ∀ key ∈ m.keys, ∃ text, key = .str text

theorem isSome_string?_iff {key : Key} : key.string?.isSome = true ↔ ∃ text, key = .str text := by
  constructor
  · intro h
    obtain ⟨text, htext⟩ := Option.isSome_iff_exists.mp h
    unfold Key.string? at htext
    split at htext
    · next hscalar => exact ⟨_, congrArg Key.mk hscalar⟩
    · cases htext
  · rintro ⟨text, rfl⟩
    rfl

instance (s : Store) : Decidable (HasTextKeys s) :=
  decidable_of_iff (∀ i : Fin s.nodes.size, ∀ key ∈ (s.entries i).keys, key.string?.isSome = true) <| by
    constructor
    · intro h id m hm key hkey
      have hlt := Store.lt_size_of_get? (Store.mapping?_eq_some.mp hm)
      exact isSome_string?_iff.mp (h ⟨id, hlt⟩ key (Store.entries_of_mapping? hm ▸ hkey))
    · intro h i key hkey
      cases hm : s.mapping? i with
      | none =>
          rw [Store.entries, hm] at hkey
          cases hkey
      | some m => exact isSome_string?_iff.mpr (h i m hm key (Store.entries_of_mapping? hm ▸ hkey))

section TextKeys

theorem exists_mapping_of_properties? {m props : Entries} (h : properties? s m = some props) :
    ∃ id, s.mapping? id = some props := by
  obtain ⟨⟨id, props'⟩, hfound, rfl⟩ := Option.map_eq_some_iff.mp h
  obtain ⟨value, -, hvalue⟩ := Option.bind_eq_some_iff.mp hfound
  exact ⟨id, (Store.asMapping?_eq_some.mp hvalue).2⟩

theorem HasTextKeys.propertyKeys (h : HasTextKeys s) {key : Key} (hkey : key ∈ propertyKeys s n) :
    ∃ text, key = .str text := by
  unfold Naming.propertyKeys at hkey
  cases hprops : properties? s (s.entries n) with
  | none =>
      rw [hprops] at hkey
      cases hkey
  | some props =>
      rw [hprops] at hkey
      obtain ⟨id, hid⟩ := exists_mapping_of_properties? hprops
      exact h id props hid key hkey

theorem firstCollection?_of_text {keys : List Key} (h : ∀ key ∈ keys, ∃ text, key = .str text) :
    firstCollection? keys ≠ .error f := by
  induction keys with
  | nil =>
      intro hf
      cases hf
  | cons key rest ih =>
      obtain ⟨text, rfl⟩ := h _ List.mem_cons_self
      rw [firstCollection?_str]
      cases collectionOf? text with
      | some base =>
          intro hf
          cases hf
      | none => exact ih fun key hkey => h key (List.mem_cons_of_mem _ hkey)

theorem not_keysFail {keys : List Key} (h : ∀ key ∈ keys, ∃ text, key = .str text) : ¬KeysFail keys f := by
  rintro (⟨key, rfl, hf⟩ | ⟨-, hf⟩)
  · obtain ⟨text, rfl⟩ := h key List.mem_cons_self
    cases hf
  · exact firstCollection?_of_text h hf

-- The property around a visit is a key of the document.
theorem Way.property_text (h : HasTextKeys s) (hv : Way s (rootVisits s document) v) {key : Key}
    (hkey : v.property = some key) : ∃ text, key = .str text := by
  induction hv generalizing key with
  | root hv =>
      obtain ⟨id, -, rfl⟩ := List.mem_map.mp hv
      cases hkey
  | @part v w hv hw ih =>
      unfold Visit.parts at hw
      split at hw
      · cases hw
      · rcases List.mem_append.mp hw with hw | hw
        · obtain ⟨id, -, rfl⟩ := List.mem_map.mp hw
          exact ih hkey
        · rcases List.mem_append.mp hw with hw | hw
          · obtain ⟨e, he, hfound⟩ := List.mem_filterMap.mp hw
            obtain ⟨found, -, rfl⟩ := Option.map_eq_some_iff.mp hfound
            obtain rfl : e.1 = key := Option.some.inj hkey
            exact h.propertyKeys (List.mem_map_of_mem he)
          · obtain ⟨id, -, rfl⟩ := List.mem_map.mp hw
            exact ih hkey

theorem collect_returns (hkeys : HasTextKeys s) (hroom : settings.maxDepth + 1 < nestingAllowance) :
    ∃ p, collect s settings document = .ok p := by
  rcases collect_cases s settings document with ⟨p, hp, -⟩ | ⟨f, -, hf⟩
  · exact ⟨p, hp⟩
  · exfalso
    rcases hf with ⟨n, -, hf⟩ | ⟨q, -, hf⟩
    · exact not_keysFail (fun key => hkeys.propertyKeys) hf
    · obtain ⟨v, hv, hfails⟩ := (hf hroom).way
      obtain ⟨-, key, hkey, -, hid⟩ := hfails.fails
      obtain ⟨text, rfl⟩ := hv.property_text hkeys hkey
      cases hid

end TextKeys

section Named

-- A pass that met no limit has scanned everything.
theorem scanned_of_collect (h : collect s settings document = .ok p) (hlimits : p.limits = []) :
    ∃ q, BodiesNamed (scopeOf s settings document) (responseBodies s document) start q ∧
      Scanned (scopeOf s settings document) [] (rootVisits s document) q p := by
  rcases collect_cases s settings document with
    ⟨p', hp, q, hbodies, hscan⟩ | ⟨f, hf, -⟩
  · obtain rfl : p = p' := Except.ok.inj (h.symm.trans hp)
    exact ⟨q, hbodies, hscan.scanned hbodies.settled (hlimits.trans hbodies.limits.symm)⟩
  · cases h.symm.trans hf

theorem contains_iff (h : collect s settings document = .ok p) (hlimits : p.limits = []) (n : NodeId) :
    p.table.contains n = true ↔ isNameable s (s.entries n) = true ∧ n ∉ componentIds s document ∧
      (IsBody s document n ∨
        ∃ v, First s [] (rootVisits s document) v ∧ v.node = n ∧ v.inComposition = false) := by
  obtain ⟨q, hbodies, hscan⟩ := scanned_of_collect h hlimits
  rw [hscan.named, hbodies.contains]
  simp only [hbodies.due_iff]
  constructor
  · rintro (⟨hbody, htop, hnameable⟩ | ⟨v, ⟨hfirst, hplain, htop, hnameable⟩, rfl⟩)
    · exact ⟨hnameable, htop, .inl hbody⟩
    · exact ⟨hnameable, htop, .inr ⟨v, hfirst, rfl, hplain⟩⟩
  · rintro ⟨hnameable, htop, hbody | ⟨v, hfirst, rfl, hplain⟩⟩
    · exact .inl ⟨hbody, htop, hnameable⟩
    · exact .inr ⟨v, ⟨hfirst, hplain, htop, hnameable⟩, rfl⟩

-- On a document with text keys the pass returns. If it met no limit, a schema has a name exactly if it is
-- an object written inline and either a response body or such that the first way to it leads through no
-- composition. So every name goes to a body or to what the components hold as properties and items, and of
-- these only schemas are missed that stand in a composition as well.
theorem collect_named (s : Store) (settings : NamingSettings) (document : NodeId) :
    (HasTextKeys s → settings.maxDepth + 1 < nestingAllowance → ∃ p, collect s settings document = .ok p) ∧
    ∀ p, collect s settings document = .ok p → p.limits = [] →
      (∀ n, p.table.contains n = true ↔
        isNameable s (s.entries n) = true ∧ n ∉ componentIds s document ∧
          (IsBody s document n ∨
            ∃ v, First s [] (rootVisits s document) v ∧ v.node = n ∧ v.inComposition = false)) ∧
      (∀ n, p.table.contains n = true → IsBody s document n ∨
        ∃ v, Way s (rootVisits s document) v ∧ v.node = n ∧ v.inComposition = false) ∧
      ∀ v, Way s (rootVisits s document) v → v.inComposition = false →
        isNameable s (s.entries v.node) = true → v.node ∉ componentIds s document →
          p.table.contains v.node = true ∨
            ∃ w, Way s (rootVisits s document) w ∧ w.node = v.node ∧ w.inComposition = true := by
  refine ⟨collect_returns, fun p hp hlimits => ⟨contains_iff hp hlimits, fun n hn => ?_, ?_⟩⟩
  · obtain ⟨-, -, hbody | ⟨v, hfirst, hnode, hplain⟩⟩ := (contains_iff hp hlimits n).mp hn
    · exact .inl hbody
    · exact .inr ⟨v, hfirst.way fun u hu => .root hu, hnode, hplain⟩
  · intro v hv hplain hnameable htop
    obtain ⟨w, hnode, hfirst⟩ := exists_first hv.leads
    cases hcomposed : w.inComposition with
    | false => exact .inl ((contains_iff hp hlimits _).mpr ⟨hnameable, htop, .inr ⟨w, hfirst, hnode, hcomposed⟩⟩)
    | true => exact .inr ⟨w, hfirst.way fun u hu => .root hu, hnode, hcomposed⟩

-- Two components, and a schema that is a branch of one and a property of the other one.
def sharedBranch (components : List (String × Value)) : Store :=
  ⟨#[
    .ofFields [("components", .node 1)],
    .ofFields [("schemas", .node 2)],
    .ofFields components,
    .ofFields [("allOf", .node 5)],
    .ofFields [("properties", .node 6)],
    .sequence [.node 7],
    .ofFields [("k", .node 7)],
    .ofFields [("type", .str "object"), ("properties", .node 8)],
    .ofFields []]⟩

theorem exists_of_summary {b : Bool} (h : (collect s settings document).toOption.map
    (fun p => (p.limits, p.table.contains n)) = some ([], b)) :
    ∃ p, collect s settings document = .ok p ∧ p.limits = [] ∧ p.table.contains n = b := by
  cases hcollect : collect s settings document with
  | error f =>
      rw [hcollect] at h
      cases h
  | ok p =>
      rw [hcollect] at h
      have hpair := Prod.mk.inj (Option.some.inj h)
      exact ⟨p, rfl, hpair.1, hpair.2⟩

-- The schema is missed if the composition comes first, and named if it comes last.
theorem sharedBranch_missed :
    (∃ p, collect (sharedBranch [("A", .node 3), ("B", .node 4)]) {} 0 = .ok p ∧ p.limits = [] ∧
      p.table.contains 7 = false ∧
      ∃ w, Way (sharedBranch [("A", .node 3), ("B", .node 4)])
        (rootVisits (sharedBranch [("A", .node 3), ("B", .node 4)]) 0) w ∧ w.node = 7 ∧
          w.inComposition = true) ∧
    ∃ p, collect (sharedBranch [("B", .node 4), ("A", .node 3)]) {} 0 = .ok p ∧ p.limits = [] ∧
      p.table.contains 7 = true := by
  refine ⟨?_, exists_of_summary (by decide +kernel)⟩
  obtain ⟨hreturns, hnamed⟩ := collect_named (sharedBranch [("A", .node 3), ("B", .node 4)]) {} 0
  obtain ⟨p, hp⟩ := hreturns (by decide +kernel) (by decide)
  obtain ⟨p', hp', hlimits, hmissed⟩ : ∃ p, collect (sharedBranch [("A", .node 3), ("B", .node 4)]) {} 0 =
      .ok p ∧ p.limits = [] ∧ p.table.contains 7 = false := exists_of_summary (by decide +kernel)
  obtain rfl : p = p' := Except.ok.inj (hp.symm.trans hp')
  obtain ⟨v, hv, hnode, hplain⟩ : ∃ v ∈ Visit.parts (sharedBranch [("A", .node 3), ("B", .node 4)]) ⟨4, none, false⟩,
      v.node = 7 ∧ v.inComposition = false := by decide +kernel
  have hroot : (⟨4, none, false⟩ : Visit) ∈ rootVisits (sharedBranch [("A", .node 3), ("B", .node 4)]) 0 :=
    List.mem_map_of_mem (by decide +kernel)
  have hcomposed := (hnamed p hp hlimits).2.2 v (.part (.root hroot) hv) hplain
    (by rw [hnode]; decide +kernel) (by rw [hnode]; decide +kernel)
  rw [hnode, hmissed] at hcomposed
  exact ⟨p, hp, hlimits, hmissed, hcomposed.resolve_left Bool.false_ne_true⟩

end Named

end ApiGraph.Naming
