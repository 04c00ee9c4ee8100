import ApiGraph.Proofs.Document.Graph
import ApiGraph.Proofs.Reference.SchemaName
import ApiGraph.Reference.Pointer
import ApiGraph.Schema.Composition

namespace ApiGraph.Reference

open ApiGraph.Text

section Name

variable {ref name p : String} {path : List String}

theorem pointerPart_internal (p : String) : pointerPart ("#" ++ p) = p := by
  have hlist : ("#" ++ p).toList = '#' :: p.toList := by
    rw [String.toList_append]
    rfl
  unfold pointerPart split
  rw [hlist]
  simp [cutFirst]

theorem getLast?_segments_ne (p : String) : (segments p).getLast? ≠ some "" := by
  intro hlast
  have hpieces : ((segments p).map String.toList).getLast? ≠ some [] := by
    rw [toList_segments, List.getLast?_map]
    exact map_unescape_ne (getLast?_pieces_ne p)
  rw [List.getLast?_map, hlast] at hpieces
  exact hpieces rfl

-- A reference names whatever stands last behind the schemas.
theorem schemaName?_eq_some_iff :
    schemaName? ref = some name ↔
      ∃ inner, segments (pointerPart ref) = "components" :: "schemas" :: (inner ++ [name]) := by
  have hne := getLast?_segments_ne (pointerPart ref)
  have hpart : String.ofList (cutFirst '#' ref.toList).2 = pointerPart ref := rfl
  unfold schemaName?
  rw [hpart]
  generalize segments (pointerPart ref) = path at hne
  constructor
  · intro h
    split at h
    · next first rest =>
      obtain ⟨hlast, -⟩ := Option.filter_eq_some_iff.mp h
      obtain ⟨inner, hinner⟩ := List.getLast?_eq_some_iff.mp hlast
      exact ⟨inner, by rw [hinner]⟩
    · cases h
  · rintro ⟨inner, rfl⟩
    have hname : name ≠ "" := by simpa [List.getLast?_cons] using hne
    obtain ⟨first, rest, hinner⟩ := List.exists_cons_of_ne_nil (show inner ++ [name] ≠ [] by simp)
    rw [hinner]
    show ((first :: rest).getLast?).filter (· != "") = some name
    rw [← hinner]
    simp [hname]

end Name

section Following

variable {s : Store} {id document : NodeId} {m registry : Entries} {v held : Value} {name p : String}
  {path : List String}

theorem step_mapping (hm : s.mapping? id = some m) :
    step s (.node id) name = .ok v ↔ m.field? name = some v := by
  have hget := Store.mapping?_eq_some.mp hm
  unfold step Entries.field?
  simp only [hget]
  cases m.get? (.str name) <;> simp

theorem follow_concat :
    follow s v (path ++ [name]) = .ok held ↔
      ∃ inner, follow s v path = .ok inner ∧ step s inner name = .ok held := by
  unfold follow
  rw [List.foldlM_append]
  cases path.foldlM (step s) v with
  | error e => simp [bind, Except.bind]
  | ok inner =>
      show step s inner name >>= pure = .ok held ↔ _
      rw [bind_pure]
      simp

theorem step_fieldMapping (h : s.fieldMapping? document name = some (id, registry)) :
    step s (.node document) name = .ok (.node id) := by
  obtain ⟨m, hm, hentry⟩ := Store.mapping?_of_fieldMapping? h
  exact (step_mapping hm).mpr hentry

-- A pointer into the schemas starts over at the registry.
theorem resolve_registry (hregistry : s.registry? document = some (id, registry))
    (hpath : segments p = "components" :: "schemas" :: path) :
    resolve s (.node document) p = follow s (.node id) path := by
  obtain ⟨⟨outer, components⟩, hcomponents, hschemas⟩ := Option.bind_eq_some_iff.mp hregistry
  have houter : step s (.node document) "components" = .ok (.node outer) := step_fieldMapping hcomponents
  have hinner : step s (.node outer) "schemas" = .ok (.node id) := step_fieldMapping hschemas
  unfold resolve follow
  rw [hpath, List.foldlM_cons, houter]
  show List.foldlM (step s) (.node outer) ("schemas" :: path) = _
  rw [List.foldlM_cons, hinner]
  rfl

theorem mapping?_of_schemas (h : s.registry? document = some (id, registry)) :
    s.mapping? id = some registry := by
  obtain ⟨_, _, hschemas⟩ := Option.bind_eq_some_iff.mp h
  exact (Store.fieldMapping?_eq_some.mp hschemas).2

end Following

end ApiGraph.Reference

namespace ApiGraph.Composition

open ApiGraph.Reference

section Target

variable {s : Store} {schema document target : NodeId} {p : String}

-- A reference is followed to the mapping that the registry has under its name.
theorem followRef_eq_iff (hne : target ≠ schema) :
    followRef s (some document) schema = target ↔
      ∃ ref name id registry, (s.entries schema).ref? = some ref ∧ schemaName? ref = some name ∧
        s.registry? document = some (id, registry) ∧ registry.field? name = some (.node target) ∧
        (s.mapping? target).isSome := by
  unfold followRef
  rw [Option.getD_eq_iff]
  constructor
  · rintro (h | ⟨-, rfl⟩)
    · obtain ⟨ref, href, h⟩ := Option.bind_eq_some_iff.mp h
      obtain ⟨name, hname, h⟩ := Option.bind_eq_some_iff.mp h
      rw [Option.bind_eq_bind, Option.bind_some] at h
      obtain ⟨⟨id, registry⟩, hregistry, h⟩ := Option.bind_eq_some_iff.mp h
      obtain ⟨value, hentry, h⟩ := Option.bind_eq_some_iff.mp h
      obtain ⟨⟨found, m⟩, hm, h⟩ := Option.bind_eq_some_iff.mp h
      obtain rfl : found = target := Option.some.inj h
      obtain ⟨rfl, hmapping⟩ := Store.asMapping?_eq_some.mp hm
      exact ⟨ref, name, id, registry, href, hname, hregistry, hentry, by rw [hmapping]; rfl⟩
    · exact absurd rfl hne
  · rintro ⟨ref, name, id, registry, href, hname, hregistry, hentry, hm⟩
    obtain ⟨m, hm⟩ := Option.isSome_iff_exists.mp hm
    left
    simp [href, hname, hregistry, hentry, Store.asMapping?, hm]

-- The name of a reference is the last segment of a pointer into the schemas, however long that is. The
-- pointer leads to the mapping that is found by name exactly if it has no segment before the name, or
-- if what these segments lead to in the registry has that very mapping under the name.
theorem followRef_eq_resolve_iff (href : (s.entries schema).ref? = some ("#" ++ p))
    (htarget : followRef s (some document) schema = target) (hne : target ≠ schema) :
    (∀ name, schemaName? ("#" ++ p) = some name ↔
      ∃ inner, segments p = "components" :: "schemas" :: (inner ++ [name])) ∧
    ∃ inner name id registry,
      segments p = "components" :: "schemas" :: (inner ++ [name]) ∧
      s.registry? document = some (id, registry) ∧
      registry.field? name = some (.node target) ∧
      (resolve s (.node document) p = .ok (.node target) ↔
        inner = [] ∨ ∃ held, follow s (.node id) inner = .ok held ∧
          step s held name = .ok (.node target)) := by
  have hnames (name : String) : schemaName? ("#" ++ p) = some name ↔
      ∃ inner, segments p = "components" :: "schemas" :: (inner ++ [name]) := by
    rw [schemaName?_eq_some_iff, pointerPart_internal]
  obtain ⟨ref, name, id, registry, href', hname, hregistry, hentry, -⟩ :=
    (followRef_eq_iff hne).mp htarget
  obtain rfl : "#" ++ p = ref := Option.some.inj (href.symm.trans href')
  obtain ⟨inner, hpath⟩ := (hnames name).mp hname
  refine ⟨hnames, inner, name, id, registry, hpath, hregistry, hentry, ?_⟩
  rw [resolve_registry hregistry hpath, follow_concat]
  constructor
  · exact .inr
  · rintro (rfl | hheld)
    · exact ⟨.node id, rfl, (step_mapping (mapping?_of_schemas hregistry)).mpr hentry⟩
    · exact hheld

-- The component `A` has a property `B`, and there is a component `B` that is something else.
def sameInnerName : Store :=
  ⟨#[
    .ofFields [("components", .node 1)],
    .ofFields [("schemas", .node 2)],
    .ofFields [("A", .node 3), ("B", .node 4)],
    .ofFields [("properties", .node 5)],
    .ofFields [("type", .str "integer")],
    .ofFields [("B", .node 6)],
    .ofFields [("type", .str "string")],
    .ofFields [("$ref", .str "#/components/schemas/A/properties/B")]]⟩

-- The reference to the property is taken for one to the component.
theorem sameInnerName_differs :
    followRef sameInnerName (some 0) 7 = 4 ∧
      resolve sameInnerName (.node 0) "/components/schemas/A/properties/B" = .ok (.node 6) ∧
      ∃ inner name id registry,
        segments "/components/schemas/A/properties/B" =
          "components" :: "schemas" :: (inner ++ [name]) ∧
        sameInnerName.registry? 0 = some (id, registry) ∧
        registry.field? name = some (.node 4) ∧
        ¬(inner = [] ∨ ∃ held, follow sameInnerName (.node id) inner = .ok held ∧
          step sameInnerName held name = .ok (.node 4)) := by
  have hfollow : followRef sameInnerName (some 0) 7 = 4 := by decide +kernel
  have hresolve : resolve sameInnerName (.node 0) "/components/schemas/A/properties/B" = .ok (.node 6) := by
    decide +kernel
  have href : (sameInnerName.entries 7).ref? = some ("#" ++ "/components/schemas/A/properties/B") := by
    decide +kernel
  obtain ⟨-, inner, name, id, registry, hpath, hregistry, hentry, hiff⟩ :=
    followRef_eq_resolve_iff href hfollow (by decide)
  refine ⟨hfollow, hresolve, inner, name, id, registry, hpath, hregistry, hentry, fun hsame => ?_⟩
  rw [hresolve] at hiff
  cases hiff.mpr hsame

end Target

end ApiGraph.Composition
