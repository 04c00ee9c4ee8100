import ApiGraph.Proofs.Reachability.Following
import ApiGraph.Proofs.Reference.Navigation
import ApiGraph.Proofs.Resolve.Selection

namespace ApiGraph.Reachability

open Reference

section Pointer

variable {s : Store} {document : NodeId} {name : String} {v w : Value}

-- The name stands for itself in a pointer.
def IsSimple (name : String) : Prop := name ≠ "" ∧ IsPlain name

instance (name : String) : Decidable (IsSimple name) := inferInstanceAs (Decidable (_ ∧ _))

-- What a reference to the response leads to as a pointer.
def pointed? (s : Store) (document : NodeId) (name : String) : Option Value :=
  (Reference.resolve s (.node document) (pointerPart (responsePointer ++ name))).toOption

-- The responses are a list, whose members a pointer reaches by their positions.
def ListsResponses (s : Store) (document : NodeId) : Prop :=
  ∃ id, follow s (.node document) ["components", "responses"] = .ok (.node id) ∧ (s.sequence? id).isSome

theorem pointerPart_responsePointer (name : String) :
    pointerPart (responsePointer ++ name) = "/components/responses/" ++ name := by
  have hshape : responsePointer ++ name = "#" ++ ("/components/responses/" ++ name) := by
    rw [← String.append_assoc]
    rfl
  rw [hshape, pointerPart_internal]

-- Every such reference is a pointer into the responses.
theorem segments_response (name : String) :
    segments (pointerPart (responsePointer ++ name)) = "components" :: "responses" :: segmentsBehind name.toList := by
  have hlist : (pointerPart (responsePointer ++ name)).toList =
      '/' :: ("components".toList ++ '/' :: ("responses".toList ++ '/' :: name.toList)) := by
    rw [pointerPart_responsePointer, String.toList_append]
    rfl
  exact segments_component (by decide) (by decide) hlist

-- The section of the responses is where the pointer to them leads, if that is a mapping.
theorem components?_eq_some_iff {id : NodeId} {m : Entries} :
    s.components? document "responses" = some (id, m) ↔
      follow s (.node document) ["components", "responses"] = .ok (.node id) ∧ s.mapping? id = some m := by
  have hcomponents : Text.integer? 10 "components".toList = none := by decide
  have hresponses : Text.integer? 10 "responses".toList = none := by decide
  have hfirst (v : Value) : follow s (.node document) ["components"] = .ok v ↔
      step s (.node document) "components" = .ok v := by
    show step s (.node document) "components" >>= pure = .ok v ↔ _
    rw [bind_pure]
  have hpath : ["components", "responses"] = ["components"] ++ ["responses"] := rfl
  rw [hpath, follow_concat]
  constructor
  · intro h
    obtain ⟨outer, fields, houter, hinner⟩ := Store.components?_eq_some.mp h
    obtain ⟨hstep, -⟩ := (fieldMapping?_iff_step hcomponents).mp houter
    obtain ⟨hstep', hm⟩ := (fieldMapping?_iff_step hresponses).mp hinner
    exact ⟨⟨_, (hfirst _).mpr hstep, hstep'⟩, hm⟩
  · rintro ⟨⟨inner, hinner, hstep⟩, hm⟩
    obtain ⟨outer, fields, rfl, hfields, -⟩ := (step_key hresponses).mp hstep
    exact Store.components?_eq_some.mpr ⟨outer, fields,
      (fieldMapping?_iff_step hcomponents).mpr ⟨(hfirst _).mp hinner, hfields⟩,
      (fieldMapping?_iff_step hresponses).mpr ⟨hstep, hm⟩⟩

theorem not_listsResponses (h : (s.components? document "responses").isSome) : ¬ListsResponses s document := by
  rintro ⟨id, hfollow, hitems⟩
  obtain ⟨⟨id', m⟩, hresponses⟩ := Option.isSome_iff_exists.mp h
  obtain ⟨hfollow', hm⟩ := components?_eq_some_iff.mp hresponses
  obtain rfl := Value.node.inj (Except.ok.inj (hfollow.symm.trans hfollow'))
  obtain ⟨items, hitems⟩ := Option.isSome_iff_exists.mp hitems
  cases (Store.mapping?_eq_some.mp hm).symm.trans (Store.sequence?_eq_some.mp hitems)

theorem field?_responseComponents_eq_some_iff :
    (responseComponents s document).field? name = some w ↔
      ∃ id m, s.components? document "responses" = some (id, m) ∧ m.field? name = some w := by
  unfold responseComponents
  cases s.components? document "responses" with
  | none => simp [Entries.field?, OrderedMap.get?]
  | some found =>
      obtain ⟨id, m⟩ := found
      simp

-- The component of that name is what the pointer leads to.
theorem pointed?_eq_field? (hname : IsSimple name) (hlist : ¬ListsResponses s document) :
    pointed? s document name = (responseComponents s document).field? name := by
  refine Option.ext fun w => ?_
  have hpath : ["components", "responses", name] = ["components", "responses"] ++ [name] := rfl
  have htoOption (x : Except PointerError Value) : x.toOption = some w ↔ x = .ok w := by
    cases x <;> simp [Except.toOption]
  unfold pointed? Reference.resolve
  rw [segments_response, segmentsBehind_of_isPlain hname.2 hname.1, hpath, htoOption, follow_concat,
    field?_responseComponents_eq_some_iff]
  constructor
  · rintro ⟨inner, hinner, hstep⟩
    obtain ⟨id, rfl, ⟨m, hm, hw⟩ | ⟨items, hitems, -⟩⟩ := step_eq_ok_iff.mp hstep
    · exact ⟨id, m, components?_eq_some_iff.mpr ⟨hinner, hm⟩, hw⟩
    · exact absurd ⟨id, hinner, by rw [hitems]; rfl⟩ hlist
  · rintro ⟨id, m, hcomponents, hw⟩
    obtain ⟨hinner, hm⟩ := components?_eq_some_iff.mp hcomponents
    exact ⟨.node id, hinner, (step_mapping hm).mpr hw⟩

end Pointer

section Lost

variable {path rest : List String} {name : String}

def referenceTo (name : String) : Entries := OrderedMap.empty.insert (.str refKey) (.str (responsePointer ++ name))

-- The components with a response at the end of the path, and nothing beside it.
def responseAt (rest : List String) : Store := Resolve.ladderStore ("components" :: "responses" :: rest)

-- The same, and a reference that stands nowhere.
def referenceInto (rest : List String) (name : String) : Store :=
  ((responseAt rest).alloc (.mapping (referenceTo name))).2

theorem ref?_referenceTo (name : String) : (referenceTo name).ref? = some (responsePointer ++ name) := by
  unfold referenceTo Entries.ref? Entries.text? Entries.field?
  rw [OrderedMap.get?_insert, if_pos BEq.rfl]
  rfl

theorem get?_responseAt (h : path <:+ "components" :: "responses" :: rest) :
    (responseAt rest).get? path.length = some (Resolve.rung path) := by
  simpa [responseAt, Resolve.ladderStore, Store.get?] using Resolve.getElem?_ladder h

theorem mapping?_referenceInto {m : Entries} (h : path <:+ "components" :: "responses" :: rest)
    (hm : Resolve.rung path = .mapping m) : (referenceInto rest name).mapping? path.length = some m := by
  have hget := get?_responseAt h
  unfold referenceInto
  rw [Store.mapping?_alloc_of_lt (Store.lt_size_of_get? hget), Store.mapping?_eq_some, hget, hm]

theorem follow_referenceInto {start tail : List String}
    (h : "components" :: "responses" :: rest = start ++ tail) :
    follow (referenceInto rest name) (.node (rest.length + 2)) start = .ok (.node tail.length) :=
  follow_alloc _ ((Resolve.follow_ladderStore (List.suffix_refl _)).mpr ⟨tail, h, rfl⟩)

-- The only response is named by the first segment of the path.
theorem exists_responses (rest : List String) (name : String) :
    ∃ id m, (referenceInto rest name).components? (rest.length + 2) "responses" = some (id, m) ∧
      ∀ key w, m.field? key = some w → rest.head? = some key := by
  have hsuffix : rest <:+ "components" :: "responses" :: rest := ⟨["components", "responses"], rfl⟩
  obtain ⟨m, hm⟩ : ∃ m, Resolve.rung rest = .mapping m := by
    cases rest with
    | nil => exact ⟨_, rfl⟩
    | cons _ _ => exact ⟨_, rfl⟩
  refine ⟨rest.length, m, components?_eq_some_iff.mpr
    ⟨follow_referenceInto rfl, mapping?_referenceInto hsuffix hm⟩, fun key w hw => ?_⟩
  have hheld : (responseAt rest).mapping? rest.length = some m :=
    Store.mapping?_eq_some.mpr (hm ▸ get?_responseAt hsuffix)
  obtain ⟨tail, rfl, -⟩ := (Resolve.step_ladderStore hsuffix).mp ((step_mapping hheld).mpr hw)
  rfl

-- Under a name that does not stand for itself a response is lost: what the reference leads to as a pointer
-- has another name.
theorem exists_lost (hname : ¬IsSimple name) :
    ∃ s document v m, (s.components? document "responses").isSome ∧
      FollowsTo s (pointed? s document) v [name] (some m) ∧
      followResponse s (responseComponents s document) v = none := by
  obtain ⟨rest, hpath, hhead⟩ : ∃ rest,
      segments (pointerPart (responsePointer ++ name)) = "components" :: "responses" :: rest ∧
        (rest.head? = some name → IsPlain name ∧ name ≠ "") :=
    ⟨_, segments_response name, isPlain_of_head?_segmentsBehind⟩
  obtain ⟨id, m, hresponses, hfields⟩ := exists_responses rest name
  have hreference : (referenceInto rest name).mapping? (responseAt rest).nodes.size = some (referenceTo name) :=
    Store.mapping?_alloc_self
  have href := ref?_referenceTo name
  have hempty : (referenceInto rest name).mapping? 0 = some .empty := mapping?_referenceInto List.nil_suffix rfl
  have hpointed : pointed? (referenceInto rest name) (rest.length + 2) name = some (.node 0) := by
    unfold pointed? Reference.resolve
    rw [hpath, follow_referenceInto (List.append_nil _).symm]
    rfl
  have hmissing : (responseComponents (referenceInto rest name) (rest.length + 2)).field? name = none := by
    rw [Option.eq_none_iff_forall_ne_some]
    intro w hw
    obtain ⟨id', m', hresponses', hw⟩ := field?_responseComponents_eq_some_iff.mp hw
    obtain ⟨rfl, rfl⟩ := Prod.mk.inj (Option.some.inj (hresponses.symm.trans hresponses'))
    exact hname (hhead (hfields name w hw)).symm
  refine ⟨referenceInto rest name, rest.length + 2, .node (responseAt rest).nodes.size, .empty,
    by rw [hresponses]; rfl,
    ⟨List.nodup_singleton name, .node 0, .next hreference href hpointed (.here _),
      .response hempty fun _ h => nomatch h⟩, ?_⟩
  exact followResponse_eq_iff.mpr ⟨[], List.nodup_nil, _, .here _, .missing hreference href hmissing⟩

end Lost

section Responses

-- A response is followed along its references to the first mapping that is none, and to nothing if there
-- comes a value that is no mapping, a name without a response, or a name for the second time; the
-- responses bound the length of the way. As pointers the references lead to the same place where every
-- name on the way stands for itself in a pointer, a list of responses aside. Under each other name there is
-- a document where the pointer leads to a response and the reference to nothing.
theorem followResponse_by_pointer (s : Store) (document : NodeId) (v : Value) :
    (∀ r, followResponse s (responseComponents s document) v = r ↔
      ∃ names, FollowsTo s (responseComponents s document).field? v names r) ∧
    (∀ names r, FollowsTo s (responseComponents s document).field? v names r →
      names.length ≤ (responseComponents s document).size) ∧
    ((∀ name, Meets s (responseComponents s document).field? v name → IsSimple name) →
      ¬ListsResponses s document →
        ∀ r, followResponse s (responseComponents s document) v = r ↔
          ∃ names, FollowsTo s (pointed? s document) v names r) ∧
    ∀ name, ¬IsSimple name →
      ∃ s document v m, (s.components? document "responses").isSome ∧
        FollowsTo s (pointed? s document) v [name] (some m) ∧
        followResponse s (responseComponents s document) v = none := by
  refine ⟨fun r => followResponse_eq_iff, fun names r => FollowsTo.length_le, fun hsimple hlist r => ?_,
    fun name => exists_lost⟩
  have hsame (name : String) (hmeets : Meets s (responseComponents s document).field? v name) :
      (responseComponents s document).field? name = pointed? s document name :=
    (pointed?_eq_field? (hsimple name hmeets) hlist).symm
  obtain ⟨names, hway⟩ := followsTo_followResponse s (responseComponents s document) v
  have hpointed := hway.congr hsame
  constructor
  · rintro rfl
    exact ⟨names, hpointed⟩
  · rintro ⟨names', hway'⟩
    exact (hpointed.unique hway').2

-- Two responses, and a reference to each; the name of the second one has a slash in it.
def slashedName : Store :=
  ⟨#[
    .ofFields [("components", .node 1)],
    .ofFields [("responses", .node 2)],
    .ofFields [("User", .node 3), ("a/b", .node 3)],
    .ofFields [("description", .str "ok")],
    .ofFields [("$ref", .str "#/components/responses/User")],
    .ofFields [("$ref", .str "#/components/responses/a~1b")]]⟩

theorem slashedName_lost :
    (∃ names, FollowsTo slashedName (pointed? slashedName 0) (.node 4) names
      (followResponse slashedName (responseComponents slashedName 0) (.node 4))) ∧
      (followResponse slashedName (responseComponents slashedName 0) (.node 4)).isSome ∧
      pointed? slashedName 0 "a~1b" = some (.node 3) ∧
      followResponse slashedName (responseComponents slashedName 0) (.node 5) = none ∧
      ∃ s document v m, (s.components? document "responses").isSome ∧
        FollowsTo s (pointed? s document) v ["a~1b"] (some m) ∧
        followResponse s (responseComponents s document) v = none := by
  obtain ⟨-, -, hpointer, hlost⟩ := followResponse_by_pointer slashedName 0 (.node 4)
  have hsimple : ∀ name, Meets slashedName (responseComponents slashedName 0).field? (.node 4) name →
      IsSimple name := by
    intro name hmeets
    have href : (slashedName.entries 4).ref? = some (responsePointer ++ "User") := by decide +kernel
    rcases hmeets.cases (m := slashedName.entries 4) rfl with hname | ⟨first, w, hfirst, hw, hrest⟩
    · rw [eq_of_ref? hname href]
      decide
    · rw [eq_of_ref? hfirst href] at hw
      have hthree : (responseComponents slashedName 0).field? "User" = some (.node 3) := by decide +kernel
      obtain rfl := Option.some.inj (hthree.symm.trans hw)
      have hnone : (slashedName.entries 3).ref? = none := by decide +kernel
      rcases hrest.cases (m := slashedName.entries 3) rfl with hname | ⟨_, _, hname, -, -⟩
      · cases hnone.symm.trans hname
      · cases hnone.symm.trans hname
  have hpath : (slashedName.components? 0 "responses").isSome := by decide +kernel
  exact ⟨(hpointer hsimple (not_listsResponses hpath) _).mp rfl, by decide +kernel, by decide +kernel,
    by decide +kernel, hlost "a~1b" (by decide)⟩

end Responses

end ApiGraph.Reachability
