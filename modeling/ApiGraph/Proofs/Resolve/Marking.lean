import ApiGraph.Proofs.Resolve.WalkRecording

namespace ApiGraph.Resolve

open Store Reference

section Circular

variable (c : Context) (s : Store) (h : History)

-- From what the reference names one gets back to it.
def Circular (node : NodeId) (ref : String) : Prop :=
  ∃ start, Points c h false node ref start ∧ Leads c s h false start node

-- Where the walk came to besides the targets of references: the document of a file that it walked as a
-- whole, or a component that was brought in.
def Aside (x : NodeId) : Prop :=
  (∃ l, .follow l x true ∈ h) ∨
    ∃ e d b, e ++ [d] <+: h ∧ d.brings = true ∧ .node x ∉ (after c s e).children b ∧
      .node x ∈ (after c s (e ++ [d])).children b

-- What the reference names leads back to it only by way of something aside.
def Strayed (node : NodeId) (ref : String) : Prop :=
  (∃ start, Points c h true node ref start ∧ Leads c s h true start node) ∧
    ∃ x, Aside c s h x ∧ Leads c s h false x node

-- Its target is a reference too, and the walk left that as it was: for its mark, or for a limit.
def TargetLeft (node : NodeId) (ref : String) : Prop :=
  ∃ target, Aims c h node ref target ∧ isExternalRef ((after c s h).entries target) = true ∧
    (Passed c s h target ∨ ∃ l, .limit l ∈ h)

variable {c s h}

-- A way that is loose is strict from the last step that is not.
theorem Leads.strict_or_aside {a b : NodeId} (hl : Leads c s h true a b) :
    Leads c s h false a b ∨ ∃ x, Aside c s h x ∧ Leads c s h false x b := by
  induction hl with
  | refl => exact .inl .refl
  | child _ he hbirth hx ih =>
      rcases ih with hstrict | ⟨x, haside, hstrict⟩
      · exact .inl (hstrict.child he hbirth hx)
      · exact .inr ⟨x, haside, hstrict.child he hbirth hx⟩
  | @ref b y target whole _ hf _ ih =>
      cases whole with
      | true => exact .inr ⟨y, .inl ⟨_, hf⟩, .refl⟩
      | false =>
          rcases ih with hstrict | ⟨x, haside, hstrict⟩
          · exact .inl (hstrict.ref hf id)
          · exact .inr ⟨x, haside, hstrict.ref hf id⟩
  | @brought b y e d _ _ he hd hnew hx _ => exact .inr ⟨y, .inr ⟨e, d, b, he, hd, hnew, hx⟩, .refl⟩

theorem Closes.cases {node : NodeId} {ref : String} (hc : Closes c s h node ref) :
    Circular c s h node ref ∨ Strayed c s h node ref ∨ TargetLeft c s h node ref := by
  cases hc with
  | @back start hpoints hleads =>
      obtain ⟨link, key, whole, hlocates, htext, hfollow, -⟩ := id hpoints
      rcases hleads.strict_or_aside with hstrict | haside
      · cases whole with
        | true =>
            exact .inr (.inl ⟨⟨start, hpoints, hleads⟩, start, .inl ⟨link, hfollow⟩, hstrict⟩)
        | false => exact .inl ⟨start, ⟨link, key, false, hlocates, htext, hfollow, id⟩, hstrict⟩
      · exact .inr (.inl ⟨⟨start, hpoints, hleads⟩, haside⟩)
  | @passed target haims hext hpassed => exact .inr (.inr ⟨target, haims, hext, .inl hpassed⟩)
  | @limited target l haims hext hlimit => exact .inr (.inr ⟨target, haims, hext, .inr ⟨l, hlimit⟩⟩)

end Circular

section Call

variable {s : Store} {q : Request}

-- What is marked is a reference. It is circular, or it stands below what was walked or brought in
-- besides its target, or its target stays a reference for another reason.
theorem marked_circular_or (hdoc : (s.mapping? q.document).isSome) :
    ∃ h, q.HasHistory s h ∧ ∀ pre node ref name, pre ++ [.mark node ref name] <+: h →
      Carried q.context s pre node ref ∧
        (Circular q.context s pre node ref ∨ Strayed q.context s pre node ref ∨
          TargetLeft q.context s pre node ref) := by
  obtain ⟨h, hh⟩ := exists_history hdoc
  refine ⟨h, hh, fun pre node ref name hpre => ?_⟩
  have hlegit := (hh.lawful.of_prefix hpre).last
  cases hlegit with
  | mark _ _ hcarried hcloses => exact ⟨hcarried, hcloses.cases⟩

-- A reference into a file that has a second reference to the same target.
def sharedTarget : Store :=
  ⟨#[
    .ofFields [("id", .node 1)],
    .ofFields [("$ref", .str "m.json#/I")]]⟩

def sharedTargetCall : Request :=
  let file := "\x7b\"I\":\x7b\x7d,\"u\":\x7b\"$ref\":\"m.json#/I\"\x7d\x7d"
  ⟨0, none, {}, [], [], none, ⟨.mk [("m.json", .bytes file.toUTF8)] .nil, ⟨1, []⟩⟩⟩

-- The second one is marked when the file is walked for the first one.
theorem marked_sharedTarget : ∃ h, sharedTargetCall.HasHistory sharedTarget h ∧
    ∃ pre name, pre ++ [.mark 5 "m.json#/I" name] <+: h ∧
      (Circular sharedTargetCall.context sharedTarget pre 5 "m.json#/I" ∨
        Strayed sharedTargetCall.context sharedTarget pre 5 "m.json#/I" ∨
        TargetLeft sharedTargetCall.context sharedTarget pre 5 "m.json#/I") := by
  obtain ⟨h, hh, hmarks⟩ := @marked_circular_or sharedTarget sharedTargetCall (by decide)
  have hin : .circular 5 "m.json#/I" ∈ (references sharedTarget sharedTargetCall).events := by
    decide +kernel
  obtain ⟨pre, name, hpre⟩ := hh.exists_mark hin
  exact ⟨h, hh, pre, name, hpre, (hmarks pre 5 "m.json#/I" name hpre).2⟩

end Call

end ApiGraph.Resolve
