import ApiGraph.Proofs.Resolve.Displacement
import ApiGraph.Proofs.Resolve.WalkRecording

namespace ApiGraph.Resolve

open Store Reference

section Sources

variable (c : Context) (s : Store) (files : List (String × NodeId)) (h : History)

def IsDocument (d : NodeId) : Prop := d = c.document ∨ ∃ key, Known files h key d

def Displaced (v : NodeId) : Prop :=
  ∃ pre d, pre ++ [d] <+: h ∧ Displaces c.document (after c s pre) v d

-- It can be reached from a document.
def Alive (x : NodeId) : Prop := ∃ d, IsDocument c files h d ∧ (after c s h).Reach d x

-- It can be reached from a container that was displaced.
def Adrift (x : NodeId) : Prop := ∃ v, Displaced c s h v ∧ (after c s h).Reach v x

-- What leaves its place in a document becomes a source itself, so nothing that is held gets lost.
def Held (x : NodeId) : Prop := Alive c s files h x ∨ Adrift c s h x

-- Nothing that is held is given up, and nothing is held again that was not.
structure Persists : Prop where
  onward : ∀ e, e <+: h → ∀ x, Held c s files e x → Held c s files h x
  back : ∀ e, e <+: h → ∀ x, x < (after c s e).nodes.size → Held c s files h x → Held c s files e x

end Sources

section Steps

variable {c : Context} {root : Scope} {s : Store} {files : List (String × NodeId)} {h h' : History}
  {d : Deed} {a b x : NodeId}

theorem IsDocument.mono (hd : IsDocument c files h a) (hpre : h <+: h') : IsDocument c files h' a :=
  hd.imp_right fun hknown => hknown.imp fun _ hk => hk.mono hpre

theorem Displaced.mono (hd : Displaced c s h a) (hpre : h <+: h') : Displaced c s h' a := by
  obtain ⟨pre, d, hdone, hdisplaces⟩ := hd
  exact ⟨pre, d, hdone.trans hpre, hdisplaces⟩

theorem IsDocument.held (hd : IsDocument c files h a) : Held c s files h a := .inl ⟨a, hd, .refl⟩

theorem Displaced.held (hd : Displaced c s h a) : Held c s files h a := .inr ⟨a, hd, .refl⟩

theorem Held.reach (hb : Held c s files h b) (hx : (after c s h).Reach b x) : Held c s files h x := by
  rcases hb with ⟨d, hd, hreach⟩ | ⟨v, hv, hreach⟩
  · exact .inl ⟨d, hd, hreach.trans hx⟩
  · exact .inr ⟨v, hv, hreach.trans hx⟩

theorem Held.child (hb : Held c s files h b) (hx : .node x ∈ (after c s h).children b) :
    Held c s files h x := hb.reach (.step .refl hx)

-- What holds of the sources and goes down with the values holds of all that is held.
theorem Held.induct {P : NodeId → Prop} (hx : Held c s files h x)
    (hdocument : ∀ d, IsDocument c files h d → P d) (hdisplaced : ∀ v, Displaced c s h v → P v)
    (hchild : ∀ b x, P b → .node x ∈ (after c s h).children b → P x) : P x := by
  have down {a y : NodeId} (ha : P a) (hreach : (after c s h).Reach a y) : P y := by
    induction hreach with
    | refl => exact ha
    | step _ hstep ih => exact hchild _ _ ih hstep
  rcases hx with ⟨d, hd, hreach⟩ | ⟨v, hv, hreach⟩
  · exact down (hdocument d hd) hreach
  · exact down (hdisplaced v hv) hreach

theorem Held.step (hl : Lawful c s files (h ++ [d])) (hdoc : (s.mapping? c.document).isSome)
    (hx : Held c s files h x) : Held c s files (h ++ [d]) x := by
  have hpre : h <+: h ++ [d] := List.prefix_append h [d]
  refine hx.induct (fun a ha => (ha.mono hpre).held) (fun v hv => (hv.mono hpre).held) ?_
  intro b x hb hchild
  rcases hl.last.child_stays ((hl.of_prefix hpre).root hdoc) hchild with hstays | hdisplaces
  · rw [← after_concat] at hstays
    exact hb.child hstays
  · exact Displaced.held ⟨h, d, List.prefix_rfl, hdisplaces⟩

-- A document is known from before, or its file was read just then.
theorem IsDocument.before (hl : Lawful c s files (h ++ [d])) (ha : IsDocument c files (h ++ [d]) a) :
    IsDocument c files h a ∨ (after c s h).nodes.size ≤ a := by
  rcases ha with hroot | ⟨key, hknown⟩
  · exact .inl (.inl hroot)
  unfold Known at hknown
  rw [List.filterMap_append, ← List.append_assoc] at hknown
  rcases List.mem_append.mp hknown with hold | hnew
  · exact .inl (.inr ⟨key, hold⟩)
  · obtain ⟨d', hd', hfile⟩ := List.mem_filterMap.mp hnew
    obtain rfl := List.mem_singleton.mp hd'
    have hlegit := hl.last
    cases hlegit with
    | load hkey hread =>
        cases hfile
        exact .inr ((extends_parseFile hread).2.1 a rfl).1
    | _ => cases hfile

-- Of the containers that were given, only documents that were given are documents.
theorem IsDocument.at_start (hl : Lawful c s files h) (hdoc : (s.mapping? c.document).isSome)
    (ha : IsDocument c files h a) (hlt : a < s.nodes.size) : IsDocument c files [] a := by
  induction h using List.reverseRecOn with
  | nil => exact ha
  | append_singleton h d ih =>
      have hbefore := hl.of_prefix (List.prefix_append h [d])
      have hsize : s.nodes.size ≤ (after c s h).nodes.size :=
        (hbefore.keeps hdoc List.nil_prefix).size
      exact ih hbefore ((ha.before hl).resolve_right (Nat.not_le.mpr (Nat.lt_of_lt_of_le hlt hsize)))

-- A deed displaces what it can reach.
theorem Displaces.held (hd : Displaces c.document (after c s h) a d)
    (hsettled : ∀ node, d.settles? = some node → Held c s files h node) : Held c s files h a := by
  have hroot : Held c s files h c.document := IsDocument.held (.inl rfl)
  cases hd with
  | components _ hv => exact hroot.child (mem_children_of_field? hv)
  | @place _ _ comps m _ hcomps hv =>
      obtain ⟨hin, hm⟩ := fieldMapping?_eq_some.mp hcomps
      rw [← entries_of_mapping? hm] at hv
      exact (hroot.child (mem_children_of_field? hin)).child (mem_children_of_field? hv)
  | mark hv => exact (hsettled _ rfl).child (mem_children_of_field? hv)
  | inline hv => exact (hsettled _ rfl).child (mem_children_of_field? hv)

-- A deed reaches nothing old that was out of reach.
theorem Held.of_step (hl : Lawful c s files (h ++ [d])) (hdoc : (s.mapping? c.document).isSome)
    (hsettled : ∀ node, d.settles? = some node → Held c s files h node)
    (hbound : ∀ kind name target, d = .bind kind name target → Held c s files h target)
    (hcopied : ∀ node target ref name, d = .inline node target ref name → Held c s files h target)
    (hx : Held c s files (h ++ [d]) x) : (after c s h).nodes.size ≤ x ∨ Held c s files h x := by
  have hpre : h <+: h ++ [d] := List.prefix_append h [d]
  refine hx.induct (P := fun x => (after c s h).nodes.size ≤ x ∨ Held c s files h x)
    (fun a ha => ?_) (fun v hv => ?_) fun b x hb hchild => ?_
  · exact (ha.before hl).elim (fun hold => .inr hold.held) .inl
  · obtain ⟨pre, d', hdone, hdisplaces⟩ := hv
    rcases List.prefix_concat_iff.mp hdone with heq | hold
    · obtain ⟨rfl, hlast⟩ := List.append_inj' heq rfl
      cases hlast
      exact .inr (hdisplaces.held hsettled)
    · exact .inr (Displaced.held ⟨pre, d', hold, hdisplaces⟩)
  · rw [after_concat] at hchild
    have hroot := (hl.of_prefix hpre).root hdoc
    rcases hl.last.child_comes (fun _ => hroot) hchild with hold | hgains
    · have hlt := lt_size_of_mem_children hold
      exact .inr ((hb.resolve_left (by omega)).child hold)
    · cases hgains with
      | made _ hnew => exact .inl hnew
      | read _ hnew => exact .inl hnew
      | bound kind name => exact .inr (hbound kind name x rfl)
      | copied ref name hin => exact .inr ((hcopied _ _ ref name rfl).child hin)

end Steps

section Persistence

variable {c : Context} {root : Scope} {s : Store} {files : List (String × NodeId)} {h e : History}
  {d : Deed} {x : NodeId} {scope : Scope}

theorem isDocument_of_isScope (hs : IsScope c root files h scope)
    (hroot : root.document = c.document) : IsDocument c files h scope.document := by
  rcases hs with rfl | ⟨d, key, l, rfl, -, hknown⟩
  · exact .inl hroot
  · exact .inr ⟨key, hknown⟩

-- The walk comes only to what is held.
theorem Persists.within (hp : Persists c s files h) (hd : IsDocument c files h scope.document)
    (hw : Within c s files h scope x) : Held c s files h x := by
  induction hw with
  | document => exact hd.held
  | @lent x node key ref e hkey hlent hf =>
      obtain ⟨-, kind, name, key', d', -, hknown, -, hin⟩ := hlent
      have hheld : Held c s files e d' := IsDocument.held (.inr ⟨key', hknown⟩)
      exact hp.onward e ((List.prefix_append e _).trans hf) x (hheld.reach (reach_of_componentIn? hin))
  | @child b x e _ he hchild ih =>
      exact hp.onward e he x ((hp.back e he b (lt_size_of_mem_children hchild) ih).child hchild)

theorem Persists.comes (hp : Persists c s files h) (hroot : root.document = c.document)
    (hc : Comes c root s files h x) : Held c s files h x := by
  obtain ⟨scope, hscope, hwithin⟩ := hc
  exact hp.within (isDocument_of_isScope hscope hroot) hwithin

-- A reference leads to what is held.
theorem Led.held {link : Link} {start : NodeId} {whole : Bool}
    (hled : Led c s files e link start whole) : Held c s files e start := by
  obtain ⟨ref, key, d, -, -, -, hknown, hstart⟩ := hled
  have hd : Held c s files e d := IsDocument.held (.inr ⟨key, hknown⟩)
  split at hstart
  · exact hstart.2.1 ▸ hd
  · rcases hstart with ⟨-, rfl⟩ | hresolve | ⟨kind, name, key', d', -, hknown', hin⟩
    · exact hd
    · exact hd.reach (reach_of_follow hresolve)
    · have hd' : Held c s files e d' := IsDocument.held (.inr ⟨key', hknown'⟩)
      exact hd'.reach (reach_of_componentIn? hin)

theorem Persists.aims (hp : Persists c s files h) (hl : Lawful c s files h) {node target : NodeId}
    {ref : String} (ha : Aims c h node ref target) : Held c s files h target := by
  obtain ⟨key, -, hfollow⟩ := ha
  obtain ⟨pre, post, rfl⟩ := List.append_of_mem hfollow
  have hpre : pre ++ [.follow ⟨targetText key ref, node⟩ target false] <+:
      pre ++ .follow ⟨targetText key ref, node⟩ target false :: post := ⟨post, by simp⟩
  cases (hl.of_prefix hpre).last with
  | follow hled => exact hp.onward pre ((List.prefix_append pre _).trans hpre) target hled.held

-- What is brought into the document was asked for, and it is in a file.
theorem Persists.bound (hp : Persists c s files h) (hl : Lawful c s files h)
    (hroot : root.document = c.document) {kind name : String} {target : NodeId}
    (ho : Occasion c root s files h (.bind kind name target)) : Held c s files h target := by
  have supplied (hs : Supplies c s files h kind name target) : Held c s files h target := by
    obtain ⟨key, d, hknown, -, hin⟩ := hs
    have hd : Held c s files h d := IsDocument.held (.inr ⟨key, hknown⟩)
    exact hd.reach (reach_of_componentIn? hin)
  cases ho with
  | @register e node _ ref _ hinlined =>
      subst hinlined
      cases hl.last with
      | inline _ hresolves =>
          obtain ⟨key, hlocates, hfollow⟩ := hresolves.aims
          have hpre : e <+: e ++ [.inline node target ref (some name)] := List.prefix_append e _
          exact hp.aims hl ⟨key, hlocates.mono hpre, hpre.subset hfollow⟩
  | @adopt scope node _ ref _ _ hmet _ _ _ hoffers =>
      rcases hoffers with hown | ⟨-, hother⟩
      · exact (isDocument_of_isScope hmet.isScope hroot).held.reach (reach_of_componentIn? hown)
      · exact supplied hother
  | rescue _ _ _ _ hsupplies => exact supplied hsupplies
  | other _ hbind _ => exact absurd rfl (hbind kind name target)

-- A reference is settled where the walk comes to it.
theorem Persists.settled (hp : Persists c s files h) (hlegit : Legit c s files h d)
    (hoccasion : ∀ pre d, pre ++ [d] <+: h → Occasion c root s files pre d)
    (hroot : root.document = c.document) {node : NodeId} (hd : d.settles? = some node) :
    Held c s files h node := by
  have located {ref key : String} (hl : Locates c h node ref key) : Held c s files h node := by
    obtain ⟨base, l, hlook, -⟩ := hl
    exact hp.comes hroot (comes_of_look hoccasion hlook)
  cases hlegit with
  | mark _ _ _ hcloses =>
      cases hd
      cases hcloses with
      | back hpoints _ =>
          obtain ⟨link, key, whole, hlocates, -⟩ := hpoints
          exact located hlocates
      | passed haims _ _ =>
          obtain ⟨key, hlocates, -⟩ := haims
          exact located hlocates
      | limited haims _ _ =>
          obtain ⟨key, hlocates, -⟩ := haims
          exact located hlocates
  | inline _ hresolves =>
      cases hd
      obtain ⟨key, hlocates, -⟩ := hresolves.aims
      exact located hlocates
  | _ => cases hd

-- One deed more, and all that was held before is held, and of the old nothing else.
theorem Persists.concat (hp : Persists c s files h) (hl : Lawful c s files (h ++ [d]))
    (hoccasion : ∀ pre d', pre ++ [d'] <+: h ++ [d] → Occasion c root s files pre d')
    (hdoc : (s.mapping? c.document).isSome) (hroot : root.document = c.document) :
    Persists c s files (h ++ [d]) := by
  have hpre : h <+: h ++ [d] := List.prefix_append h [d]
  have hbefore := hl.of_prefix hpre
  have hearlier : ∀ pre d', pre ++ [d'] <+: h → Occasion c root s files pre d' :=
    fun pre d' hdone => hoccasion pre d' (hdone.trans hpre)
  refine ⟨fun e he x hx => ?_, fun e he x hlt hx => ?_⟩
  · rcases List.prefix_concat_iff.mp he with rfl | hold
    · exact hx
    · exact (hp.onward e hold x hx).step hl hdoc
  · rcases List.prefix_concat_iff.mp he with rfl | hold
    · exact hx
    · have hsize := (hbefore.keeps hdoc hold).size
      refine hp.back e hold x hlt ((hx.of_step hl hdoc (fun node hd => ?_) ?_ ?_).resolve_left (by omega))
      · exact hp.settled hl.last hearlier hroot hd
      · rintro kind name target rfl
        exact hp.bound hbefore hroot (hoccasion h _ List.prefix_rfl)
      · rintro node target ref name rfl
        cases hl.last with
        | inline _ hresolves => exact hp.aims hbefore hresolves.aims

theorem persists (hl : Lawful c s files h)
    (hoccasion : ∀ pre d, pre ++ [d] <+: h → Occasion c root s files pre d)
    (hdoc : (s.mapping? c.document).isSome) (hroot : root.document = c.document) :
    Persists c s files h := by
  induction h using List.reverseRecOn with
  | nil =>
      refine ⟨fun e he x hx => ?_, fun e he x _ hx => ?_⟩
      · rwa [List.prefix_nil.mp he] at hx
      · rwa [List.prefix_nil.mp he]
  | append_singleton h d ih =>
      have hpre : h <+: h ++ [d] := List.prefix_append h [d]
      have hp := ih (hl.of_prefix hpre) fun pre d' hdone => hoccasion pre d' (hdone.trans hpre)
      exact hp.concat hl hoccasion hdoc hroot

end Persistence

section Call

variable {s : Store} {q : Request}

-- The identities that a call remembers: of what it visited, and of where it resolved a reference.
def Tracked (s : Store) (q : Request) (h : History) (x : NodeId) : Prop :=
  x ∈ (q.ending s).2.visited ∨ ∃ ref base, .look x ref base ∈ h

-- At every moment, what the call keeps track of at any time can be reached from a document that it
-- knows by then, or from a container that it has displaced by then.
theorem tracked_alive_or_adrift (hdoc : (s.mapping? q.document).isSome) : ∃ h, q.HasAccount s h ∧
    ∀ x, Tracked s q h x → ∀ e, e <+: h → x < (after q.context s e).nodes.size →
      Alive q.context s q.files e x ∨ Adrift q.context s e x := by
  obtain ⟨h, hr⟩ := exists_records hdoc
  have hp : Persists q.context s q.files h := persists hr.lawful hr.occasion hdoc rfl
  rcases references_cases s q with ⟨e, hidle, -⟩ | hrun
  · refine ⟨[], hasAccount_nil hidle, fun x hx e he hlt => ?_⟩
    obtain rfl := List.prefix_nil.mp he
    rcases hx with hvisited | ⟨ref, base, hlook⟩
    · exact hp.back [] List.nil_prefix x hlt (hp.comes rfl (hr.came x hvisited))
    · cases hlook
  · refine ⟨h, hasAccount_of_records hrun hr, fun x hx e he hlt => hp.back e he x hlt ?_⟩
    rcases hx with hvisited | ⟨ref, base, hlook⟩
    · exact hp.comes rfl (hr.came x hvisited)
    · exact hp.comes rfl (comes_of_look hr.occasion hlook)

-- A list stands where parameters are adopted from another file.
def listedParameters : Store :=
  ⟨#[
    .ofFields [("components", .node 1), ("a", .node 4)],
    .ofFields [("parameters", .node 2)],
    .sequence [.node 3],
    .ofFields [("in", .str "query")],
    .ofFields [("$ref", .str "b.json")]]⟩

def listedParametersCall : Request :=
  let content := "\x7b\"x\":\x7b\"$ref\":\"#/components/parameters/P\"\x7d," ++
    "\"components\":\x7b\"parameters\":\x7b\"P\":\x7b\x7d\x7d\x7d\x7d"
  ⟨0, some (.text "r.json"), {}, [], [], none,
    ⟨.mk [("r.json", .bytes "".toUTF8), ("b.json", .bytes content.toUTF8)] .nil, ⟨1, []⟩⟩⟩

-- The call has visited it and gives it up.
theorem listedParameters_adrift : ∃ h, listedParametersCall.HasAccount listedParameters h ∧
    Tracked listedParameters listedParametersCall h 2 ∧
    ¬Alive listedParametersCall.context listedParameters listedParametersCall.files h 2 ∧
    Adrift listedParametersCall.context listedParameters h 2 := by
  have hdoc : (listedParameters.mapping? listedParametersCall.document).isSome := by decide
  obtain ⟨h, hh, hall⟩ := @tracked_alive_or_adrift listedParameters listedParametersCall hdoc
  have htracked : Tracked listedParameters listedParametersCall h 2 := by
    refine .inl ?_
    decide +kernel
  have hsize : 2 < (after listedParametersCall.context listedParameters h).nodes.size := by
    rw [← hh.store]
    decide +kernel
  have hdead : ¬Alive listedParametersCall.context listedParameters listedParametersCall.files h 2 := by
    rintro ⟨d, hd, hreach⟩
    rw [← hh.store] at hreach
    cases hreach with
    | refl =>
        rcases hd.at_start hh.lawful hdoc (by decide) with hroot | ⟨key, hknown⟩
        · revert hroot
          decide
        · obtain ⟨-, hroot⟩ := Prod.mk.inj (List.mem_singleton.mp hknown)
          cases hroot
    | @step b _ _ hin =>
        have hnone : ∀ b < (references listedParameters listedParametersCall).store.nodes.size,
            .node 2 ∉ (references listedParameters listedParametersCall).store.children b := by
          decide +kernel
        exact hnone b (lt_size_of_mem_children hin) hin
  exact ⟨h, hh, htracked, hdead, (hall 2 htracked h List.prefix_rfl hsize).resolve_left hdead⟩

end Call

end ApiGraph.Resolve
