import ApiGraph.Proofs.Resolve.Displacement
import ApiGraph.Proofs.Resolve.Whereabouts

namespace ApiGraph.Resolve

open Store Reference

section Mono

variable {c : Context} {s : Store} {files : List (String × NodeId)} {h h' : History}

theorem Carried.mono {id : NodeId} {ref : String} (hc : Carried c s h id ref) (hpre : h <+: h') :
    Carried c s h' id ref := by
  obtain ⟨e, he, href⟩ := hc
  exact ⟨e, he.trans hpre, href⟩

theorem Leads.mono {loose : Bool} {a b : NodeId} (hl : Leads c s h loose a b) (hpre : h <+: h') :
    Leads c s h' loose a b := by
  induction hl with
  | refl => exact .refl
  | child _ he hbirth hx ih => exact .child ih (he.trans hpre) hbirth hx
  | ref _ hf hloose ih => exact .ref ih (hpre.subset hf) hloose
  | brought _ hloose he hd hnew hx ih => exact .brought ih hloose (he.trans hpre) hd hnew hx

theorem Leads.trans {loose : Bool} {a b x : NodeId} (hab : Leads c s h loose a b)
    (hbx : Leads c s h loose b x) : Leads c s h loose a x := by
  induction hbx with
  | refl => exact hab
  | child _ he hbirth hx ih => exact .child ih he hbirth hx
  | ref _ hf hloose ih => exact .ref ih hf hloose
  | brought _ hloose he hd hnew hx ih => exact .brought ih hloose he hd hnew hx

-- How a value came to stand in a container: it was parsed there, or it was brought in, or it came from
-- the target of the container's reference.
inductive Entered (c : Context) (s : Store) (h : History) (b x : NodeId) : Prop
  | parsed {e : History} (he : e <+: h) (hbirth : Birth c s e b)
      (hx : .node x ∈ (after c s e).children b) : Entered c s h b x
  | brought {e : History} {d : Deed} (he : e ++ [d] <+: h) (hd : d.brings = true)
      (hnew : .node x ∉ (after c s e).children b)
      (hx : .node x ∈ (after c s (e ++ [d])).children b) : Entered c s h b x
  | copied {e : History} {target : NodeId} {ref : String} {name : Option String}
      (he : e ++ [.inline b target ref name] <+: h) (hnew : .node x ∉ (after c s e).children b)
      (hx : .node x ∈ (after c s e).children target) : Entered c s h b x

theorem Entered.mono {b x : NodeId} (hx : Entered c s h b x) (hpre : h <+: h') :
    Entered c s h' b x := by
  cases hx with
  | parsed he hbirth hx => exact .parsed (he.trans hpre) hbirth hx
  | brought he hd hnew hx => exact .brought (he.trans hpre) hd hnew hx
  | copied he hnew hx => exact .copied (he.trans hpre) hnew hx

theorem Lawful.entered (hl : Lawful c s files h) {b x : NodeId}
    (hx : .node x ∈ (after c s h).children b) : Entered c s h b x := by
  rcases came_of_after (P := fun t => .node x ∈ t.children b) hx with hold | ⟨e, d, he, hnew, hin⟩
  · exact .parsed List.nil_prefix (.inl rfl) hold
  · by_cases hd : d.brings = true
    · exact .brought he hd hnew hin
    have hstep := hin
    rw [after_concat] at hstep
    cases ((hl.of_prefix he).last.child_comes (absurd · hd) hstep).resolve_left hnew with
    | made hd' => exact absurd hd' hd
    | read hb => exact .parsed he (.inr ⟨e, _, _, _, rfl, hb⟩) hin
    | bound kind name => exact absurd rfl hd
    | copied ref name hcopied => exact .copied he hnew hcopied

-- Whatever stands in a container is led to from there.
theorem Leads.of_mem_children (hl : Lawful c s files h) {e : History} (he : e <+: h)
    {a b x : NodeId} (hab : Leads c s h true a b) (hx : .node x ∈ (after c s e).children b) :
    Leads c s h true a x := by
  induction hlength : e.length using Nat.strongRecOn generalizing e b with
  | ind length ih =>
      cases (hl.of_prefix he).entered hx with
      | parsed he' hbirth hx => exact .child hab (he'.trans he) hbirth hx
      | brought he' hd hnew hx => exact .brought hab rfl (he'.trans he) hd hnew hx
      | @copied e' target ref name he' _ hx =>
          have hpre : e' <+: h := (List.prefix_append e' _).trans (he'.trans he)
          have hshort : e'.length < length := by
            have hle := he'.length_le
            rw [List.length_append, List.length_singleton] at hle
            omega
          have hlegit := (hl.of_prefix (he'.trans he)).last
          cases hlegit with
          | inline _ hresolves =>
              obtain ⟨key, -, hfollow⟩ := hresolves.aims
              exact ih _ hshort hpre (.ref hab (hpre.subset hfollow) fun _ => rfl) hx rfl

theorem Locates.mono {node : NodeId} {ref key : String} (hl : Locates c h node ref key)
    (hpre : h <+: h') : Locates c h' node ref key := by
  obtain ⟨base, l, hin, hlocate⟩ := hl
  exact ⟨base, l, hpre.subset hin, hlocate⟩

end Mono

section Chains

variable (c : Context) (root : Scope) (s : Store) (files : List (String × NodeId)) (h : History)

-- No reference that is being resolved is settled.
def Spares (chain : Chain) (d : Deed) : Prop :=
  ∀ id, d.settles? = some id → chain.hasNode id = false

-- The walk of a scope comes here, and so do the references that are being resolved.
structure Way (scope : Scope) (chain : Chain) (id : NodeId) : Prop where
  isScope : IsScope c root files h scope
  within : Within c s files h scope id
  leads : ∀ l ∈ chain, ∃ start w, .follow l start w ∈ h ∧ Leads c s h true start id

-- Why a reference stays where it was walked.
def Excused (id : NodeId) : Prop := (∃ l, .limit l ∈ h) ∨ Passed c s h id

-- The history goes on, and no reference that is being resolved is settled.
def Continues (chain : Chain) (h' : History) : Prop :=
  ∃ k, h' = h ++ k ∧ ∀ d ∈ k, Spares chain d

variable {c root s files h} {scope : Scope} {chain : Chain} {h' h'' : History} {l : Link}
  {id x : NodeId} {ref : String}

theorem Spares.tail {d : Deed} (hd : Spares (l :: chain) d) : Spares chain d := by
  intro id hid
  have hfalse := hd id hid
  rw [Chain.hasNode, List.any_cons, Bool.or_eq_false_iff] at hfalse
  exact hfalse.2

theorem spares_of_none {d : Deed} (hd : d.settles? = none) : Spares chain d := by
  intro id hid
  rw [hd] at hid
  cases hid

theorem Continues.refl : Continues h chain h := by
  refine ⟨[], (List.append_nil h).symm, fun d hd => ?_⟩
  cases hd

theorem Continues.trans (h₁ : Continues h chain h') (h₂ : Continues h' chain h'') :
    Continues h chain h'' := by
  obtain ⟨k, rfl, hk⟩ := h₁
  obtain ⟨k', rfl, hk'⟩ := h₂
  exact ⟨k ++ k', List.append_assoc h k k', fun d hd => (List.mem_append.mp hd).elim (hk d) (hk' d)⟩

theorem Continues.concat {d : Deed} (hd : Spares chain d) : Continues h chain (h ++ [d]) :=
  ⟨[d], rfl, fun _ hin => List.mem_singleton.mp hin ▸ hd⟩

theorem Continues.isPrefix (h₁ : Continues h chain h') : h <+: h' := by
  obtain ⟨k, rfl, -⟩ := h₁
  exact List.prefix_append h k

theorem Continues.tail (h₁ : Continues h (l :: chain) h') : Continues h chain h' := by
  obtain ⟨k, rfl, hk⟩ := h₁
  exact ⟨k, rfl, fun d hd => (hk d hd).tail⟩

-- What is being resolved stays so.
theorem Continues.pending (h₁ : Continues h (l :: chain) h') (hp : Pending c s h l.node ref) :
    Pending c s h' l.node ref := by
  obtain ⟨k, rfl, hk⟩ := h₁
  obtain ⟨e, k', rfl, hpending, hext, he, hk'⟩ := hp
  refine ⟨e, k' ++ k, List.append_assoc e k' k, hpending, hext, he, fun d hd hsettles => ?_⟩
  rcases List.mem_append.mp hd with hin | hin
  · exact hk' d hin hsettles
  · have hfalse := hk d hin l.node hsettles
    simp [Chain.hasNode] at hfalse

theorem Way.mono (hw : Way c root s files h scope chain id) (hpre : h <+: h') :
    Way c root s files h' scope chain id := by
  refine ⟨hw.isScope.mono hpre, hw.within.mono hpre, fun l hl => ?_⟩
  obtain ⟨start, w, hfollow, hleads⟩ := hw.leads l hl
  exact ⟨start, w, hpre.subset hfollow, hleads.mono hpre⟩

theorem Way.child (hw : Way c root s files h scope chain id) (hlawful : Lawful c s files h)
    {e : History} (he : e <+: h) (hx : .node x ∈ (after c s e).children id) :
    Way c root s files h scope chain x := by
  refine ⟨hw.isScope, .child hw.within he hx, fun l hl => ?_⟩
  obtain ⟨start, w, hfollow, hleads⟩ := hw.leads l hl
  exact ⟨start, w, hfollow, hleads.of_mem_children hlawful he hx⟩

-- A reference of the way is followed, into the scope of its file.
theorem Way.follow {scope' : Scope} {target : String} {whole : Bool}
    (hw : Way c root s files h scope chain id) (hf : .follow ⟨target, id⟩ x whole ∈ h)
    (hscope : IsScope c root files h scope') (hwithin : Within c s files h scope' x) :
    Way c root s files h scope' (⟨target, id⟩ :: chain) x := by
  refine ⟨hscope, hwithin, fun l hl => ?_⟩
  rcases List.mem_cons.mp hl with rfl | hl
  · exact ⟨x, whole, hf, .refl⟩
  · obtain ⟨start, w, hfollow, hleads⟩ := hw.leads l hl
    exact ⟨start, w, hfollow, hleads.ref hf fun _ => rfl⟩

end Chains

section Records

variable (c : Context) (root : Scope) (s : Store) (files : List (String × NodeId))

-- The deeds are what the run has done so far.
structure Tells (h : History) (r : Run) : Prop where
  hasRoot : (s.mapping? c.document).isSome
  lawful : Lawful c s files h
  store : r.store = after c s h
  loaded : r.loaded.entries = files ++ h.filterMap Deed.file?
  limits : r.limits = h.filterMap Deed.limit?
  events : r.events.filter isOfReference = h.filterMap Deed.event?
  hit : r.nodeLimitHit = true → r.limits ≠ []
  inlined : ∀ d ∈ h, ∀ id, d.inlines? = some id → id ∈ r.visited
  bounded : ∀ id ∈ r.visited, id < r.store.nodes.size
  passed : ∀ id ∈ r.visited, isExternalRef (r.store.entries id) = true → Passed c s h id

-- The deeds also say why: where a file was looked up and a component brought in, how the walk came to
-- what it visited, and what became of the internal references. The log names the components that were
-- new.
structure Records (h : History) (r : Run) : Prop extends Tells c s files h r where
  occasion : ∀ pre d, pre ++ [d] <+: h → Occasion c root s files pre d
  registered : ∀ pre node target ref name, pre ++ [.inline node target ref (some name)] <+: h →
    pre ++ [.inline node target ref (some name), .bind "schemas" name target] <+: h
  met : ∀ ref ∈ r.rootRefs, ∃ e scope node, e <+: h ∧
    Encounters c root s files e scope node ref ∧ scope.isRoot = true
  came : ∀ id ∈ r.visited, Comes c root s files h id
  consulted : ∀ id ∈ r.visited, ∀ ref, (r.store.entries id).ref? = some ref →
    isInternal ref = true → Consulted c root s files h r.rootRefs id ref
  announced : r.events.filterMap announced? = bindings c s h

-- However it ends, what the program does continues the history.
def Goes {α : Type} (chain : Chain) (h : History) (x : ResolveM α) (r : Run)
    (Q : α → History → Run → Prop) : Prop :=
  Ensures x r (fun a r' => ∃ h', Continues h chain h' ∧ Records c root s files h' r' ∧ Q a h' r')
    fun _ r' => ∃ h', Continues h chain h' ∧ Records c root s files h' r'

variable {c root s files} {h k : History} {r r' : Run} {d : Deed}

theorem isExternalRef_of_ref? {m m' : Entries}
    (h : ∀ ref, m'.ref? = some ref → m.ref? = some ref) (hext : isExternalRef m' = true) :
    isExternalRef m = true := by
  obtain ⟨ref, href, hexternal⟩ := isExternalRef_iff.mp hext
  exact isExternalRef_iff.mpr ⟨ref, h ref href, hexternal⟩

theorem Tells.rooted (ht : Tells c s files h r) :
    ((after c s h).mapping? c.document).isSome := ht.lawful.root ht.hasRoot

-- A deed is done, and the state of the run says so.
theorem Tells.step (ht : Tells c s files h r) (hd : Legit c s files h d)
    (hs : r'.store = d.apply c.document r.store)
    (hl : r'.loaded.entries = r.loaded.entries ++ d.file?.toList)
    (hm : r'.limits = r.limits ++ d.limit?.toList)
    (he : r'.events.filter isOfReference = r.events.filter isOfReference ++ d.event?.toList)
    (hh : r'.nodeLimitHit = r.nodeLimitHit)
    (hv : ∀ id, id ∈ r'.visited ↔ id ∈ r.visited ∨ d.inlines? = some id) :
    Tells c s files (h ++ [d]) r' := by
  have hstore : r'.store = after c s (h ++ [d]) := by rw [after_concat, hs, ht.store]
  have hsize : r.store.nodes.size ≤ r'.store.nodes.size := by
    rw [hs, ht.store]
    exact (hd.keeps ht.rooted).size
  constructor
  · exact ht.hasRoot
  · exact ht.lawful.concat hd
  · exact hstore
  · rw [hl, ht.loaded, List.append_assoc, List.filterMap_append]
    cases hd' : d.file? <;> simp [hd']
  · rw [hm, ht.limits, List.filterMap_append]
    cases hd' : d.limit? <;> simp [hd']
  · rw [he, ht.events, List.filterMap_append]
    cases hd' : d.event? <;> simp [hd']
  · intro hhit
    rw [hh] at hhit
    rw [hm]
    exact fun hnil => ht.hit hhit (List.append_eq_nil_iff.mp hnil).1
  · intro d' hd' id hid
    refine (hv id).mpr ?_
    rcases List.mem_append.mp hd' with hold | hnew
    · exact .inl (ht.inlined d' hold id hid)
    · exact .inr (List.mem_singleton.mp hnew ▸ hid)
  · intro id hid
    rcases (hv id).mp hid with hold | hnew
    · exact Nat.lt_of_lt_of_le (ht.bounded id hold) hsize
    · obtain ⟨m, hm⟩ := Option.isSome_iff_exists.mp (hd.of_inlines? hnew).1
      rw [← ht.store] at hm
      exact Nat.lt_of_lt_of_le (lt_size_of_mapping? hm) hsize
  · intro id hid hext
    rw [hs, ht.store] at hext
    rcases (hv id).mp hid with hold | hnew
    · refine (ht.passed id hold (isExternalRef_of_ref? (fun ref href => ?_) hext)).mono
        (List.prefix_append _ _)
      rw [ht.store]
      rcases hd.ref? ht.rooted href with hsame | ⟨key, document, read, -, hnew⟩
      · exact hsame
      · have hlt := ht.bounded id hold
        rw [ht.store] at hlt
        exact absurd hlt (Nat.not_lt.mpr hnew)
    · exact absurd hext (not_isExternalRef (hd.of_inlines? hnew).2)

-- A deed of the longer history is an old one or one of those that were added.
theorem prefix_append_cases {pre : History} (hpre : pre ++ [d] <+: h ++ k) :
    pre ++ [d] <+: h ∨ ∃ pre', pre = h ++ pre' ∧ pre' ++ [d] <+: k := by
  rcases List.prefix_or_prefix_of_prefix hpre (List.prefix_append h k) with hold | ⟨m, hm⟩
  · exact .inl hold
  · rcases List.eq_nil_or_concat m with rfl | ⟨pre', d', rfl⟩
    · exact .inl ⟨[], by rw [← hm, List.append_nil, List.append_nil]⟩
    · rw [List.concat_eq_append] at hm
      rw [← hm] at hpre
      rw [← List.append_assoc] at hm
      obtain ⟨rfl, hlast⟩ := List.append_inj' hm rfl
      obtain rfl : d' = d := by simpa using hlast
      exact .inr ⟨pre', rfl, (List.prefix_append_right_inj h).mp hpre⟩

-- A reference is looked up where the walk comes to it.
theorem comes_of_look (hoccasion : ∀ pre d, pre ++ [d] <+: h → Occasion c root s files pre d)
    {node : NodeId} {ref : String} {base : Option String} (hlook : .look node ref base ∈ h) :
    Comes c root s files h node := by
  obtain ⟨pre, post, rfl⟩ := List.append_of_mem hlook
  cases hoccasion pre _ ⟨post, by rw [List.append_assoc, List.singleton_append]⟩ with
  | look _ hscope hwithin => exact Comes.mono ⟨_, hscope, hwithin⟩ (List.prefix_append _ _)
  | other hevent _ _ => exact absurd rfl (hevent node ref base)

theorem Records.comes (hr : Records c root s files h r) {node target : NodeId} {ref : String}
    (hresolves : Resolves c s h node target ref) : Comes c root s files h node := by
  obtain ⟨key, ⟨base, l, hlook, -⟩, -⟩ := hresolves.aims
  exact comes_of_look hr.occasion hlook

-- Some deeds are done for their reasons, each copy of a schema is registered at once, and what is
-- visited by then is no reference.
theorem Records.extend (hr : Records c root s files h r) (ht : Tells c s files (h ++ k) r')
    (hoccasion : ∀ pre d, pre ++ [d] <+: k → Occasion c root s files (h ++ pre) d)
    (hregistered : ∀ pre node target ref name, pre ++ [.inline node target ref (some name)] <+: k →
      pre ++ [.inline node target ref (some name), .bind "schemas" name target] <+: k)
    (hrefs : r'.rootRefs = r.rootRefs)
    (hv : ∀ id ∈ r'.visited, id ∈ r.visited ∨
      (r'.store.entries id).ref? = none ∧ Comes c root s files h id)
    (hb : r'.events.filterMap announced? = bindings c s (h ++ k)) :
    Records c root s files (h ++ k) r' where
  toTells := ht
  occasion pre d hpre := by
    rcases prefix_append_cases hpre with hold | ⟨pre', rfl, hnew⟩
    · exact hr.occasion pre d hold
    · exact hoccasion pre' d hnew
  registered pre node target ref name hpre := by
    rcases prefix_append_cases hpre with hold | ⟨pre', rfl, hnew⟩
    · exact (hr.registered pre node target ref name hold).trans (List.prefix_append h k)
    · rw [List.append_assoc]
      exact (List.prefix_append_right_inj h).mpr (hregistered pre' node target ref name hnew)
  met ref hin := by
    obtain ⟨e, scope, node, he, hmet⟩ := hr.met ref (hrefs ▸ hin)
    exact ⟨e, scope, node, he.trans (List.prefix_append h k), hmet⟩
  came id hid := by
    rcases hv id hid with hold | ⟨-, hcomes⟩
    · exact (hr.came id hold).mono (List.prefix_append h k)
    · exact hcomes.mono (List.prefix_append h k)
  consulted id hid ref href hinternal := by
    rcases hv id hid with hold | ⟨hnone, -⟩
    · have hlt := hr.bounded id hold
      rw [hr.store] at hlt
      rw [ht.store] at href
      have hbefore := ht.lawful.ref? hr.hasRoot (List.prefix_append h k) hlt href
      rw [← hr.store] at hbefore
      exact (hr.consulted id hold ref hbefore hinternal).mono (List.prefix_append h k)
        (hrefs ▸ List.Subset.refl _)
    · rw [hnone] at href
      cases href
  announced := hb

theorem Records.congr (hr : Records c root s files h r) (hs : r'.store = r.store)
    (hl : r'.loaded = r.loaded) (hm : r'.limits = r.limits)
    (he : r'.events.filter isOfReference = r.events.filter isOfReference)
    (hh : r'.nodeLimitHit = true → r'.limits ≠ []) (hv : r'.visited = r.visited)
    (hrefs : r'.rootRefs = r.rootRefs)
    (hb : r'.events.filterMap announced? = r.events.filterMap announced?) :
    Records c root s files h r' where
  hasRoot := hr.hasRoot
  lawful := hr.lawful
  store := hs.trans hr.store
  loaded := hl ▸ hr.loaded
  limits := hm.trans hr.limits
  events := he.trans hr.events
  hit := hh
  inlined := hv ▸ hr.inlined
  bounded := by
    rw [hv, hs]
    exact hr.bounded
  passed := by
    rw [hv, hs]
    exact hr.passed
  occasion := hr.occasion
  registered := hr.registered
  met := hrefs ▸ hr.met
  came := hv ▸ hr.came
  consulted := by
    rw [hv, hs, hrefs]
    exact hr.consulted
  announced := hb.trans hr.announced

theorem Records.report (hr : Records c root s files h r) {e : Event} (he : isOfReference e = false)
    (hb : announced? e = none) : Records c root s files h { r with events := r.events ++ [e] } :=
  hr.congr rfl rfl rfl (by simp [he]) hr.hit rfl rfl (by simp [hb])

theorem Records.step (hr : Records c root s files h r) (hd : Legit c s files h d)
    (hoccasion : Occasion c root s files h d)
    (hs : r'.store = d.apply c.document r.store)
    (hl : r'.loaded.entries = r.loaded.entries ++ d.file?.toList)
    (hm : r'.limits = r.limits ++ d.limit?.toList)
    (he : r'.events.filter isOfReference = r.events.filter isOfReference ++ d.event?.toList)
    (hh : r'.nodeLimitHit = r.nodeLimitHit) (hrefs : r'.rootRefs = r.rootRefs)
    (hv : ∀ id, id ∈ r'.visited ↔ id ∈ r.visited ∨ d.inlines? = some id)
    (hname : ∀ node target ref name, d ≠ .inline node target ref (some name))
    (hb : r'.events.filterMap announced? =
      r.events.filterMap announced? ++ (newBinding? c r.store d).toList) :
    Records c root s files (h ++ [d]) r' := by
  have hone {pre : History} {d' : Deed} (hpre : pre ++ [d'] <+: [d]) : pre = [] ∧ d' = d := by
    obtain ⟨post, hpost⟩ := hpre
    rw [List.append_assoc] at hpost
    cases pre with
    | nil => exact ⟨rfl, (List.cons.inj hpost).1⟩
    | cons first rest => cases rest <;> cases (List.cons.inj hpost).2
  have ht := hr.toTells.step hd hs hl hm he hh hv
  refine hr.extend ht (fun pre d' hpre => ?_) (fun pre node target ref name hpre => ?_) hrefs
    (fun id hid => ?_) ?_
  · obtain ⟨rfl, rfl⟩ := hone hpre
    rwa [List.append_nil]
  · exact absurd (hone hpre).2.symm (hname node target ref name)
  · refine ((hv id).mp hid).imp_right fun hin => ⟨?_, ?_⟩
    · rw [ht.store, after_concat]
      exact (hd.of_inlines? hin).2
    · obtain ⟨target, ref, name, rfl⟩ := Deed.inlines?_eq_some hin
      cases hd with
      | inline _ hresolves => exact hr.comes hresolves
  · rw [hb, hr.announced, hr.store, bindings_concat]

theorem Records.follow (hr : Records c root s files h r) {l : Link} {start : NodeId} {w : Bool}
    (hled : Led c s files h l start w) : Records c root s files (h ++ [.follow l start w]) r :=
  hr.step (.follow hled) (.other nofun nofun nofun) rfl (List.append_nil _).symm
    (List.append_nil _).symm (List.append_nil _).symm rfl rfl (fun id => by simp [Deed.inlines?]) nofun
    (List.append_nil _).symm

theorem Records.limit (hr : Records c root s files h r) (l : SoftLimit) :
    Records c root s files (h ++ [.limit l])
      { r with limits := r.limits ++ [l], events := r.events ++ [.resolutionLimit l] } :=
  hr.step (.limit l) (.other nofun nofun nofun) rfl (List.append_nil _).symm rfl
    (by simp [isOfReference, Deed.event?]) rfl rfl (fun id => by simp [Deed.inlines?]) nofun
    (by simp [announced?, newBinding?])

theorem Records.visit (hr : Records c root s files h r) {id : NodeId}
    (hid : id < r.store.nodes.size)
    (hcomes : Comes c root s files h id)
    (hpassed : isExternalRef (r.store.entries id) = true → Passed c s h id)
    (hconsulted : ∀ ref, (r.store.entries id).ref? = some ref → isInternal ref = true →
      Consulted c root s files h r.rootRefs id ref) :
    Records c root s files h { r with visited := id :: r.visited } where
  hasRoot := hr.hasRoot
  lawful := hr.lawful
  store := hr.store
  loaded := hr.loaded
  limits := hr.limits
  events := hr.events
  hit := hr.hit
  inlined := fun d hd i hi => List.mem_cons_of_mem _ (hr.inlined d hd i hi)
  bounded := fun i hi => (List.mem_cons.mp hi).elim (fun heq => heq ▸ hid) (hr.bounded i)
  passed := fun i hi hext => by
    rcases List.mem_cons.mp hi with rfl | hi
    · exact hpassed hext
    · exact hr.passed i hi hext
  occasion := hr.occasion
  registered := hr.registered
  met := hr.met
  came := fun i hi => (List.mem_cons.mp hi).elim (fun heq => heq ▸ hcomes) (hr.came i)
  consulted := fun i hi ref href hinternal => by
    rcases List.mem_cons.mp hi with rfl | hi
    · exact hconsulted ref href hinternal
    · exact hr.consulted i hi ref href hinternal
  announced := hr.announced

theorem Records.known (hr : Records c root s files h r) {key : String} {document : NodeId}
    (hd : r.loaded.get? key = some document) : Known files h key document := by
  unfold Known
  rw [← hr.loaded]
  obtain ⟨e, he, rfl⟩ := Option.map_eq_some_iff.mp hd
  obtain rfl : e.1 = key := by simpa using List.find?_some he
  exact List.mem_of_find?_eq_some he

-- A file that was loaded is known by some key.
theorem Records.exists_known (hr : Records c root s files h r) {document : NodeId}
    (hd : document ∈ r.loaded.values) : ∃ key, Known files h key document := by
  obtain ⟨key, hkey⟩ := OrderedMap.mem_values_iff.mp hd
  exact ⟨key, hr.known hkey⟩

theorem Records.mem_loaded (hr : Records c root s files h r) {key : String} {document : NodeId}
    (hknown : Known files h key document) : document ∈ r.loaded.values := by
  unfold Known at hknown
  rw [← hr.loaded] at hknown
  exact List.mem_map_of_mem hknown

end Records

section Programs

variable {c : Context} {root : Scope} {s : Store} {files : List (String × NodeId)} {α β : Type}
  {chain : Chain}
  {l : Link} {h : History} {r : Run} {x : ResolveM α} {Q R : α → History → Run → Prop}

theorem Goes.mono (hx : Goes c root s files chain h x r Q) (hQ : ∀ a h' r', Q a h' r' → R a h' r') :
    Goes c root s files chain h x r R := by
  refine Ensures.mono hx (fun a r' hend => ?_) fun _ _ => id
  obtain ⟨h', hc, hr', hq⟩ := hend
  exact ⟨h', hc, hr', hQ a h' r' hq⟩

-- What spares more references spares these.
theorem Goes.tail (hx : Goes c root s files (l :: chain) h x r Q) :
    Goes c root s files chain h x r fun a h' r' => Continues h (l :: chain) h' ∧ Q a h' r' := by
  refine Ensures.mono hx (fun a r' hend => ?_) fun e r' hend => ?_
  · obtain ⟨h', hc, hr', hq⟩ := hend
    exact ⟨h', hc.tail, hr', hc, hq⟩
  · obtain ⟨h', hc, hr'⟩ := hend
    exact ⟨h', hc.tail, hr'⟩

-- What was done before the program is part of the history.
theorem Goes.after {h' : History} (hx : Goes c root s files chain h' x r Q)
    (hc : Continues h chain h') : Goes c root s files chain h x r Q := by
  refine Ensures.mono hx (fun a r' hend => ?_) fun e r' hend => ?_
  · obtain ⟨h'', hc', hr', hq⟩ := hend
    exact ⟨h'', hc.trans hc', hr', hq⟩
  · obtain ⟨h'', hc', hr'⟩ := hend
    exact ⟨h'', hc.trans hc', hr'⟩

-- A deed of the program is done here.
theorem Goes.note {d : Deed} (hx : Goes c root s files chain (h ++ [d]) x r Q) (hd : Spares chain d) :
    Goes c root s files chain h x r Q := hx.after (.concat hd)

theorem Goes.bind {f : α → ResolveM β} {R : β → History → Run → Prop}
    (hx : Goes c root s files chain h x r Q)
    (hf : ∀ a h' r', Continues h chain h' → Records c root s files h' r' → Q a h' r' →
      Goes c root s files chain h' (f a) r' R) : Goes c root s files chain h (x >>= f) r R := by
  unfold Goes
  rw [ensures_bind]
  refine Ensures.mono hx (fun a r' hend => ?_) fun _ _ => id
  obtain ⟨h', hc, hr', hq⟩ := hend
  exact (hf a h' r' hc hr' hq).after hc

theorem goes_pure {a : α} (hr : Records c root s files h r) (hq : Q a h r) :
    Goes c root s files chain h (pure a) r Q := ensures_pure.mpr ⟨h, .refl, hr, hq⟩

theorem goes_throw {e : Failure ResolutionError} (hr : Records c root s files h r) :
    Goes c root s files chain h (throw e : ResolveM α) r Q := ensures_throw.mpr ⟨h, .refl, hr⟩

theorem goes_fail {e : ResolutionError} (hr : Records c root s files h r) :
    Goes c root s files chain h (fail e : ResolveM α) r Q := ensures_fail.mpr ⟨h, .refl, hr⟩

@[simp] theorem goes_get_bind {f : Run → ResolveM α} :
    Goes c root s files chain h (get >>= f) r Q ↔ Goes c root s files chain h (f r) r Q := by
  unfold Goes
  rw [ensures_bind, ensures_get]

@[simp] theorem goes_getStore_bind {f : Store → ResolveM α} :
    Goes c root s files chain h (getStore >>= f) r Q ↔ Goes c root s files chain h (f r.store) r Q := by
  unfold Goes
  rw [ensures_bind, ensures_getStore]

@[simp] theorem goes_modify_bind {g : Run → Run} {f : PUnit → ResolveM α} :
    Goes c root s files chain h (modify g >>= f) r Q ↔ Goes c root s files chain h (f ⟨⟩) (g r) Q := by
  unfold Goes
  rw [ensures_bind, ensures_modify]

@[simp] theorem goes_setStore_bind {s' : Store} {f : PUnit → ResolveM α} :
    Goes c root s files chain h (setStore s' >>= f) r Q ↔
      Goes c root s files chain h (f ⟨⟩) { r with store := s' } Q := by
  unfold Goes
  rw [ensures_bind, ensures_setStore]

@[simp] theorem goes_report_bind {e : Event} {f : PUnit → ResolveM α} :
    Goes c root s files chain h (report e >>= f) r Q ↔
      Goes c root s files chain h (f ⟨⟩) { r with events := r.events ++ [e] } Q := by
  unfold Goes
  rw [ensures_bind, ensures_report]

@[simp] theorem goes_visit_bind {id : NodeId} {f : PUnit → ResolveM α} :
    Goes c root s files chain h (visit id >>= f) r Q ↔
      Goes c root s files chain h (f ⟨⟩) { r with visited := id :: r.visited } Q := by
  unfold Goes
  rw [ensures_bind, ensures_visit]

theorem goes_report {e : Event} {Q : PUnit → History → Run → Prop} (hr : Records c root s files h r)
    (he : isOfReference e = false) (hb : announced? e = none)
    (hq : Q ⟨⟩ h { r with events := r.events ++ [e] }) :
    Goes c root s files chain h (report e) r Q := ensures_report.mpr ⟨h, .refl, hr.report he hb, hq⟩

-- A limit is a deed of its own.
theorem goes_limit {m : SoftLimit} (hr : Records c root s files h r) :
    Goes c root s files chain h (limit m) r fun _ h' _ => .limit m ∈ h' := by
  refine ensures_limit.mpr ⟨_, .concat (spares_of_none rfl), hr.limit m, ?_⟩
  exact List.mem_append_right _ (List.mem_singleton_self _)

-- A pass over a list needs what stays when the history goes on.
theorem goes_forM {vs : List β} {f : β → ResolveM PUnit} {P : β → History → Prop}
    (hP : ∀ v h h', P v h → h <+: h' → P v h')
    (hf : ∀ v h r, Records c root s files h r → P v h →
      Goes c root s files chain h (f v) r fun _ _ _ => True)
    (hr : Records c root s files h r) (hvs : ∀ v ∈ vs, P v h) :
    Goes c root s files chain h (vs.forM f) r fun _ _ _ => True := by
  induction vs generalizing h r with
  | nil => exact goes_pure hr trivial
  | cons v rest ih =>
      refine (hf v h r hr (hvs v List.mem_cons_self)).bind fun _ h' r' hc hr' _ => ?_
      exact ih hr' fun w hw => hP w h h' (hvs w (List.mem_cons_of_mem v hw)) hc.isPrefix

end Programs

section Components

variable {c : Context} {root : Scope} {s : Store} {files : List (String × NodeId)} {chain : Chain}
  {h h' : History} {r : Run} {scope : Scope} {node : NodeId} {ref : String}

-- The run once a component is bound: the log says so if its name was free.
def boundRun (c : Context) (kind name : String) (target : NodeId) (e : Event) (r : Run) : Run :=
  { r with
    store := bound r.store c.document kind name target
    events := r.events ++ if isBound c r.store kind name then [] else [e] }

theorem filterMap_boundRun {kind name : String} {target : NodeId} {e : Event}
    (hb : announced? e = some (kind, name)) :
    (boundRun c kind name target e r).events.filterMap announced? =
      r.events.filterMap announced? ++ (newBinding? c r.store (.bind kind name target)).toList := by
  simp only [boundRun, newBinding?]
  cases isBound c r.store kind name <;> simp [hb]

theorem Records.bind (hr : Records c root s files h r) {kind name : String} {target : NodeId}
    (hoccasion : Occasion c root s files h (.bind kind name target)) {e : Event}
    (he : isOfReference e = false) (hb : announced? e = some (kind, name)) :
    Records c root s files (h ++ [.bind kind name target]) (boundRun c kind name target e r) :=
  hr.step (.bind kind name target) hoccasion rfl (List.append_nil _).symm (List.append_nil _).symm
    (by unfold boundRun; cases isBound c r.store kind name <;> simp [he, Deed.event?]) rfl rfl
    (fun id => by simp [boundRun, Deed.inlines?]) nofun (filterMap_boundRun hb)

-- The log says that a component was bound.
theorem goes_bindAndReport {kind name : String} {target : NodeId} (hc : Continues h chain h')
    (hroot : (r.store.mapping? c.document).isSome) {e : Event}
    (hbind : Records c root s files h' (boundRun c kind name target e r)) :
    Goes c root s files chain h (do if ← bindComponent c kind name target then report e) r
      fun _ h'' r' => h'' = h' ∧ r'.rootRefs = r.rootRefs := by
  refine Goes.after ?_ hc
  have hhas := has_ensureComponents hroot kind name
  unfold boundRun bound at hbind
  dsimp only at hbind
  rw [← hhas] at hbind
  unfold bindComponent Goes
  simp only [ensures_bind, ensures_getStore, ensures_setStore]
  split
  · next htaken =>
    rw [if_pos htaken, if_pos htaken, List.append_nil] at hbind
    rw [ensures_pure, if_neg (by simp)]
    exact goes_pure hbind ⟨rfl, rfl⟩
  · next hfree =>
    rw [if_neg hfree, if_neg hfree] at hbind
    simp only [ensures_bind, ensures_setStore, ensures_pure, if_true]
    exact ensures_report.mpr ⟨h', .refl, hbind, rfl, rfl⟩

theorem goes_registerSchema {name : String} {target : NodeId} {ref : String}
    (hc : Continues h chain h') (hroot : (r.store.mapping? c.document).isSome)
    (hbind : Records c root s files h' (boundRun c "schemas" name target (.registered name ref) r)) :
    Goes c root s files chain h (registerSchema c name target ref) r
      fun _ h'' r' => h'' = h' ∧ r'.rootRefs = r.rootRefs :=
  goes_bindAndReport hc hroot hbind

theorem goes_adopt (hr : Records c root s files h r) {kind name : String} {target : NodeId}
    (hoccasion : Occasion c root s files h (.bind kind name target)) :
    Goes c root s files chain h (adopt c kind name target) r
      fun _ h' r' => h' = h ++ [.bind kind name target] ∧ r'.rootRefs = r.rootRefs :=
  goes_bindAndReport (.concat (spares_of_none rfl)) (hr.store ▸ hr.rooted)
    (hr.bind hoccasion rfl rfl)

theorem Records.supplies (hr : Records c root s files h r) {excluded : Option NodeId}
    {path : List String} {kind name : String} {target : NodeId}
    (hpath : component? path = some (kind, name)) (hfound : findLoaded? c r excluded path = some target) :
    Supplies c s files h kind name target := by
  obtain ⟨kind', name', d, hpath', ⟨hd, hroot, -⟩, hin⟩ := findLoaded?_eq_some hfound
  obtain ⟨rfl, rfl⟩ : kind = kind' ∧ name = name' := by simpa [hpath] using hpath'
  obtain ⟨key, hknown⟩ := hr.exists_known hd
  exact ⟨key, d, hknown, hroot, hr.store ▸ hin⟩

theorem Records.lacks (hr : Records c root s files h r) {path : List String} {kind name : String}
    (hpath : component? path = some (kind, name)) (hnone : findLoaded? c r none path = none) :
    Lacks c s files h kind name := by
  intro key d hknown hroot
  rw [← hr.store]
  exact componentIn?_eq_none_of_findLoaded? hpath hnone (hr.mem_loaded hknown) hroot nofun

theorem goes_adoptInternal (hr : Records c root s files h r)
    (hmet : Encounters c root s files h scope node ref) (hfile : scope.isRoot = false) :
    Goes c root s files chain h (adoptInternal c scope ref) r
      fun _ h' r' => Consulted c root s files h' r'.rootRefs node ref := by
  have answered {h' : History} {rootRefs : List String} (hpre : h <+: h')
      (ha : Answered c s files h scope ref h') : Consulted c root s files h' rootRefs node ref :=
    .inr (.inr ⟨h, scope, hpre, hmet, hfile, ha⟩)
  unfold adoptInternal
  dsimp only
  split
  · next hnone =>
    refine goes_pure hr (answered List.prefix_rfl fun kind name hcomponent => ?_)
    rw [hnone] at hcomponent
    cases hcomponent
  · next kind name hcomponent =>
    have only {h' : History} (ha : isBound c (after c s h) kind name = true ∨
        (∃ target, h ++ [.bind kind name target] <+: h') ∨
        componentIn? (after c s h) scope.document kind name = none ∧ Lacks c s files h kind name) :
        Answered c s files h scope ref h' := by
      intro kind' name' hcomponent'
      obtain ⟨rfl, rfl⟩ : kind = kind' ∧ name = name' := by simpa [hcomponent] using hcomponent'
      exact ha
    rw [goes_get_bind]
    split
    · next hbound => exact goes_pure hr (answered List.prefix_rfl (only (.inl (hr.store ▸ hbound))))
    · next hfree =>
      split
      · next target hfound =>
        have hoffers : Offers c s files h scope.document kind name target := by
          rw [Option.orElse_eq_orElse, Option.orElse_eq_or] at hfound
          rcases Option.or_eq_some_iff.mp hfound with hown | ⟨hnone, hother⟩
          · exact .inl (hr.store ▸ hown)
          · exact .inr ⟨hr.store ▸ hnone, hr.supplies hcomponent hother⟩
        have hoccasion : Occasion c root s files h (.bind kind name target) :=
          .adopt hmet hfile hcomponent (by rw [← hr.store]; simpa using hfree) hoffers
        refine (goes_adopt hr hoccasion).mono fun _ h' r' hend => ?_
        obtain ⟨rfl, -⟩ := hend
        exact answered (List.prefix_append h _) (only (.inr (.inl ⟨target, List.prefix_rfl⟩)))
      · next hnone =>
        rw [Option.orElse_eq_orElse, Option.orElse_eq_or] at hnone
        obtain ⟨hown, hother⟩ := Option.or_eq_none_iff.mp hnone
        refine goes_report hr rfl rfl (answered List.prefix_rfl (only (.inr (.inr ⟨?_, ?_⟩))))
        · exact hr.store ▸ hown
        · exact hr.lacks hcomponent hother

-- A reference of the root document is kept for the end of the walk.
theorem Records.keepRef (hr : Records c root s files h r)
    (hmet : Encounters c root s files h scope node ref) (hroot : scope.isRoot = true) :
    Records c root s files h { r with rootRefs := r.rootRefs ++ [ref] } where
  hasRoot := hr.hasRoot
  lawful := hr.lawful
  store := hr.store
  loaded := hr.loaded
  limits := hr.limits
  events := hr.events
  hit := hr.hit
  inlined := hr.inlined
  bounded := hr.bounded
  passed := hr.passed
  occasion := hr.occasion
  registered := hr.registered
  met ref' hin := by
    rcases List.mem_append.mp hin with hold | hnew
    · exact hr.met ref' hold
    · obtain rfl := List.mem_singleton.mp hnew
      exact ⟨h, scope, node, List.prefix_rfl, hmet, hroot⟩
  came := hr.came
  consulted id hid ref' href hinternal :=
    (hr.consulted id hid ref' href hinternal).mono List.prefix_rfl (List.subset_append_left _ _)
  announced := hr.announced

theorem goes_noteInternal (hr : Records c root s files h r)
    (hmet : Encounters c root s files h scope node ref) :
    Goes c root s files chain h (noteInternal c scope ref) r
      fun _ h' r' => Consulted c root s files h' r'.rootRefs node ref := by
  unfold noteInternal
  split
  · next hroot =>
    refine ensures_modify.mpr ⟨h, .refl, hr.keepRef hmet hroot, .inr (.inl ?_)⟩
    exact List.mem_append_right _ (List.mem_singleton_self _)
  · next hfile => exact goes_adoptInternal hr hmet (by simpa using hfile)

-- What became of a reference that was kept: it names something in the root document, or its component
-- was brought in, or no file has it.
def Rescued (c : Context) (s : Store) (files : List (String × NodeId)) (h : History) (ref : String)
    (k : History) : Prop :=
  (∃ v, Reference.resolve (after c s h) (.node c.document) (pointerPart ref) = .ok v) ∨
    ∀ kind name, component? (segments (pointerPart ref)) = some (kind, name) →
      (∃ target, h ++ [.bind kind name target] <+: k) ∨ Lacks c s files h kind name

theorem Rescued.mono {k k' : History} (hs : Rescued c s files h ref k) (hpre : k <+: k') :
    Rescued c s files h ref k' := by
  refine hs.imp_right fun hall kind name hcomponent => (hall kind name hcomponent).imp_left ?_
  rintro ⟨target, hbind⟩
  exact ⟨target, hbind.trans hpre⟩

-- The walk met the reference in the root document.
def Kept (c : Context) (root : Scope) (s : Store) (files : List (String × NodeId)) (h : History)
    (ref : String) : Prop :=
  ∃ e scope node, e <+: h ∧ Encounters c root s files e scope node ref ∧ scope.isRoot = true

-- No file is loaded between the two moments.
def KnowsAll (files : List (String × NodeId)) (h h' : History) : Prop :=
  ∀ key d, Known files h' key d → Known files h key d

theorem knowsAll_bind (h : History) (kind name : String) (target : NodeId) :
    KnowsAll files h (h ++ [.bind kind name target]) := by
  intro key d hknown
  unfold Known at hknown
  rwa [List.filterMap_append, List.filterMap_cons_none rfl, List.filterMap_nil,
    List.append_nil] at hknown

theorem goes_adoptDangling (hr : Records c root s files h r) (hkept : Kept c root s files h ref) :
    Goes c root s files chain h (adoptDangling c ref) r fun _ h' r' =>
      r'.rootRefs = r.rootRefs ∧ KnowsAll files h h' ∧ Rescued c s files h ref h' := by
  obtain ⟨e, scope, node, he, hmet, hroot⟩ := hkept
  unfold adoptDangling
  dsimp only
  rw [goes_get_bind]
  split
  · next v hv => exact goes_pure hr ⟨rfl, fun _ _ => id, .inl ⟨v, hr.store ▸ hv⟩⟩
  · split
    · next kind name target hcomponent hfound =>
      have hoccasion : Occasion c root s files h (.bind kind name target) :=
        .rescue he hmet hroot hcomponent (hr.supplies hcomponent hfound)
      refine (goes_adopt hr hoccasion).mono fun _ h' r' hend => ?_
      obtain ⟨rfl, hrefs⟩ := hend
      refine ⟨hrefs, knowsAll_bind h kind name target, .inr fun kind' name' hcomponent' => ?_⟩
      obtain ⟨rfl, rfl⟩ : kind = kind' ∧ name = name' := by simpa [hcomponent] using hcomponent'
      exact .inl ⟨target, List.prefix_rfl⟩
    · next hneither =>
      refine goes_report hr rfl rfl ⟨rfl, fun _ _ => id, .inr fun kind name hcomponent => .inr ?_⟩
      cases hfound : findLoaded? c r none (segments (pointerPart ref)) with
      | none => exact hr.lacks hcomponent hfound
      | some target => exact (hneither kind name target hcomponent hfound).elim

theorem goes_adoptEach {refs : List String} (hr : Records c root s files h r)
    (hkept : ∀ ref ∈ refs, Kept c root s files h ref) :
    Goes c root s files chain h (refs.forM (adoptDangling c)) r fun _ h' r' =>
      r'.rootRefs = r.rootRefs ∧ KnowsAll files h h' ∧
        ∀ ref ∈ refs, ∃ e, h <+: e ∧ e <+: h' ∧ Rescued c s files e ref h' := by
  induction refs generalizing h r with
  | nil => exact goes_pure hr ⟨rfl, fun _ _ => id, nofun⟩
  | cons first rest ih =>
      refine (goes_adoptDangling hr (hkept first List.mem_cons_self)).bind
        fun _ h₁ r₁ hc₁ hr₁ hend => ?_
      obtain ⟨hrefs, hknows, hfirst⟩ := hend
      have hrest : ∀ ref ∈ rest, Kept c root s files h₁ ref := by
        intro ref hin
        obtain ⟨e, scope, node, he, hmet⟩ := hkept ref (List.mem_cons_of_mem first hin)
        exact ⟨e, scope, node, he.trans hc₁.isPrefix, hmet⟩
      unfold Goes
      refine Ensures.mono (ih hr₁ hrest) (fun _ r₂ hend => ?_) fun _ _ => id
      obtain ⟨h₂, hc₂, hr₂, hrefs₂, hknows₂, hall⟩ := hend
      refine ⟨h₂, hc₂, hr₂, hrefs₂.trans hrefs, fun key d hd => hknows key d (hknows₂ key d hd),
        fun ref hin => ?_⟩
      rcases List.mem_cons.mp hin with rfl | hin
      · exact ⟨h, List.prefix_rfl, hc₁.isPrefix.trans hc₂.isPrefix, hfirst.mono hc₂.isPrefix⟩
      · obtain ⟨e, hpre, he, hrescued⟩ := hall ref hin
        exact ⟨e, hc₁.isPrefix.trans hpre, he, hrescued⟩

-- Nothing that was kept is forgotten between the two moments.
def AllRescued (c : Context) (s : Store) (files : List (String × NodeId)) (h h' : History)
    (rootRefs : List String) : Prop :=
  ∀ ref ∈ rootRefs, ∃ e, h <+: e ∧ e <+: h' ∧ KnowsAll files e h' ∧ Rescued c s files e ref h'

theorem goes_adoptAllDangling (hr : Records c root s files h r) :
    Goes c root s files chain h (adoptAllDangling c) r
      fun _ h' r' => AllRescued c s files h h' r'.rootRefs := by
  unfold adoptAllDangling
  rw [goes_get_bind]
  refine (goes_adoptEach hr fun ref hin => hr.met ref (List.mem_eraseDups.mp hin)).mono
    fun _ h' r' hend ref hin => ?_
  obtain ⟨hrefs, hknows, hall⟩ := hend
  obtain ⟨e, hpre, he, hrescued⟩ := hall ref (List.mem_eraseDups.mpr (hrefs ▸ hin))
  exact ⟨e, hpre, he, fun key d hd => (hknows key d hd).mono hpre, hrescued⟩

end Components

end ApiGraph.Resolve
