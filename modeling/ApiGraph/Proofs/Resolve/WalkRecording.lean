import ApiGraph.Proofs.Resolve.Recording

namespace ApiGraph.Resolve

open Store Reference

section Walk

variable (c : Context) (root : Scope) (s : Store) (files : List (String × NodeId))

-- Where a reference is found at the end, the walk had a reason to leave it.
def Leaves (chain : Chain) (h : History) (r : Run) (id : NodeId) : Prop :=
  isExternalRef (r.store.entries id) = true → chain.hasNode id = true ∨ Excused c s h id

-- A walk of what the references that are being resolved lead to.
def Recorded (walk : Walker) : Prop :=
  ∀ scope chain v h r, Records c root s files h r →
    (∀ id, v = .node id → Way c root s files h scope chain id) →
    Goes c root s files chain h (walk scope chain v) r
      fun _ h' r' => ∀ id, v = .node id → Leaves c s chain h' r' id

variable {c root s files} {scope : Scope} {chain : Chain} {h h' : History} {r r' : Run}
  {walk : Walker} {node : NodeId} {ref key : String} {name : Option String}

theorem Pending.carried (hp : Pending c s h node ref) : Carried c s h node ref := by
  obtain ⟨e, k, rfl, hpending, hext, -⟩ := hp
  exact ⟨e, List.prefix_append e k, (pendingRef?_eq_some hpending).1, hext⟩

theorem mapping?_of_ref? {s : Store} {id : NodeId} (href : (s.entries id).ref? = some ref) :
    (s.mapping? id).isSome := by
  cases hm : s.mapping? id with
  | some m => rfl
  | none =>
      rw [entries_eq_empty hm] at href
      cases href

-- What had a reference is a mapping ever since.
theorem Records.isMapping (hr : Records c root s files h r) (hc : Carried c s h node ref) :
    (r.store.mapping? node).isSome := by
  obtain ⟨e, he, href, -⟩ := hc
  rw [hr.store]
  exact (hr.lawful.keeps hr.hasRoot he).mapping node (mapping?_of_ref? href)

theorem Records.ref?_before (hr : Records c root s files h r) (hr' : Records c root s files h' r')
    (hpre : h <+: h') {id : NodeId} (hid : id < r.store.nodes.size)
    (href : (r'.store.entries id).ref? = some ref) : (r.store.entries id).ref? = some ref := by
  rw [hr.store] at hid ⊢
  rw [hr'.store] at href
  exact hr'.lawful.ref? hr.hasRoot hpre hid href

theorem Records.ref?_eq_none (hr : Records c root s files h r) (hr' : Records c root s files h' r')
    (hpre : h <+: h') {id : NodeId} (hid : id < r.store.nodes.size)
    (hnone : (r.store.entries id).ref? = none) : (r'.store.entries id).ref? = none := by
  rw [hr.store] at hid hnone
  rw [hr'.store]
  exact hr'.lawful.ref?_eq_none hr.hasRoot hpre hid hnone

theorem Records.isExternalRef_before (hr : Records c root s files h r) (hr' : Records c root s files h' r')
    (hpre : h <+: h') {id : NodeId} (hid : id < r.store.nodes.size)
    (hext : isExternalRef (r'.store.entries id) = true) :
    isExternalRef (r.store.entries id) = true :=
  isExternalRef_of_ref? (fun _ href => hr.ref?_before hr' hpre hid href) hext

theorem goes_markCircular (hr : Records c root s files h r) (hnode : chain.hasNode node = false)
    (hp : Pending c s h node ref) (hcloses : Closes c s h node ref) :
    Goes c root s files chain h (markCircular node ref name) r fun _ h' _ => Passed c s h' node := by
  have hm := hr.isMapping hp.carried
  have hstep : Records c root s files (h ++ [.mark node ref name])
      { r with
        store := r.store.set node (.mapping (markedContent (r.store.entries node) name))
        events := r.events ++ [.circular node ref] } :=
    hr.step (.mark name (hr.store ▸ hm) hp.carried hcloses) (.mark name hp) rfl
      (List.append_nil _).symm (List.append_nil _).symm (by simp [isOfReference, Deed.event?]) rfl rfl
      (fun id => by simp [Deed.inlines?]) nofun (by simp [announced?, newBinding?])
  refine .note (d := .mark node ref name) ?_ fun id hid => ?_
  · unfold markCircular
    rw [goes_getStore_bind, goes_setStore_bind]
    refine ensures_report.mpr ⟨_, .refl, hstep, _, .scalar (.bool true), List.prefix_rfl, ?_, rfl⟩
    obtain ⟨m, hm⟩ := Option.isSome_iff_exists.mp hm
    rw [← hstep.store, entries_set_self hm]
    exact get?_markedContent_circularRefKey name
  · cases hid
    exact hnode

-- A file is walked where the reference into it is followed.
theorem goes_load (hw : Recorded c root s files walk) {l : Location}
    (hr : Records c root s files h r) (hp : Pending c s h node ref)
    (hway : Way c root s files h scope chain node) (hkeyed : Keyed c key l)
    (hlocates : Locates c h node ref key) :
    Goes c root s files (⟨targetText key ref, node⟩ :: chain) h
      (load c walk (⟨targetText key ref, node⟩ :: chain) l key) r
      fun d h' _ => Known files h' key d := by
  unfold load
  rw [goes_get_bind]
  split
  · next d hd => exact goes_pure hr (hr.known hd)
  · next hnew =>
    rw [goes_getStore_bind]
    split
    · exact goes_fail hr
    · exact goes_throw hr
    · next d s' hparse =>
      rw [goes_modify_bind, goes_report_bind]
      let r₁ : Run := { r with
        store := s', loaded := r.loaded.insert key d, events := r.events ++ [.loaded l.path] }
      have hload : Records c root s files (h ++ [.load key d s']) r₁ :=
        hr.step (.load hkeyed.1 (hr.store ▸ hparse)) (.other nofun nofun nofun) rfl
          (OrderedMap.entries_insert_of_get?_eq_none d hnew) (List.append_nil _).symm
          (by simp [r₁, isOfReference, Deed.event?]) rfl rfl (fun id => by simp [r₁, Deed.inlines?])
          nofun (by simp [r₁, announced?, newBinding?])
      have hknown : Known files (h ++ [.load key d s']) key d :=
        hload.known (by simp [r₁, OrderedMap.get?_insert])
      have hpre : h <+: h ++ [.load key d s'] := List.prefix_append _ _
      -- Without a pointer the file is the target.
      obtain ⟨w, hled⟩ : ∃ w,
          Led c s files (h ++ [.load key d s']) ⟨targetText key ref, node⟩ d w := by
        by_cases hpath : segments (pointerPart ref) = []
        · exact ⟨false, ref, key, d, hp.carried.mono hpre, hlocates.mono hpre, rfl, hknown,
            .inl ⟨hpath, rfl⟩⟩
        · exact ⟨true, ref, key, d, hp.carried.mono hpre, hlocates.mono hpre, rfl, hknown, hpath,
            rfl, h, s', rfl⟩
      have hfollow := hload.follow hled
      refine .note (d := .load key d s') ?_ (spares_of_none rfl)
      refine .note (d := .follow ⟨targetText key ref, node⟩ d w) ?_ (spares_of_none rfl)
      refine (hw _ _ _ _ _ hfollow fun id hid => ?_).bind fun _ h' r' hc hr' _ => ?_
      · cases hid
        exact (hway.mono (hpre.trans (List.prefix_append _ _))).follow
          (List.mem_append_right _ (List.mem_singleton_self _))
          (.inr ⟨d, key, l, rfl, hkeyed, hknown.mono (List.prefix_append _ _)⟩) .document
      · exact goes_pure hr' (hknown.mono ((List.prefix_append _ _).trans hc.isPrefix))

theorem Lent.selected {external target : NodeId} (hl : Lent c s files h external ref target) :
    Selected c s files h external (segments (pointerPart ref)) target := by
  obtain ⟨-, kind, name, key, d, hpath, hknown, -, hin⟩ := hl
  exact .inr ⟨kind, name, key, d, hpath, hknown, hin⟩

-- What the reference names in the file, or what another file lends.
def Picked (c : Context) (s : Store) (files : List (String × NodeId)) (h : History)
    (external : NodeId) (ref : String) (target : NodeId) : Prop :=
  (segments (pointerPart ref) = [] ∧ target = external) ∨
    Reference.resolve (after c s h) (.node external)
      (joinSegments (segments (pointerPart ref))) = .ok (.node target) ∨
    Lent c s files h external ref target

theorem goes_targetOf (hr : Records c root s files h r) (external : NodeId) (ref : String) :
    Goes c root s files chain h (targetOf c external (segments (pointerPart ref)) ref) r
      fun v h' _ => h' = h ∧ ∀ t, v = .node t → Picked c s files h external ref t := by
  unfold targetOf
  split
  · next hempty =>
    refine goes_pure hr ⟨rfl, fun t ht => ?_⟩
    cases ht
    exact .inl ⟨List.isEmpty_iff.mp hempty, rfl⟩
  · rw [goes_get_bind]
    split
    · next v hv =>
      refine goes_pure hr ⟨rfl, fun t ht => .inr (.inl ?_)⟩
      rw [← hr.store, hv, ht]
    · next e he =>
      split
      · next id hid =>
        refine goes_pure hr ⟨rfl, fun t ht => .inr (.inr ⟨fun v hv => ?_, ?_⟩)⟩
        · rw [← hr.store, he] at hv
          cases hv
        · cases ht
          obtain ⟨kind, name, d, hpath, ⟨hd, -, hother⟩, hcomponent⟩ := findLoaded?_eq_some hid
          obtain ⟨key, hknown⟩ := hr.exists_known hd
          exact ⟨kind, name, key, d, hpath, hknown, by simpa using hother, hr.store ▸ hcomponent⟩
      · exact goes_fail hr

-- The target lies in the scope of the file.
theorem Picked.within {external target : NodeId} {l : Location}
    (hp : Picked c s files h external ref target)
    (hf : h ++ [.follow ⟨targetText key ref, node⟩ target false] <+: h') :
    Within c s files h' (scopeOf c external key l) target := by
  have hstart : Within c s files h' (scopeOf c external key l) external := .document
  rcases hp with ⟨-, rfl⟩ | hresolve | hlent
  · exact hstart
  · exact hstart.reach ((List.prefix_append h _).trans hf) (reach_of_follow hresolve)
  · exact .lent rfl hlent hf

-- What becomes of a reference: it is gone, and what the walk goes on with stood beside it; or it
-- stays for a reason.
def Settles (c : Context) (s : Store) (h : History) (r : Run) (node : NodeId) :
    Option Entries → Prop
  | some own => (r.store.entries node).ref? = none ∧ ∃ e, e <+: h ∧
      ∀ v ∈ own.values, v ∈ (after c s e).children node
  | none => Excused c s h node

theorem goes_replaceContent_bind {α : Type} {target : NodeId} {f : Entries → ResolveM α}
    {Q : α → History → Run → Prop} :
    Goes c root s files chain h (replaceContent node target name >>= f) r Q ↔
      Goes c root s files chain h (f ((r.store.entries node).erase (.str refKey)))
        { r with store := replaced r.store node target name } Q := by
  unfold Goes replaceContent replaced
  simp only [ensures_bind, ensures_getStore, ensures_setStore, ensures_pure]

-- One of two deeds is the first of them, or it comes after the first.
theorem concat_prefix_pair {pre : History} {d first second : Deed}
    (hpre : pre ++ [d] <+: [first, second]) :
    (pre = [] ∧ d = first) ∨ pre = [first] ∧ d = second := by
  obtain ⟨post, hpost⟩ := hpre
  rw [List.append_assoc, List.singleton_append] at hpost
  cases pre with
  | nil => exact .inl ⟨rfl, (List.cons.inj hpost).1⟩
  | cons _ pre =>
      obtain ⟨hfirst, hrest⟩ := List.cons.inj hpost
      cases pre with
      | nil => exact .inr ⟨by rw [hfirst], (List.cons.inj hrest).1⟩
      | cons _ pre => cases pre <;> cases (List.cons.inj hrest).2

-- The copy of a schema is registered at once.
theorem Records.inlineNamed {target : NodeId} {n : String} (hr : Records c root s files h r)
    {r₁ : Run} (ht : Tells c s files (h ++ [.inline node target ref (some n)]) r₁)
    (hrefs : r₁.rootRefs = r.rootRefs)
    (hv : ∀ id ∈ r₁.visited, id ∈ r.visited ∨
      (r₁.store.entries id).ref? = none ∧ Comes c root s files h id)
    (hb : r₁.events.filterMap announced? = r.events.filterMap announced?) :
    Records c root s files
      (h ++ [.inline node target ref (some n), .bind "schemas" n target])
      (boundRun c "schemas" n target (.registered n ref) r₁) := by
  let r₂ : Run := boundRun c "schemas" n target (.registered n ref) r₁
  have hbind : Tells c s files
      ((h ++ [.inline node target ref (some n)]) ++ [.bind "schemas" n target]) r₂ := by
    refine ht.step (.bind "schemas" n target) rfl (List.append_nil _).symm (List.append_nil _).symm
      ?_ rfl fun id => by simp [r₂, boundRun, Deed.inlines?]
    unfold r₂ boundRun
    cases isBound c r₁.store "schemas" n <;> simp [isOfReference, Deed.event?]
  rw [List.append_assoc, List.singleton_append] at hbind
  refine hr.extend hbind (fun pre d hpre => ?_) (fun pre node' target' ref' name' hpre => ?_) hrefs
    (fun id hid => ?_) ?_
  · rcases concat_prefix_pair hpre with ⟨rfl, rfl⟩ | ⟨rfl, rfl⟩
    · exact occasion_inline node target _
    · exact .register rfl
  · rcases concat_prefix_pair hpre with ⟨rfl, heq⟩ | ⟨-, heq⟩
    · cases heq
      exact List.prefix_rfl
    · cases heq
  · refine (hv id hid).imp_right fun hnew => ⟨?_, hnew.2⟩
    cases href : (r₂.store.entries id).ref? with
    | none => rfl
    | some left =>
        have hbefore : (r₁.store.entries id).ref? = some left := by
          refine text?_of_bound ?_ href
          rw [ht.store]
          exact ht.rooted
        rw [hnew.1] at hbefore
        cases hbefore
  · have hlog : r₂.events.filterMap announced? = _ := filterMap_boundRun rfl
    rw [hlog, hb, hr.announced, bindings_append, ht.store, after_concat]
    simp [bindings, newBinding?]

-- Once its content is taken a reference is settled for good.
theorem settles_of_inline {target : NodeId} (hr : Records c root s files h r)
    (hm : (r.store.mapping? node).isSome) (hr' : Records c root s files h' r')
    (hpre : h ++ [.inline node target ref name] <+: h') :
    Settles c s h' r' node (some ((r.store.entries node).erase (.str refKey))) := by
  obtain ⟨m, hm⟩ := Option.isSome_iff_exists.mp hm
  refine ⟨?_, h, (List.prefix_append h _).trans hpre, ?_⟩
  · rw [hr'.store]
    exact hr'.lawful.ref?_of_inlines? hr.hasRoot hpre rfl
  · rw [entries_of_mapping? hm, ← hr.store]
    exact fun v => mem_children_of_mem_own hm

theorem goes_takeContent {target : NodeId} (hr : Records c root s files h r)
    (hresolves : Resolves c s h node target ref) (hnode : chain.hasNode node = false) :
    Goes c root s files chain h (takeContent c node target ref name) r
      fun own h' r' => Settles c s h' r' node own := by
  have hm : (r.store.mapping? node).isSome := hr.store ▸ hresolves.isMapping
  have hlegit : Legit c s files h (.inline node target ref name) := .inline name hresolves
  let r₁ : Run := { r with
    store := replaced r.store node target name
    events := r.events ++ [.inlined node target ref]
    visited := node :: r.visited }
  have hstep : Tells c s files (h ++ [.inline node target ref name]) r₁ :=
    hr.toTells.step hlegit rfl (List.append_nil _).symm (List.append_nil _).symm
      (by simp [r₁, isOfReference, Deed.event?]) rfl
      fun id => by simp [r₁, Deed.inlines?, or_comm, eq_comm]
  have hgone := hstep.lawful.ref?_of_inlines? hr.hasRoot List.prefix_rfl rfl
  have hv : ∀ id ∈ r₁.visited, id ∈ r.visited ∨
      (r₁.store.entries id).ref? = none ∧ Comes c root s files h id := by
    intro id hid
    rcases List.mem_cons.mp hid with rfl | hold
    · exact .inr ⟨hstep.store ▸ hgone, hr.comes hresolves⟩
    · exact .inl hold
  have spares {d : Deed} (hd : d = .inline node target ref name ∨ d.settles? = none) :
      Spares chain d := by
    rcases hd with rfl | hnone
    · intro id hid
      cases hid
      exact hnode
    · exact spares_of_none hnone
  unfold takeContent
  rw [goes_replaceContent_bind, goes_report_bind, goes_visit_bind]
  cases name with
  | some n =>
      have hboth := hr.inlineNamed hstep rfl hv (by simp [r₁, announced?])
      have hpre : h ++ [.inline node target ref (some n)] <+:
          h ++ [.inline node target ref (some n), .bind "schemas" n target] :=
        (List.prefix_append_right_inj h).mpr (List.prefix_append [_] [_])
      have hc : Continues h chain
          (h ++ [.inline node target ref (some n), .bind "schemas" n target]) :=
        ⟨_, rfl, fun d hd => spares (by rcases hd with _ | ⟨_, _ | ⟨_, ⟨⟩⟩⟩ <;> simp [Deed.settles?])⟩
      have hroot : (r₁.store.mapping? c.document).isSome := hstep.store ▸ hstep.rooted
      refine (goes_registerSchema hc hroot hboth).bind fun _ h' r' _ hr' hend => ?_
      obtain ⟨rfl, -⟩ := hend
      exact goes_pure hr' (settles_of_inline hr hm hr' hpre)
  | none =>
      have hdone : Records c root s files (h ++ [.inline node target ref none]) r₁ := by
        refine hr.step hlegit (occasion_inline node target none) rfl (List.append_nil _).symm
          (List.append_nil _).symm (by simp [r₁, isOfReference, Deed.event?]) rfl rfl
          (fun id => by simp [r₁, Deed.inlines?, or_comm, eq_comm]) (by simp)
          (by simp [r₁, announced?, newBinding?])
      refine .note (d := .inline node target ref none) ?_ (spares (.inl rfl))
      exact goes_pure hdone (settles_of_inline hr hm hdone List.prefix_rfl)

-- A target that stays a reference closes a cycle: it is being resolved, and then the way back is its
-- own, or there was a reason to leave it.
theorem closes_of_leaves {target : NodeId} (hway : Way c root s files h scope chain node)
    (hlocates : Locates c h node ref key)
    (hin : .follow ⟨targetText key ref, node⟩ target false ∈ h)
    (hext : isExternalRef ((after c s h).entries target) = true)
    (hleaves : Chain.hasNode (⟨targetText key ref, node⟩ :: chain) target = true ∨
      Excused c s h target) : Closes c s h node ref := by
  have haims : Aims c h node ref target := ⟨key, hlocates, hin⟩
  rcases hleaves with hactive | ⟨m, hm⟩ | hpassed
  · have hpoints : Points c h true node ref target :=
      ⟨_, key, false, hlocates, rfl, hin, fun _ => rfl⟩
    obtain ⟨l, hl, hnode⟩ := List.any_eq_true.mp hactive
    obtain rfl : l.node = target := by simpa using hnode
    rcases List.mem_cons.mp hl with rfl | hl
    · exact .back hpoints .refl
    · obtain ⟨start, w, hstart, hleads⟩ := hway.leads l hl
      exact .back hpoints (.trans (.ref .refl hstart fun _ => rfl) hleads)
  · exact .limited haims hext hm
  · exact .passed haims hext hpassed

theorem goes_inlineMapping (hw : Recorded c root s files walk) {file : Scope} {target : NodeId}
    (hr : Records c root s files h r) (hp : Pending c s h node ref)
    (hway : Way c root s files h scope chain node) (hlocates : Locates c h node ref key)
    (hnode : chain.hasNode node = false)
    (hled : Led c s files h ⟨targetText key ref, node⟩ target false)
    (hfile : IsScope c root files h file)
    (hwithin : Within c s files (h ++ [.follow ⟨targetText key ref, node⟩ target false]) file target) :
    Goes c root s files chain h
      (inlineMapping c (fun id => walk file (⟨targetText key ref, node⟩ :: chain) (.node id)) node
        target ref name) r fun own h' r' => Settles c s h' r' node own := by
  unfold inlineMapping
  rw [goes_getStore_bind]
  split
  · exact (goes_fail (Q := fun _ _ _ => False) hr).bind fun _ _ _ _ _ hfalse => hfalse.elim
  · next hmapping =>
    rw [Option.isNone_iff_eq_none, ← ne_eq, Option.ne_none_iff_isSome] at hmapping
    have hfollow := hr.follow hled
    have hin : .follow ⟨targetText key ref, node⟩ target false ∈
        h ++ [.follow ⟨targetText key ref, node⟩ target false] :=
      List.mem_append_right _ (List.mem_singleton_self _)
    have hpre : h <+: h ++ [.follow ⟨targetText key ref, node⟩ target false] := List.prefix_append _ _
    have hdone : Continues h (⟨targetText key ref, node⟩ :: chain)
        (h ++ [.follow ⟨targetText key ref, node⟩ target false]) := .concat (spares_of_none rfl)
    have hway' := (hway.mono hpre).follow hin (hfile.mono hpre) hwithin
    refine .note (d := .follow ⟨targetText key ref, node⟩ target false) ?_ (spares_of_none rfl)
    refine (hw file _ (.node target) _ _ hfollow fun id hid => by cases hid; exact hway').tail.bind
      fun _ h' r' hc hr' hend => ?_
    obtain ⟨hinner, hleaves⟩ := hend
    have hlocates' : Locates c h' node ref key := hlocates.mono (hpre.trans hc.isPrefix)
    have haims : Aims c h' node ref target := ⟨key, hlocates', hc.isPrefix.subset hin⟩
    have hpending' : Pending c s h' node ref := (hdone.trans hinner).pending hp
    unfold takeWalked
    rw [goes_getStore_bind]
    dsimp only
    split
    · next hext =>
      have hext' : isExternalRef ((after c s h').entries target) = true := hr'.store ▸ hext
      have hcloses := closes_of_leaves (hway.mono (hpre.trans hc.isPrefix)) hlocates'
        (hc.isPrefix.subset hin) hext' (hleaves target rfl hext)
      refine (goes_markCircular hr' hnode hpending' hcloses).bind
        fun _ h'' r'' _ hr'' hpassed => ?_
      exact goes_pure hr'' (.inr hpassed)
    · next hplain =>
      refine goes_takeContent hr' ⟨hpending', ?_, ?_, ?_, haims⟩ hnode
      · exact hr'.store ▸ hr'.isMapping hpending'.carried
      · rw [hr.store] at hmapping
        exact (hr'.lawful.keeps hr.hasRoot (hpre.trans hc.isPrefix)).mapping target hmapping
      · exact hr'.store ▸ eq_false_of_ne_true hplain

theorem goes_inlineTarget (hw : Recorded c root s files walk) {l : Location}
    (hr : Records c root s files h r) (hp : Pending c s h node ref)
    (hway : Way c root s files h scope chain node) (hkeyed : Keyed c key l)
    (hlocates : Locates c h node ref key) (hnode : chain.hasNode node = false) :
    Goes c root s files chain h
      (inlineTarget c walk (⟨targetText key ref, node⟩ :: chain) node ref key l
        (segments (pointerPart ref)) name) r fun own h' r' => Settles c s h' r' node own := by
  unfold inlineTarget
  refine (goes_load hw hr hp hway hkeyed hlocates).tail.bind fun d h₁ r₁ hc₁ hr₁ hend => ?_
  obtain ⟨hinner, hknown⟩ := hend
  have hp₁ := hinner.pending hp
  refine (goes_targetOf hr₁ d ref).bind fun v h₂ r₂ _ hr₂ hend => ?_
  obtain ⟨rfl, htarget⟩ := hend
  split
  · next target =>
    have hlocates₁ := hlocates.mono hc₁.isPrefix
    have hpicked := htarget target rfl
    refine goes_inlineMapping hw hr₂ hp₁ (hway.mono hc₁.isPrefix) hlocates₁ hnode
      ⟨ref, key, d, hp₁.carried, hlocates₁, rfl, hknown, ?_⟩ (.inr ⟨d, key, l, rfl, hkeyed, hknown⟩)
      (hpicked.within List.prefix_rfl)
    exact hpicked.imp_right fun hselected => hselected.elim .inl Lent.selected
  · exact goes_fail hr₂

theorem goes_recover {body : ResolveM (Option Entries)} {Q : Option Entries → History → Run → Prop}
    (hbody : Goes c root s files chain h body r Q) :
    Goes c root s files chain h (recover ref body) r
      fun own h' r' => Q own h' r' ∨ (own = none ∧ ∃ m, .limit m ∈ h') := by
  unfold recover Goes
  rw [ensures_tryCatch]
  refine Ensures.mono hbody (fun own r' hend => ?_) fun e r' hend => ?_
  · obtain ⟨h', hc, hr', hq⟩ := hend
    exact ⟨h', hc, hr', .inl hq⟩
  · obtain ⟨h', hc, hr'⟩ := hend
    split
    · refine Goes.after ((goes_limit hr').bind fun _ h'' r'' _ hr'' hin => ?_) hc
      exact goes_pure hr'' (.inr ⟨rfl, _, hin⟩)
    · exact ensures_throw.mpr ⟨h', hc, hr'⟩

theorem Records.look (hr : Records c root s files h r) (hc : Carried c s h node ref)
    (hway : Way c root s files h scope chain node) :
    Records c root s files (h ++ [.look node ref scope.base])
      { r with events := r.events ++ [.lookedUp node ref scope.base] } :=
  hr.step (.look scope.base hc) (.look ref hway.isScope hway.within) rfl (List.append_nil _).symm
    (List.append_nil _).symm (by simp [isOfReference, Deed.event?]) rfl rfl
    (fun id => by simp [Deed.inlines?]) nofun (by simp [announced?, newBinding?])

theorem goes_locate (hr : Records c root s files h r) (hp : Pending c s h node ref)
    (hway : Way c root s files h scope chain node) :
    Goes c root s files chain h (locate c scope node ref) r fun l h' _ =>
      Pending c s h' node ref ∧ Locates c h' node ref (locationKey c.locator.tree l) ∧
        Keyed c (locationKey c.locator.tree l) l := by
  have hdone : Continues h [⟨"", node⟩] (h ++ [.look node ref scope.base]) :=
    .concat (spares_of_none rfl)
  refine .note (d := .look node ref scope.base) ?_ (spares_of_none rfl)
  unfold locate
  rw [goes_report_bind]
  have hlook := hr.look hp.carried hway
  split
  · next l hl =>
    have hin : .look node ref scope.base ∈ h ++ [.look node ref scope.base] :=
      List.mem_append_right _ (List.mem_singleton_self _)
    exact goes_pure hlook ⟨hdone.pending hp, ⟨scope.base, l, hin, hl, rfl⟩, rfl, archive_of_locate hl⟩
  · exact goes_fail hlook

-- All that stood in a container at some moment is walked.
theorem goes_values (hw : Recorded c root s files walk) (hr : Records c root s files h r)
    (hway : Way c root s files h scope chain node) {e : History} (he : e <+: h) {vs : List Value}
    (hvs : ∀ v ∈ vs, v ∈ (after c s e).children node) :
    Goes c root s files chain h (vs.forM (walk scope chain)) r fun _ _ _ => True := by
  refine goes_forM (P := fun v h => ∀ id, v = .node id → Way c root s files h scope chain id)
    (fun v h₁ h₂ hv hpre id hid => (hv id hid).mono hpre)
    (fun v h₁ r₁ hr₁ hv => (hw scope chain v h₁ r₁ hr₁ hv).mono fun _ _ _ _ => trivial) hr
    fun v hv id hid => ?_
  exact hway.child hr.lawful he (hid ▸ hvs v hv)

theorem Excused.leaves {id : NodeId} (he : Excused c s h id) : Leaves c s chain h r id :=
  fun _ => .inr he

theorem leaves_of_ref?_eq_none {id : NodeId} (hnone : (r.store.entries id).ref? = none) :
    Leaves c s chain h r id :=
  fun hext => absurd hext (not_isExternalRef hnone)

theorem goes_inlineExternal (hw : Recorded c root s files walk)
    (hr : Records c root s files h r) (hway : Way c root s files h scope chain node)
    (hpending : pendingRef? r.store (r.store.entries node) = some ref)
    (hext : isExternal ref = true) (hv : node ∉ r.visited) (hnode : chain.hasNode node = false) :
    Goes c root s files chain h (inlineExternal c walk scope chain node ref) r
      fun _ h' r' => Leaves c s chain h' r' node := by
  have hp : Pending c s h node ref := by
    refine ⟨h, [], (List.append_nil h).symm, hr.store ▸ hpending, hext, fun d hd hin => ?_,
      fun d hd => ?_⟩
    · exact hv (hr.inlined d hd node hin)
    · cases hd
  unfold inlineExternal
  dsimp only
  split
  · refine (goes_limit hr).bind fun _ h' r' _ hr' hin => ?_
    exact goes_pure hr' (Excused.leaves (.inl ⟨_, hin⟩))
  · refine (goes_locate hr hp hway).bind fun l h₁ r₁ hc₁ hr₁ hend => ?_
    obtain ⟨hp₁, hlocates, hkeyed⟩ := hend
    have hway₁ := hway.mono hc₁.isPrefix
    split
    · next hactive =>
      obtain ⟨l', hl', htarget⟩ := List.any_eq_true.mp hactive
      obtain ⟨start, w, hstart, hleads⟩ := hway₁.leads l' hl'
      have hcloses : Closes c s h₁ node ref :=
        .back ⟨l', _, w, hlocates, beq_iff_eq.mp htarget, hstart, fun _ => rfl⟩ hleads
      refine (goes_markCircular hr₁ hnode hp₁ hcloses).bind fun _ h' r' _ hr' hpassed => ?_
      exact goes_pure hr' (Excused.leaves (.inr hpassed))
    · refine (goes_recover (goes_inlineTarget hw hr₁ hp₁ hway₁ hkeyed hlocates hnode)).bind
        fun own h₂ r₂ hc₂ hr₂ hend => ?_
      cases own with
      | none =>
          refine goes_pure hr₂ (Excused.leaves ?_)
          exact hend.elim id fun hlimit => .inl hlimit.2
      | some own =>
          obtain ⟨hgone, e, he, hown⟩ : Settles c s h₂ r₂ node (some own) :=
            hend.resolve_right fun hlimit => by cases hlimit.1
          have hlt : node < r₂.store.nodes.size := by
            obtain ⟨m, hm⟩ := Option.isSome_iff_exists.mp
              (hr₂.isMapping (hp₁.carried.mono hc₂.isPrefix))
            exact lt_size_of_mapping? hm
          have hall := goes_values hw hr₂ (hway₁.mono hc₂.isPrefix) he hown
          unfold Goes
          refine Ensures.mono hall (fun _ r₃ hend => ?_) fun _ _ => id
          obtain ⟨h₃, hc₃, hr₃, -⟩ := hend
          exact ⟨h₃, hc₃, hr₃, leaves_of_ref?_eq_none
            (hr₂.ref?_eq_none hr₃ hc₃.isPrefix hlt hgone)⟩

-- A container that is not counted any more leaves a limit behind.
theorem goes_countNode (hr : Records c root s files h r) (scope : Scope) :
    Goes c root s files chain h (countNode c scope) r fun counted h' r' =>
      r'.store = r.store ∧ r'.visited = r.visited ∧ (counted = false → ∃ m, .limit m ∈ h') := by
  have hcounted : Records c root s files h { r with walked := r.walked + 1 } :=
    hr.congr rfl rfl rfl rfl hr.hit rfl rfl rfl
  unfold countNode
  rw [goes_modify_bind, goes_get_bind]
  dsimp only
  split
  · exact goes_pure hcounted ⟨rfl, rfl, fun hfalse => by cases hfalse⟩
  · split
    · simp only [Goes, ensures_bind, ensures_set, ensures_limit, ensures_pure]
      refine ⟨_, .concat (spares_of_none rfl), (hcounted.limit _).congr rfl rfl rfl rfl ?_ rfl rfl rfl,
        trivial, trivial, fun _ => ⟨_, List.mem_append_right _ (List.mem_singleton_self _)⟩⟩
      simp
    · next hhit =>
      refine goes_pure hcounted ⟨rfl, rfl, fun _ => ?_⟩
      have hsome : r.limits ≠ [] := hr.hit (by simpa using hhit)
      rw [hr.limits] at hsome
      obtain ⟨m, hm⟩ := List.exists_mem_of_ne_nil _ hsome
      obtain ⟨d, hd, hlimit⟩ := List.mem_filterMap.mp hm
      exact ⟨m, Deed.limit?_eq_some hlimit ▸ hd⟩

-- A container is visited, and what stands in it is walked.
theorem goes_visitAll (hw : Recorded c root s files walk) (hr : Records c root s files h r)
    (hway : Way c root s files h scope chain node) (hlt : node < r.store.nodes.size)
    (hpassed : isExternalRef (r.store.entries node) = true → Passed c s h node)
    (hconsulted : ∀ ref, (r.store.entries node).ref? = some ref → isInternal ref = true →
      Consulted c root s files h r.rootRefs node ref) {vs : List Value}
    (hvs : ∀ v ∈ vs, v ∈ r.store.children node) :
    Goes c root s files chain h (vs.forM (walk scope chain)) { r with visited := node :: r.visited }
      fun _ h' r' => Leaves c s chain h' r' node := by
  have hvisit := hr.visit hlt ⟨scope, hway.isScope, hway.within⟩ hpassed hconsulted
  have hall := goes_values hw hvisit hway List.prefix_rfl fun v hv => hr.store ▸ hvs v hv
  refine Ensures.mono hall (fun _ r' hend => ?_) fun _ _ => id
  obtain ⟨h', hc, hr', -⟩ := hend
  refine ⟨h', hc, hr', fun hext => .inr (.inr ?_)⟩
  exact (hpassed (hr.isExternalRef_before hr' hc.isPrefix hlt hext)).mono hc.isPrefix

theorem goes_walkMapping (hw : Recorded c root s files walk) {m : Entries}
    (hr : Records c root s files h r) (hway : Way c root s files h scope chain node)
    (hm : r.store.mapping? node = some m) (hv : node ∉ r.visited)
    (hnode : chain.hasNode node = false) :
    Goes c root s files chain h (walkMapping c walk scope chain node m) r
      fun _ h' r' => Leaves c s chain h' r' node := by
  have hlt := lt_size_of_mapping? hm
  -- A reference that is not to be resolved is passed by.
  have hpassed {ref : String} (href : (r.store.entries node).ref? = some ref)
      (hne : pendingRef? r.store m ≠ some ref) : Passed c s h node := by
    rw [entries_of_mapping? hm] at href
    obtain ⟨v, hv, htruthy⟩ := truthy_of_pendingRef?_ne href hne
    refine ⟨h, v, List.prefix_rfl, ?_, hr.store ▸ htruthy⟩
    rw [← hr.store, entries_of_mapping? hm]
    exact hv
  unfold walkMapping
  rw [goes_getStore_bind]
  dsimp only
  split
  · next ref href =>
    obtain ⟨hpending, hexternal⟩ := Option.filter_eq_some_iff.mp href
    rw [← entries_of_mapping? hm] at hpending
    exact goes_inlineExternal hw hr hway hpending hexternal hv hnode
  · next hnone =>
    have hexternal (hext : isExternalRef (r.store.entries node) = true) : Passed c s h node := by
      obtain ⟨ref, href, hexternal⟩ := isExternalRef_iff.mp hext
      refine hpassed href fun hpending => hnone ref ?_
      rw [hpending, Option.filter_some, if_pos hexternal]
    split
    · next ref href =>
      obtain ⟨hpending, hinternal⟩ := Option.filter_eq_some_iff.mp href
      have hown : (r.store.entries node).ref? = some ref := by
        rw [entries_of_mapping? hm]
        exact (pendingRef?_eq_some hpending).1
      have hmet : Encounters c root s files h scope node ref := by
        refine ⟨hway.isScope, hway.within, ?_, hinternal⟩
        rw [← hr.store, entries_of_mapping? hm]
        exact hpending
      refine (goes_noteInternal hr hmet).bind fun _ h₁ r₁ hc₁ hr₁ hconsulted => ?_
      have hkeeps := hr₁.lawful.keeps hr.hasRoot hc₁.isPrefix
      rw [← hr.store, ← hr₁.store] at hkeeps
      obtain ⟨m₁, hm₁⟩ := hkeeps.exists_mapping? hm
      rw [goes_visit_bind, goes_getStore_bind]
      refine goes_visitAll hw hr₁ (hway.mono hc₁.isPrefix) (lt_size_of_mapping? hm₁)
        (fun hext => ?_) (fun ref' href' _ => ?_) fun v hv => ?_
      · exact (hexternal (hr.isExternalRef_before hr₁ hc₁.isPrefix hlt hext)).mono hc₁.isPrefix
      · obtain rfl : ref = ref' :=
          Option.some.inj (hown.symm.trans (hr.ref?_before hr₁ hc₁.isPrefix hlt href'))
        exact hconsulted
      · rw [children_of_mapping? hm₁]
        rwa [entries_of_mapping? hm₁] at hv
    · next hnone' =>
      rw [goes_visit_bind, goes_getStore_bind]
      refine goes_visitAll hw hr hway hlt hexternal (fun ref href hinternal => ?_) fun v hv => ?_
      · refine .inl (hpassed href fun hpending => hnone' ref ?_)
        rw [hpending, Option.filter_some, if_pos hinternal]
      · rw [children_of_mapping? hm]
        rwa [entries_of_mapping? hm] at hv

-- What the walk skips was met, or it is no reference.
theorem Records.leaves_of_skipped (hr : Records c root s files h r)
    (hskip : node ∈ r.visited ∨ chain.hasNode node = true ∨ r.store.IsLeaf node) :
    Leaves c s chain h r node := by
  rcases hskip with hv | hactive | hleaf
  · exact fun hext => .inr (.inr (hr.passed node hv hext))
  · exact fun _ => .inl hactive
  · exact leaves_of_ref?_eq_none (by rw [entries_eq_empty hleaf.1]; rfl)

theorem goes_expand (hw : Recorded c root s files walk) {container : Container}
    (hr : Records c root s files h r) (hway : Way c root s files h scope chain node)
    (hget : r.store.get? node = some container) (hleaf : ¬r.store.IsLeaf node)
    (hv : node ∉ r.visited) (hnode : chain.hasNode node = false) :
    Goes c root s files chain h (expand c walk scope chain node container) r
      fun _ h' r' => Leaves c s chain h' r' node := by
  cases container with
  | set _ => exact absurd (by simp [IsLeaf, mapping?, sequence?, hget]) hleaf
  | sequence items =>
      have href : (r.store.entries node).ref? = none := by
        rw [entries_eq_empty (by simp [mapping?, hget])]
        rfl
      unfold expand
      rw [goes_visit_bind]
      refine goes_visitAll hw hr hway (lt_size_of_get? hget) (fun hext => ?_) (fun ref hsome => ?_)
        fun v hv => ?_
      · exact absurd hext (not_isExternalRef href)
      · rw [href] at hsome
        cases hsome
      · rwa [children_of_get? hget]
  | mapping m => exact goes_walkMapping hw hr hway (mapping?_eq_some.mpr hget) hv hnode

end Walk

theorem recorded_walk (c : Context) (root : Scope) (s : Store) (files : List (String × NodeId))
    (allowance : Nat) : Recorded c root s files (walk c allowance) := by
  induction allowance with
  | zero => exact fun _ _ _ _ _ hr _ => goes_throw hr
  | succ allowance ih =>
      intro scope chain v h r hr hway
      refine ensures_walk (fun hskip => ⟨h, .refl, hr, fun id hid => ?_⟩)
        fun id container hv hget hleaf hvisited hchain => ?_
      · exact hr.leaves_of_skipped (hskip id hid)
      · subst hv
        refine Ensures.mono (goes_countNode hr scope) (fun counted r₁ hend => ?_) fun _ _ h => h
        obtain ⟨h₁, hc₁, hr₁, hs₁, hv₁, hlimit⟩ := hend
        cases counted with
        | true =>
            have hexpand := goes_expand ih hr₁ ((hway id rfl).mono hc₁.isPrefix) (hs₁ ▸ hget)
              (hs₁ ▸ hleaf) (hv₁ ▸ hvisited) hchain
            exact (hexpand.mono fun _ _ _ hleaves i hi => Value.node.inj hi ▸ hleaves).after hc₁
        | false => exact ⟨h₁, hc₁, hr₁, fun _ _ => Excused.leaves (.inl (hlimit rfl))⟩

section Call

variable {s : Store} {q : Request}

namespace Request

-- What does not change during the call; nothing is looked up where the archive cannot be opened.
def context (q : Request) : Context :=
  ⟨q.document, Locator.make q.tree q.archive?.toOption.join q.roots q.settings.maxFileSize
    q.settings.searchWalkDepth, q.settings⟩

def scope (q : Request) : Scope :=
  rootScope q.tree q.document (rootLocation? q.archive?.toOption.join q.source)

-- The root document is known by its location.
def files (q : Request) : List (String × NodeId) := (q.scope.key.map (·, q.document)).toList

-- The deeds of a call, in the order of time.
structure HasHistory (q : Request) (s : Store) (h : History) : Prop where
  lawful : Lawful q.context s q.files h
  store : (references s q).store = after q.context s h
  limits : (references s q).limits = h.filterMap Deed.limit?
  events : (references s q).events.filter isOfReference = h.filterMap Deed.event?

end Request

theorem records_startRun (hdoc : (s.mapping? q.document).isSome) :
    Records q.context q.scope s q.files [.prepare] (startRun s q.document q.scope) := by
  have hloaded : (startRun s q.document q.scope).loaded.entries = q.files := by
    unfold startRun Request.files
    cases q.scope.key <;> rfl
  have hinit : Records q.context q.scope s q.files []
      { startRun s q.document q.scope with store := s } := by
    refine ⟨⟨hdoc, .nil, rfl, ?_, rfl, rfl, ?_, ?_, ?_, ?_⟩, ?_, ?_, ?_, ?_, ?_, rfl⟩
    · rw [hloaded, List.filterMap_nil, List.append_nil]
    · exact fun hhit => by cases hhit
    · exact fun d hd => by cases hd
    · exact fun id hid => by cases hid
    · exact fun id hid => by cases hid
    · exact fun pre d hpre => by simp at hpre
    · exact fun pre node target ref name hpre => by simp at hpre
    · exact fun ref href => by cases href
    · exact fun id hid => by cases hid
    · exact fun id hid => by cases hid
  exact hinit.step .prepare (.other nofun nofun nofun) rfl (List.append_nil _).symm
    (List.append_nil _).symm (List.append_nil _).symm rfl rfl
    (fun id => by simp [Deed.inlines?, startRun]) nofun (List.append_nil _).symm

theorem goes_run {c : Context} {scope : Scope} {files : List (String × NodeId)} {h : History}
    {r : Run} (hr : Records c scope s files h r) (hscope : scope.document = c.document) :
    Goes c scope s files [] h (run c scope) r
      fun _ h' r' => AllRescued c s files h h' r'.rootRefs := by
  have hroot : Goes c scope s files [] h (walkRoot c scope) r fun _ _ _ => True := by
    have hway : Way c scope s files h scope [] c.document :=
      ⟨.inl rfl, hscope ▸ .document, nofun⟩
    have hwalk := recorded_walk c scope s files nestingAllowance scope [] (.node c.document) h r hr
      fun id hid => by cases hid; exact hway
    unfold walkRoot Goes
    rw [ensures_tryCatch]
    refine Ensures.mono hwalk (fun _ r' hend => ?_) fun e r' hend => ?_
    · obtain ⟨h', hc, hr', -⟩ := hend
      exact ⟨h', hc, hr', trivial⟩
    · obtain ⟨h', hc, hr'⟩ := hend
      split
      · exact ((goes_limit hr').mono fun _ _ _ _ => trivial).after hc
      · exact ensures_throw.mpr ⟨h', hc, hr'⟩
  unfold run
  refine hroot.bind fun _ h₁ r₁ hc₁ hr₁ _ => ?_
  refine (goes_adoptAllDangling hr₁).bind fun _ h₂ r₂ _ hr₂ hrescued => ?_
  rw [goes_get_bind]
  refine goes_report hr₂ rfl rfl fun ref hin => ?_
  obtain ⟨e, hpre, he⟩ := hrescued ref hin
  exact ⟨e, hc₁.isPrefix.trans hpre, he⟩

-- The run of a call from its start.
def Request.ending (q : Request) (s : Store) : Except (Failure ResolutionError) Unit × Run :=
  (run q.context q.scope).run.run (startRun s q.document q.scope)

theorem references_eq_ending {q : Request} {s : Store} {archive : Option Archive}
    (hne : (s.entries q.document).isEmpty = false) (harchive : q.archive? = .ok archive)
    (hpossible : (rootLocation? archive q.source).any isImpossible = false) :
    references s q = Outcome.of (q.ending s) := by
  unfold references Request.ending
  rw [if_neg (by simp [hne]), harchive]
  dsimp only
  rw [if_neg (by simp [hpossible]), StateT.run, Request.context, Request.scope, harchive]
  dsimp only [Except.toOption, Option.join_some]
  generalize ExceptT.run (run _ _) _ = p
  rfl

-- Whether a call runs does not depend on what the document says, unless it says nothing.
theorem runs_or_fails (q : Request) :
    (∃ e, e ≠ .ok () ∧ ∀ s : Store, (s.entries q.document).isEmpty = false →
        references s q = ⟨e, s, [], []⟩) ∨
      ∀ s : Store, (s.entries q.document).isEmpty = false → references s q = Outcome.of (q.ending s) := by
  cases harchive : q.archive? with
  | error e =>
      refine .inl ⟨.error (.announced e), nofun, fun s hne => ?_⟩
      unfold references
      rw [if_neg (by simp [hne]), harchive]
  | ok archive =>
      by_cases hpossible : (rootLocation? archive q.source).any isImpossible = true
      · refine .inl ⟨.error (.fault .impossiblePath), nofun, fun s hne => ?_⟩
        unfold references
        rw [if_neg (by simp [hne]), harchive]
        dsimp only
        rw [if_pos hpossible]
      · exact .inr fun s hne => references_eq_ending hne harchive (Bool.eq_false_iff.mpr hpossible)

-- A call does nothing before it runs.
theorem references_cases (s : Store) (q : Request) :
    (∃ e, references s q = ⟨e, s, [], []⟩ ∧ ((s.entries q.document).isEmpty = false → e ≠ .ok ())) ∨
      references s q = Outcome.of (q.ending s) := by
  cases hne : (s.entries q.document).isEmpty with
  | true => exact .inl ⟨.ok (), references_of_isEmpty hne, nofun⟩
  | false =>
      rcases runs_or_fails q with ⟨e, he, hfails⟩ | hruns
      · exact .inl ⟨e, hfails s hne, fun _ => he⟩
      · exact .inr (hruns s hne)

-- A call that returns has the run of its document behind it.
theorem exists_run (hdoc : (s.mapping? q.document).isSome)
    (hne : (s.entries q.document).isEmpty = false) (hok : (references s q).result = .ok ()) :
    ∃ h r, Records q.context q.scope s q.files h r ∧
      AllRescued q.context s q.files [.prepare] h r.rootRefs ∧ q.ending s = (.ok (), r) ∧
      references s q = ⟨.ok (), r.store, r.limits, r.events⟩ := by
  rcases references_cases s q with ⟨e, hidle, herror⟩ | hrun
  · rw [hidle] at hok
    exact absurd hok (herror hne)
  · have hgoes := goes_run (c := q.context) (records_startRun hdoc) rfl
    unfold Request.ending at hrun
    rcases hend : (run q.context q.scope).run.run (startRun s q.document q.scope) with ⟨e | a, r⟩
    · rw [hrun, hend] at hok
      cases hok
    · obtain ⟨h, -, hr, hrescued⟩ := (ensures_of_ok hend).mp hgoes
      rw [hend] at hrun
      exact ⟨h, r, hr, hrescued, hend, hrun⟩

-- The deeds of a call with what gave rise to them.
structure Request.HasAccount (q : Request) (s : Store) (h : History) : Prop
    extends q.HasHistory s h where
  occasion : ∀ pre d, pre ++ [d] <+: h → Occasion q.context q.scope s q.files pre d
  registered : ∀ pre node target ref name, pre ++ [.inline node target ref (some name)] <+: h →
    pre ++ [.inline node target ref (some name), .bind "schemas" name target] <+: h
  announced : (references s q).events.filterMap announced? = bindings q.context s h

theorem hasAccount_nil {e : Except (Failure ResolutionError) Unit}
    (hidle : references s q = ⟨e, s, [], []⟩) : q.HasAccount s [] := by
  refine ⟨⟨.nil, ?_, ?_, ?_⟩, fun pre d hpre => ?_, fun pre node target ref name hpre => ?_, ?_⟩
  · rw [hidle]
    rfl
  · rw [hidle]
    rfl
  · rw [hidle]
    rfl
  · simp at hpre
  · simp at hpre
  · rw [hidle]
    rfl

-- However the run of a call ends, it has done something.
theorem exists_records (hdoc : (s.mapping? q.document).isSome) :
    ∃ h, Records q.context q.scope s q.files h (q.ending s).2 := by
  have hgoes := goes_run (c := q.context) (records_startRun hdoc) rfl
  unfold Goes at hgoes
  exact Ensures.state (P := fun r => ∃ h, Records q.context q.scope s q.files h r)
    (hgoes.mono (fun _ _ hend => hend.imp fun _ hh => hh.2.1) fun _ _ hend => hend.imp fun _ hh => hh.2)

theorem hasAccount_of_records {h : History} (hrun : references s q = Outcome.of (q.ending s))
    (hr : Records q.context q.scope s q.files h (q.ending s).2) : q.HasAccount s h := by
  refine ⟨⟨hr.lawful, ?_, ?_, ?_⟩, hr.occasion, hr.registered, ?_⟩
  · rw [hrun, Outcome.of_store]
    exact hr.store
  · rw [hrun, Outcome.of_limits]
    exact hr.limits
  · rw [hrun, Outcome.of_events]
    exact hr.events
  · rw [hrun, Outcome.of_events]
    exact hr.announced

-- However the call ends, its deeds account for all that it did.
theorem exists_account (hdoc : (s.mapping? q.document).isSome) : ∃ h, q.HasAccount s h := by
  rcases references_cases s q with ⟨e, hidle, -⟩ | hrun
  · exact ⟨[], hasAccount_nil hidle⟩
  · obtain ⟨h, hr⟩ := exists_records hdoc
    exact ⟨h, hasAccount_of_records hrun hr⟩

theorem exists_history (hdoc : (s.mapping? q.document).isSome) : ∃ h, q.HasHistory s h := by
  obtain ⟨h, hh⟩ := exists_account hdoc
  exact ⟨h, hh.toHasHistory⟩

-- A reference is to be resolved when it is settled.
theorem Request.HasAccount.pending {h pre : History} {d : Deed} {id : NodeId} (hh : q.HasAccount s h)
    (hpre : pre ++ [d] <+: h) (hd : d.settles? = some id) : ∃ ref, Pending q.context s pre id ref := by
  rcases Deed.settles?_eq_some hd with ⟨ref, name, rfl⟩ | hinlines
  · cases hh.occasion pre _ hpre with
    | mark _ hpending => exact ⟨ref, hpending⟩
    | other _ _ hmark => exact absurd rfl (hmark id ref name)
  · obtain ⟨target, ref, name, rfl⟩ := Deed.inlines?_eq_some hinlines
    cases (hh.lawful.of_prefix hpre).last with
    | inline _ hresolves => exact ⟨ref, hresolves.pending⟩

-- It is copied once at most, and not settled after that.
theorem Request.HasAccount.settles?_ne {h pre k : History} {d : Deed} {id : NodeId}
    (hh : q.HasAccount s h) (heq : h = pre ++ [d] ++ k) (hd : d.inlines? = some id) :
    ∀ d' ∈ k, d'.settles? ≠ some id := by
  intro d' hd' hsettles
  obtain ⟨k₁, k₂, rfl⟩ := List.append_of_mem hd'
  have hpre : pre ++ [d] ++ k₁ ++ [d'] <+: h := ⟨k₂, by simp [heq]⟩
  obtain ⟨ref, e, k₀, hek, -, -, he, hk₀⟩ := hh.pending hpre hsettles
  have hin : d ∈ e ++ k₀ := by
    rw [← hek]
    simp
  rcases List.mem_append.mp hin with hin | hin
  · exact he d hin hd
  · refine hk₀ d hin ?_
    obtain ⟨target, ref, name, rfl⟩ := Deed.inlines?_eq_some hd
    cases hd
    rfl

-- What the log says about a reference was done at some moment.
theorem Request.HasHistory.exists_deed {h : History} (hh : q.HasHistory s h) {e : Event}
    (he : e ∈ (references s q).events) (hof : isOfReference e = true) :
    ∃ pre d, pre ++ [d] <+: h ∧ d.event? = some e := by
  have hin : e ∈ h.filterMap Deed.event? := by
    rw [← hh.events]
    exact List.mem_filter.mpr ⟨he, hof⟩
  obtain ⟨d, hd, hevent⟩ := List.mem_filterMap.mp hin
  obtain ⟨pre, post, rfl⟩ := List.append_of_mem hd
  exact ⟨pre, d, ⟨post, by rw [List.append_assoc, List.singleton_append]⟩, hevent⟩

theorem Request.HasHistory.mem_events {h : History} (hh : q.HasHistory s h) {pre : History} {d : Deed}
    {e : Event} (hpre : pre ++ [d] <+: h) (hd : d.event? = some e) : e ∈ (references s q).events := by
  have hin : e ∈ (references s q).events.filter isOfReference := by
    rw [hh.events]
    exact List.mem_filterMap.mpr ⟨d, hpre.subset (by simp), hd⟩
  exact (List.mem_filter.mp hin).1

theorem Request.HasHistory.mem_inlinings {h : History} (hh : q.HasHistory s h) {pre : History}
    {node target : NodeId} {ref : String} {name : Option String}
    (hpre : pre ++ [.inline node target ref name] <+: h) :
    (node, target) ∈ (references s q).events.filterMap inlining? :=
  List.mem_filterMap.mpr ⟨_, hh.mem_events hpre rfl, rfl⟩

theorem Request.HasHistory.exists_look {h : History} (hh : q.HasHistory s h) {node : NodeId}
    {ref : String} {base : Option String} (he : .lookedUp node ref base ∈ (references s q).events) :
    ∃ pre, pre ++ [.look node ref base] <+: h := by
  obtain ⟨pre, d, hpre, hd⟩ := hh.exists_deed he rfl
  obtain rfl := Deed.event?_eq_lookedUp hd
  exact ⟨pre, hpre⟩

theorem Request.HasHistory.exists_inline {h : History} (hh : q.HasHistory s h)
    {node target : NodeId} {ref : String} (he : .inlined node target ref ∈ (references s q).events) :
    ∃ pre name, pre ++ [.inline node target ref name] <+: h := by
  obtain ⟨pre, d, hpre, hd⟩ := hh.exists_deed he rfl
  obtain ⟨name, rfl⟩ := Deed.event?_eq_inlined hd
  exact ⟨pre, name, hpre⟩

theorem Request.HasHistory.exists_mark {h : History} (hh : q.HasHistory s h) {node : NodeId}
    {ref : String} (he : .circular node ref ∈ (references s q).events) :
    ∃ pre name, pre ++ [.mark node ref name] <+: h := by
  obtain ⟨pre, d, hpre, hd⟩ := hh.exists_deed he rfl
  obtain ⟨name, rfl⟩ := Deed.event?_eq_circular hd
  exact ⟨pre, name, hpre⟩

end Call

end ApiGraph.Resolve
