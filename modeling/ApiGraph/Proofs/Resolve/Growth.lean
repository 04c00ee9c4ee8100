import ApiGraph.Proofs.Resolve.Frame

namespace ApiGraph.Resolve

open Store

structure Grows (r r' : Run) : Prop where
  store : Keeps r.store r'.store
  visited : r.visited <:+ r'.visited
  loaded : r.loaded.entries <+: r'.loaded.entries
  limits : r.limits <+: r'.limits
  events : r.events <+: r'.events

theorem Grows.refl (r : Run) : Grows r r :=
  ⟨.refl _, List.suffix_rfl, List.prefix_rfl, List.prefix_rfl, List.prefix_rfl⟩

theorem Grows.trans {p q r : Run} (h : Grows p q) (h' : Grows q r) : Grows p r :=
  ⟨h.store.trans h'.store, h.visited.trans h'.visited, h.loaded.trans h'.loaded,
    h.limits.trans h'.limits, h.events.trans h'.events⟩

theorem grows_store {r : Run} {s : Store} (h : Keeps r.store s) : Grows r { r with store := s } :=
  ⟨h, List.suffix_rfl, List.prefix_rfl, List.prefix_rfl, List.prefix_rfl⟩

@[simp] theorem ensures_getStore {r : Run} {Q : Store → Run → Prop}
    {E : Failure ResolutionError → Run → Prop} :
    Ensures getStore r Q E ↔ Q r.store r := by
  unfold getStore
  rw [ensures_bind, ensures_get, ensures_pure]

section Steps

variable {α β : Type} {r : Run} {x : ResolveM α}

-- From this state on, the program only adds.
def GrowsFrom (r : Run) (x : ResolveM α) : Prop :=
  Ensures x r (fun _ => Grows r) fun _ => Grows r

theorem growsFrom_pure (a : α) : GrowsFrom r (pure a : ResolveM α) :=
  ensures_pure.mpr (Grows.refl r)

theorem growsFrom_throw (e : Failure ResolutionError) : GrowsFrom r (throw e : ResolveM α) :=
  ensures_throw.mpr (Grows.refl r)

theorem GrowsFrom.bind {f : α → ResolveM β} (hx : GrowsFrom r x)
    (hf : ∀ a r', Grows r r' → GrowsFrom r' (f a)) : GrowsFrom r (x >>= f) := by
  unfold GrowsFrom
  rw [ensures_bind]
  refine Ensures.mono hx (fun a q hq => ?_) fun _ _ => id
  exact Ensures.mono (hf a q hq) (fun _ _ => hq.trans) fun _ _ => hq.trans

-- What a program ensures when it returns, besides that it only adds.
theorem GrowsFrom.ensures {Q : α → Run → Prop} (hg : GrowsFrom r x)
    (h : Ensures x r Q fun _ _ => True) :
    Ensures x r (fun a r' => Grows r r' ∧ Q a r') fun _ _ => True :=
  (Ensures.and hg h).mono (fun _ _ h => h) fun _ _ _ => trivial

theorem growsFrom_get {f : Run → ResolveM α} (hf : GrowsFrom r (f r)) :
    GrowsFrom r (get >>= f) := by
  unfold GrowsFrom
  rw [ensures_bind, ensures_get]
  exact hf

theorem growsFrom_getStore {f : Store → ResolveM α} (hf : GrowsFrom r (f r.store)) :
    GrowsFrom r (getStore >>= f) := by
  unfold GrowsFrom
  rw [ensures_bind]
  exact ensures_getStore.mpr hf

theorem growsFrom_modify {f : Run → Run} (hf : Grows r (f r)) :
    GrowsFrom r (modify f : ResolveM Unit) := ensures_modify.mpr hf

theorem growsFrom_setStore {s : Store} (h : Keeps r.store s) : GrowsFrom r (setStore s) :=
  growsFrom_modify (grows_store h)

theorem GrowsFrom.modify_bind {f : Run → Run} {g : Unit → ResolveM β} (hf : Grows r (f r))
    (hg : GrowsFrom (f r) (g ())) : GrowsFrom r (modify f >>= g) := by
  unfold GrowsFrom
  rw [ensures_bind, ensures_modify]
  exact Ensures.mono hg (fun _ _ => hf.trans) fun _ _ => hf.trans

theorem growsFrom_report (e : Event) : GrowsFrom r (report e) :=
  growsFrom_modify ⟨.refl _, List.suffix_rfl, List.prefix_rfl, List.prefix_rfl,
    List.prefix_append _ _⟩

theorem growsFrom_limit (l : SoftLimit) : GrowsFrom r (limit l) := by
  refine GrowsFrom.bind (growsFrom_modify ?_) fun _ _ _ => growsFrom_report _
  exact ⟨.refl _, List.suffix_rfl, List.prefix_rfl, List.prefix_append _ _, List.prefix_rfl⟩

theorem growsFrom_visit (id : NodeId) : GrowsFrom r (visit id) :=
  growsFrom_modify ⟨.refl _, List.suffix_cons _ _, List.prefix_rfl, List.prefix_rfl,
    List.prefix_rfl⟩

theorem growsFrom_fail (e : ResolutionError) : GrowsFrom r (fail e : ResolveM α) :=
  growsFrom_throw _

theorem GrowsFrom.forM {walk : β → ResolveM Unit} {P : Run → Prop}
    (hP : ∀ r r', Grows r r' → P r → P r') (hw : ∀ v r, P r → GrowsFrom r (walk v)) (h : P r)
    (l : List β) : GrowsFrom r (l.forM walk) := by
  induction l generalizing r with
  | nil => exact growsFrom_pure ()
  | cons v rest ih => exact (hw v r h).bind fun _ r' hr => ih (hP r r' hr h)

end Steps

-- The root document is a mapping, and so it stays.
def HasRoot (c : Context) (r : Run) : Prop := (r.store.mapping? c.document).isSome

theorem HasRoot.mono {c : Context} {r r' : Run} (h : HasRoot c r) (hg : Grows r r') :
    HasRoot c r' := hg.store.mapping _ h

section Components

variable {c : Context} {r : Run}

theorem ensureField_of_fieldMapping? {s : Store} {id child : NodeId} {key : String} {m : Entries}
    (hf : s.fieldMapping? id key = some (child, m)) : s.ensureField id key = (child, s) := by
  unfold ensureField
  rw [hf]

theorem ensureField_of_eq_none {s : Store} {id : NodeId} {key : String}
    (hf : s.fieldMapping? id key = none) :
    s.ensureField id key =
      (s.nodes.size, (s.alloc (.mapping .empty)).2.put id (.str key) (.node s.nodes.size)) := by
  unfold ensureField
  rw [hf]
  rfl

-- A new mapping keeps its content when it is bound.
theorem entries_put_alloc {s : Store} {id : NodeId} {m : Entries} (hm : s.mapping? id = some m)
    (k : Key) (v : Value) (n : Entries) :
    ((s.alloc (.mapping n)).2.put id k v).entries s.nodes.size = n := by
  have hlt := lt_size_of_mapping? hm
  refine entries_of_mapping? ?_
  rw [put_of_mapping? ((mapping?_alloc_of_lt hlt).trans hm)]
  exact (mapping?_set_of_ne (Nat.ne_of_lt hlt)).trans mapping?_alloc_self

theorem keeps_ensureField {s : Store} {id : NodeId} (h : (s.mapping? id).isSome) (key : String) :
    Keeps s (s.ensureField id key).2 ∧
      ((s.ensureField id key).2.mapping? (s.ensureField id key).1).isSome := by
  obtain ⟨m, hm⟩ := Option.isSome_iff_exists.mp h
  unfold ensureField
  split
  next child m hf => exact ⟨.refl s, by simp [(fieldMapping?_eq_some.mp hf).2]⟩
  next hf =>
    have halloc : s.Extends (s.alloc (.mapping .empty)).2 :=
      (Extends.refl s).alloc fun v hv => absurd hv List.not_mem_nil
    have hput := grows_put (k := .str key) (v := .node (s.alloc (.mapping .empty)).1)
      (halloc.grows.mapping _ h)
    refine ⟨keeps_put halloc hm fun v hv => ⟨?_, Nat.le_refl _, ?_⟩, hput.mapping _ ?_⟩
    · exact asMapping?_of_fieldMapping?_eq_none hf (entries_of_mapping? hm ▸ hv)
    · rw [size_alloc]
      exact Nat.lt_succ_self _
    · rw [mapping?_eq_some.mpr (get?_alloc_self s _)]
      rfl

theorem keeps_ensureComponents {s : Store} {document : NodeId}
    (h : (s.mapping? document).isSome) (kind : String) :
    Keeps s (s.ensureComponents document kind).2 ∧
      ((s.ensureComponents document kind).2.mapping?
        (s.ensureComponents document kind).1).isSome := by
  obtain ⟨hfirst, hid⟩ := keeps_ensureField h "components"
  obtain ⟨hsecond, hplace⟩ := keeps_ensureField hid kind
  exact ⟨hfirst.trans hsecond, hplace⟩

theorem growsFrom_bindComponent (h : HasRoot c r) (kind name : String) (target : NodeId) :
    GrowsFrom r (bindComponent c kind name target) := by
  obtain ⟨hkeeps, hplace⟩ := keeps_ensureComponents h kind
  obtain ⟨m, hm⟩ := Option.isSome_iff_exists.mp hplace
  refine growsFrom_getStore ?_
  dsimp only
  refine GrowsFrom.modify_bind (grows_store hkeeps) ?_
  split
  · exact growsFrom_pure _
  · next hhas =>
    refine GrowsFrom.modify_bind (grows_store (keeps_put (.refl _) hm fun v hv => ?_))
      (growsFrom_pure _)
    rw [entries_of_mapping? hm, Entries.has, OrderedMap.contains_eq_isSome_get?, hv] at hhas
    exact absurd rfl hhas

theorem growsFrom_registerSchema (h : HasRoot c r) (name : String) (target : NodeId)
    (ref : String) : GrowsFrom r (registerSchema c name target ref) := by
  refine (growsFrom_bindComponent h _ _ _).bind fun bound _ _ => ?_
  split
  · exact growsFrom_report _
  · exact growsFrom_pure _

theorem growsFrom_adopt (h : HasRoot c r) (kind name : String) (target : NodeId) :
    GrowsFrom r (adopt c kind name target) := by
  refine (growsFrom_bindComponent h _ _ _).bind fun bound _ _ => ?_
  split
  · exact growsFrom_report _
  · exact growsFrom_pure _

theorem growsFrom_adoptInternal (h : HasRoot c r) (scope : Scope) (ref : String) :
    GrowsFrom r (adoptInternal c scope ref) := by
  unfold adoptInternal
  dsimp only
  split
  · exact growsFrom_pure _
  · refine growsFrom_get ?_
    split
    · exact growsFrom_pure _
    · split
      · exact growsFrom_adopt h _ _ _
      · exact growsFrom_report _

theorem growsFrom_adoptDangling (h : HasRoot c r) (ref : String) :
    GrowsFrom r (adoptDangling c ref) := by
  unfold adoptDangling
  dsimp only
  refine growsFrom_get ?_
  split
  · exact growsFrom_pure _
  · split
    · exact growsFrom_adopt h _ _ _
    · exact growsFrom_report _

theorem growsFrom_adoptAllDangling (h : HasRoot c r) : GrowsFrom r (adoptAllDangling c) := by
  unfold adoptAllDangling
  refine growsFrom_get ?_
  exact GrowsFrom.forM (fun _ _ hg h => h.mono hg) (fun ref _ h => growsFrom_adoptDangling h ref) h _

end Components

section Walk

variable {c : Context} {r : Run} {walk : Walker}

theorem growsFrom_markCircular {node : NodeId} (h : (r.store.mapping? node).isSome)
    (ref : String) (name : Option String) : GrowsFrom r (markCircular node ref name) := by
  obtain ⟨m, hm⟩ := Option.isSome_iff_exists.mp h
  refine growsFrom_getStore ?_
  rw [entries_of_mapping? hm]
  exact (growsFrom_setStore (keeps_mark hm name)).bind fun _ _ _ => growsFrom_report _

theorem growsFrom_replaceContent {node target : NodeId} (h : (r.store.mapping? node).isSome)
    (name : Option String) : GrowsFrom r (replaceContent node target name) := by
  obtain ⟨m, hm⟩ := Option.isSome_iff_exists.mp h
  refine growsFrom_getStore ?_
  dsimp only
  rw [set_set, entries_of_mapping? hm]
  exact GrowsFrom.modify_bind (grows_store (keeps_inline hm _ name)) (growsFrom_pure _)

theorem growsFrom_targetOf (external : NodeId) (path : List String) (ref : String) :
    GrowsFrom r (targetOf c external path ref) := by
  unfold targetOf
  split
  · exact growsFrom_pure _
  · refine growsFrom_get ?_
    split
    · exact growsFrom_pure _
    · split
      · exact growsFrom_pure _
      · exact growsFrom_fail _

theorem growsFrom_locate (scope : Scope) (node : NodeId) (ref : String) :
    GrowsFrom r (locate c scope node ref) := by
  unfold locate
  refine (growsFrom_report _).bind fun _ _ _ => ?_
  split
  · exact growsFrom_pure _
  · exact growsFrom_fail _

theorem growsFrom_countNode (scope : Scope) : GrowsFrom r (countNode c scope) := by
  have hcount : Grows r { r with walked := r.walked + 1 } :=
    ⟨.refl _, List.suffix_rfl, List.prefix_rfl, List.prefix_rfl, List.prefix_rfl⟩
  refine GrowsFrom.modify_bind hcount (growsFrom_get ?_)
  dsimp only
  split
  · exact growsFrom_pure _
  · split
    · refine GrowsFrom.bind (growsFrom_modify (f := fun _ => _) ?_) fun _ _ _ =>
        (growsFrom_limit _).bind fun _ _ _ => growsFrom_pure _
      exact ⟨.refl _, List.suffix_rfl, List.prefix_rfl, List.prefix_rfl, List.prefix_rfl⟩
    · exact growsFrom_pure _

theorem growsFrom_noteInternal (h : HasRoot c r) (scope : Scope) (ref : String) :
    GrowsFrom r (noteInternal c scope ref) := by
  unfold noteInternal
  split
  · exact growsFrom_modify
      ⟨.refl _, List.suffix_rfl, List.prefix_rfl, List.prefix_rfl, List.prefix_rfl⟩
  · exact growsFrom_adoptInternal h _ _

theorem extends_parseFile {l : Location} {s s' : Store} {d : NodeId}
    (h : parseFile c l s = .ok (d, s')) :
    s.Extends s' ∧ s.IsNew s' (.node d) ∧ (s'.mapping? d).isSome := by
  unfold parseFile at h
  split at h
  · exact Location.extends_loadEntry h
  · exact Location.extends_load h

theorem growsFrom_recover {ref : String} {body : ResolveM (Option Entries)}
    (h : GrowsFrom r body) : GrowsFrom r (recover ref body) := by
  unfold recover GrowsFrom
  rw [ensures_tryCatch]
  refine Ensures.mono h (fun _ _ => id) fun e r' hr => ?_
  split
  · refine Ensures.mono ((growsFrom_limit _).bind fun _ _ _ => growsFrom_pure _) ?_ ?_
    · exact fun _ _ => hr.trans
    · exact fun _ _ => hr.trans
  · exact ensures_throw.mpr hr

theorem growsFrom_takeContent (h : HasRoot c r) {node : NodeId}
    (hn : (r.store.mapping? node).isSome) (target : NodeId) (ref : String)
    (name : Option String) : GrowsFrom r (takeContent c node target ref name) := by
  unfold takeContent
  refine (growsFrom_replaceContent hn _).bind fun own r₁ h₁ => ?_
  refine (growsFrom_report _).bind fun _ r₂ h₂ => ?_
  refine (growsFrom_visit _).bind fun _ r₃ h₃ => ?_
  split
  · have hroot := h.mono ((h₁.trans h₂).trans h₃)
    exact (growsFrom_registerSchema hroot _ _ _).bind fun _ _ _ => growsFrom_pure _
  · exact growsFrom_pure _

theorem growsFrom_takeWalked (h : HasRoot c r) {node : NodeId} (hn : (r.store.mapping? node).isSome)
    (target : NodeId) (ref : String) (name : Option String) :
    GrowsFrom r (takeWalked c node target ref name) := by
  unfold takeWalked
  refine growsFrom_getStore ?_
  dsimp only
  split
  · exact (growsFrom_markCircular hn _ _).bind fun _ _ _ => growsFrom_pure _
  · exact growsFrom_takeContent h hn _ _ _

theorem growsFrom_inlineMapping {walk : NodeId → ResolveM Unit}
    (hw : ∀ id r, HasRoot c r → GrowsFrom r (walk id)) (h : HasRoot c r) {node : NodeId}
    (hn : (r.store.mapping? node).isSome) (target : NodeId) (ref : String)
    (name : Option String) : GrowsFrom r (inlineMapping c walk node target ref name) := by
  have hwalked {r : Run} (h : HasRoot c r) (hn : (r.store.mapping? node).isSome) :
      GrowsFrom r (do
        walk target
        takeWalked c node target ref name) :=
    (hw target r h).bind fun _ _ h₁ => growsFrom_takeWalked (h.mono h₁) (h₁.store.mapping _ hn) _ _ _
  unfold inlineMapping
  refine growsFrom_getStore ?_
  split
  · exact (growsFrom_fail _).bind fun _ r₁ h₁ => hwalked (h.mono h₁) (h₁.store.mapping _ hn)
  · exact hwalked h hn

section Recursion

variable (hw : ∀ scope chain v r, HasRoot c r → GrowsFrom r (walk scope chain v))
include hw

theorem growsFrom_load (h : HasRoot c r) (chain : Chain) (l : Location) (key : String) :
    GrowsFrom r (load c walk chain l key) := by
  unfold load
  refine growsFrom_get ?_
  split
  · exact growsFrom_pure _
  · next hnew =>
    refine growsFrom_getStore ?_
    split
    · exact growsFrom_fail _
    · exact growsFrom_throw _
    · next d s hparse =>
      have hloaded : r.loaded.entries <+: (r.loaded.insert key d).entries := by
        rw [OrderedMap.entries_insert_of_get?_eq_none d hnew]
        exact List.prefix_append _ _
      have hgrows : Grows r { r with store := s, loaded := r.loaded.insert key d } :=
        ⟨keeps_of_extends (extends_parseFile hparse).1, List.suffix_rfl, hloaded, List.prefix_rfl,
          List.prefix_rfl⟩
      refine GrowsFrom.modify_bind hgrows ?_
      refine (growsFrom_report _).bind fun _ r' hr => ?_
      exact (hw _ _ _ _ ((h.mono hgrows).mono hr)).bind fun _ _ _ => growsFrom_pure _

theorem growsFrom_inlineTarget (h : HasRoot c r) {node : NodeId}
    (hn : (r.store.mapping? node).isSome) (chain : Chain) (ref key : String) (l : Location)
    (path : List String) (name : Option String) :
    GrowsFrom r (inlineTarget c walk chain node ref key l path name) := by
  unfold inlineTarget
  refine (growsFrom_load hw h _ _ _).bind fun external r₁ h₁ => ?_
  refine (growsFrom_targetOf _ _ _).bind fun target r₂ h₂ => ?_
  split
  · have hg := h₁.trans h₂
    exact growsFrom_inlineMapping (fun id r hr => hw _ _ _ r hr) (h.mono hg)
      (hg.store.mapping _ hn) _ _ _
  · exact growsFrom_fail _

theorem growsFrom_inlineExternal (h : HasRoot c r) {node : NodeId}
    (hn : (r.store.mapping? node).isSome) (scope : Scope) (chain : Chain) (ref : String) :
    GrowsFrom r (inlineExternal c walk scope chain node ref) := by
  unfold inlineExternal
  dsimp only
  split
  · exact (growsFrom_limit _).bind fun _ _ _ => growsFrom_pure _
  · refine (growsFrom_locate _ _ _).bind fun l r₁ h₁ => ?_
    have hn₁ := h₁.store.mapping _ hn
    split
    · exact (growsFrom_markCircular hn₁ _ _).bind fun _ _ _ => growsFrom_pure _
    · have hinner := growsFrom_inlineTarget hw (h.mono h₁) hn₁
      refine (growsFrom_recover (hinner _ _ _ _ _ _)).bind fun own r₂ h₂ => ?_
      split
      · exact GrowsFrom.forM (fun _ _ hg h => h.mono hg) (fun v _ hr => hw _ _ v _ hr)
          (h.mono (h₁.trans h₂)) _
      · exact growsFrom_pure _

theorem growsFrom_walkMapping (h : HasRoot c r) {id : NodeId}
    (hn : (r.store.mapping? id).isSome) (scope : Scope) (chain : Chain) (m : Entries) :
    GrowsFrom r (walkMapping c walk scope chain id m) := by
  have values {r : Run} (h : HasRoot c r) : GrowsFrom r (do
      visit id
      ((← getStore).entries id).values.forM (walk scope chain)) := by
    refine (growsFrom_visit _).bind fun _ r₁ h₁ => growsFrom_getStore ?_
    exact GrowsFrom.forM (fun _ _ hg h => h.mono hg) (fun v _ hr => hw _ _ v _ hr)
      (h.mono h₁) _
  unfold walkMapping
  refine growsFrom_getStore ?_
  dsimp only
  split
  · exact growsFrom_inlineExternal hw h hn _ _ _
  · split
    · exact (growsFrom_noteInternal h _ _).bind fun _ r₁ h₁ => values (h.mono h₁)
    · exact values h

end Recursion

end Walk

section Step

variable {c : Context} {scope : Scope} {chain : Chain} {v : Value} {r : Run} {id : NodeId}

-- A walk has nothing to do with a value in which nothing stands or that was met.
def Skipped (r : Run) (chain : Chain) (v : Value) : Prop :=
  ∀ id, v = .node id → id ∈ r.visited ∨ chain.hasNode id = true ∨ r.store.IsLeaf id

-- What a walk does with a container that it counts.
def expand (c : Context) (walk : Walker) (scope : Scope) (chain : Chain) (id : NodeId) :
    Container → ResolveM Unit
  | .set _ => pure ()
  | .sequence items => do
      visit id
      items.forM (walk scope chain)
  | .mapping m => walkMapping c walk scope chain id m

-- A step of the walk: it skips the value, or it counts a container that is new to it.
theorem ensures_walk {allowance : Nat} {Q : Unit → Run → Prop} {E : Failure ResolutionError → Run → Prop}
    (hskip : Skipped r chain v → Q () r)
    (hcount : ∀ id container, v = .node id → r.store.get? id = some container →
      ¬r.store.IsLeaf id → id ∉ r.visited → chain.hasNode id = false →
      Ensures (countNode c scope) r (fun counted r' =>
        if counted then Ensures (expand c (walk c allowance) scope chain id container) r' Q E
        else Q () r') E) :
    Ensures (walk c (allowance + 1) scope chain v) r Q E := by
  have counted {x : ResolveM Unit} (hx : Ensures (countNode c scope) r
      (fun counted r' => if counted then Ensures x r' Q E else Q () r') E) :
      Ensures (do if ← countNode c scope then x) r Q E := by
    rw [ensures_bind]
    refine hx.mono (fun counted r' h => ?_) fun _ _ h => h
    cases counted with
    | true => exact h
    | false => exact ensures_pure.mpr h
  unfold walk
  split
  · next id =>
    have leaf (hleaf : r.store.IsLeaf id) : Q () r :=
      hskip fun i hi => .inr (.inr (Value.node.inj hi ▸ hleaf))
    rw [ensures_bind, ensures_get]
    split
    · next container hget =>
      split
      · next hmet =>
        rw [Bool.or_eq_true, List.contains_iff_mem] at hmet
        exact ensures_pure.mpr (hskip fun i hi => by
          obtain rfl : id = i := Value.node.inj hi
          exact hmet.imp_right .inl)
      · next hnew =>
        rw [Bool.or_eq_true, List.contains_iff_mem, not_or, Bool.not_eq_true] at hnew
        have hstep (hleaf : ¬r.store.IsLeaf id) :=
          hcount id container rfl hget hleaf hnew.1 hnew.2
        cases container with
        | set _ => exact ensures_pure.mpr (leaf (by simp [IsLeaf, mapping?, sequence?, hget]))
        | sequence items => exact counted (hstep (by simp [IsLeaf, mapping?, sequence?, hget]))
        | mapping m => exact counted (hstep (by simp [IsLeaf, mapping?, sequence?, hget]))
    · next hnone =>
      refine ensures_pure.mpr (leaf (isLeaf_of_get?_eq_none ?_))
      exact Option.eq_none_iff_forall_ne_some.mpr hnone
  · next hnode => exact ensures_pure.mpr (hskip fun i hi => absurd hi (hnode i))

theorem growsFrom_expand {walk : Walker}
    (hw : ∀ scope chain v r, HasRoot c r → GrowsFrom r (walk scope chain v)) (h : HasRoot c r)
    {container : Container} (hn : ∀ m, container = .mapping m → (r.store.mapping? id).isSome) :
    GrowsFrom r (expand c walk scope chain id container) := by
  cases container with
  | set _ => exact growsFrom_pure _
  | sequence items =>
      exact (growsFrom_visit _).bind fun _ r' h' =>
        GrowsFrom.forM (fun _ _ hg h => h.mono hg) (fun v r hr => hw _ _ v r hr) (h.mono h') _
  | mapping m => exact growsFrom_walkMapping hw h (hn m rfl) _ _ _

end Step

theorem growsFrom_walk (c : Context) (allowance : Nat) (scope : Scope) (chain : Chain) (v : Value)
    (r : Run) (h : HasRoot c r) : GrowsFrom r (walk c allowance scope chain v) := by
  induction allowance generalizing scope chain v r with
  | zero => exact growsFrom_throw _
  | succ allowance ih =>
      refine ensures_walk (fun _ => .refl r) fun id container _ hget _ _ _ => ?_
      refine Ensures.mono (growsFrom_countNode scope) (fun counted r₁ h₁ => ?_) fun _ _ h => h
      split
      · have hn (m : Entries) (hm : container = .mapping m) : (r₁.store.mapping? id).isSome :=
          h₁.store.mapping _ (by simp [mapping?, hget, hm])
        exact Ensures.mono (growsFrom_expand ih (h.mono h₁) hn) (fun _ _ => h₁.trans)
          fun _ _ => h₁.trans
      · exact h₁

end ApiGraph.Resolve
