import ApiGraph.Proofs.Resolve.History

namespace ApiGraph.Resolve

open Store

-- The section of the components that a deed makes unless it is there.
def Deed.section? : Deed → Option String
  | prepare => some "schemas"
  | bind kind _ _ => some kind
  | _ => none

-- The deed puts something else in the place of the container.
inductive Displaces (document : NodeId) (s : Store) (v : NodeId) : Deed → Prop
  | components {d : Deed} (hd : d.section?.isSome)
      (hv : (s.entries document).field? "components" = some (.node v))
      (hnot : s.mapping? v = none) : Displaces document s v d
  | place {d : Deed} {kind : String} {comps : NodeId} {m : Entries} (hd : d.section? = some kind)
      (hcomps : s.fieldMapping? document "components" = some (comps, m))
      (hv : m.field? kind = some (.node v)) (hnot : s.mapping? v = none) : Displaces document s v d
  | mark {node : NodeId} {ref : String} {name : Option String}
      (hv : (s.entries node).field? circularRefKey = some (.node v)) :
      Displaces document s v (.mark node ref name)
  | inline {node target : NodeId} {ref : String} {name : Option String}
      (hv : (s.entries node).field? refKey = some (.node v)) :
      Displaces document s v (.inline node target ref name)

-- The deed puts the container into another one.
inductive Gains (s : Store) (b x : NodeId) : Deed → Prop
  | made {d : Deed} (hd : d.brings = true) (hx : s.nodes.size ≤ x) : Gains s b x d
  | read {key : String} {document : NodeId} {read : Store} (hb : s.nodes.size ≤ b)
      (hx : s.nodes.size ≤ x) : Gains s b x (.load key document read)
  | bound (kind name : String) : Gains s b x (.bind kind name x)
  | copied {target : NodeId} (ref : String) (name : Option String)
      (hx : .node x ∈ s.children target) : Gains s b x (.inline b target ref name)

section Children

variable {s : Store} {id b x j : NodeId} {m : Entries} {key kind : String} {k : Key}

theorem mem_children_of_field? {v : Value} (h : (s.entries id).field? key = some v) :
    v ∈ s.children id := by
  obtain ⟨m, hm, h⟩ := exists_mapping?_of_get? h
  exact (mem_children_iff hm).mpr ⟨_, h⟩

theorem children_alloc_empty : (s.alloc (.mapping .empty)).2.children b = s.children b := by
  by_cases hb : b = s.nodes.size
  · subst hb
    have hnone : s.children s.nodes.size = [] := by simp [children, get?_eq_none (Nat.le_refl _)]
    rw [children_alloc_self, hnone]
    rfl
  · exact children_alloc_of_ne hb

section Written

variable {m' : Entries} {P : Prop}

-- A container comes only into the mapping that is written.
theorem mem_children_of_set (hm : s.mapping? id = some m)
    (hnew : ∀ k, m'.get? k = some (.node x) → (∃ k, m.get? k = some (.node x)) ∨ P)
    (hx : .node x ∈ (s.set id (.mapping m')).children b) : .node x ∈ s.children b ∨ id = b ∧ P := by
  by_cases hb : id = b
  · subst hb
    obtain ⟨k, hk⟩ := (mem_children_iff (mapping?_set_self hm)).mp hx
    exact (hnew k hk).imp (mem_children_iff hm).mpr fun hP => ⟨rfl, hP⟩
  · exact .inl (by rwa [children_set_of_ne hb] at hx)

-- A container leaves only from under the key, where all else that stands in the mapping is kept.
theorem mem_children_set (hm : s.mapping? id = some m)
    (hkeep : ∀ k', (k == k') = false → m.get? k' = some (.node x) → m'.get? k' = some (.node x))
    (hx : .node x ∈ s.children b) :
    .node x ∈ (s.set id (.mapping m')).children b ∨ m.get? k = some (.node x) := by
  by_cases hb : id = b
  · subst hb
    obtain ⟨k', hk'⟩ := (mem_children_iff hm).mp hx
    cases hkey : k == k' with
    | true => exact .inr ((OrderedMap.get?_congr hkey).trans hk')
    | false =>
        exact .inl ((mem_children_iff (mapping?_set_self hm)).mpr ⟨k', hkeep k' hkey hk'⟩)
  · exact .inl (by rwa [children_set_of_ne hb])

theorem mem_children_of_put (hm : s.mapping? id = some m)
    (hx : .node x ∈ (s.put id k (.node j)).children b) : .node x ∈ s.children b ∨ x = j := by
  rw [put_of_mapping? hm] at hx
  refine (mem_children_of_set (P := x = j) hm (fun k' hk' => ?_) hx).imp_right And.right
  rw [OrderedMap.get?_insert] at hk'
  split at hk'
  · exact .inr (Value.node.inj (Option.some.inj hk')).symm
  · exact .inl ⟨k', hk'⟩

theorem mem_children_put (hm : s.mapping? id = some m) (hx : .node x ∈ s.children b) :
    .node x ∈ (s.put id k (.node j)).children b ∨ m.get? k = some (.node x) := by
  rw [put_of_mapping? hm]
  refine mem_children_set hm (fun k' hkey hk' => ?_) hx
  rwa [OrderedMap.get?_insert, if_neg (by simp [hkey])]

theorem mem_children_of_marked {name : Option String} (hid : (s.mapping? id).isSome)
    (hx : .node x ∈ (s.set id (.mapping (markedContent (s.entries id) name))).children b) :
    .node x ∈ s.children b := by
  obtain ⟨m, hm⟩ := Option.isSome_iff_exists.mp hid
  rw [entries_of_mapping? hm] at hx
  refine (mem_children_of_set (P := False) hm (fun k hk => ?_) hx).resolve_right And.right
  exact .inl ⟨k, (get?_markedContent_node.mp hk).1⟩

theorem mem_children_marked (hid : (s.mapping? id).isSome) (name : Option String)
    (hx : .node x ∈ s.children b) :
    .node x ∈ (s.set id (.mapping (markedContent (s.entries id) name))).children b ∨
      (s.entries id).field? circularRefKey = some (.node x) := by
  obtain ⟨m, hm⟩ := Option.isSome_iff_exists.mp hid
  rw [entries_of_mapping? hm]
  exact mem_children_set hm (fun k hkey hk => get?_markedContent_node.mpr ⟨hk, hkey⟩) hx

-- The content comes from the target, which is another mapping.
theorem mem_children_of_replaced {target : NodeId} {name : Option String}
    (hid : (s.mapping? id).isSome) (htarget : (s.mapping? target).isSome)
    (hx : .node x ∈ (replaced s id target name).children b) :
    .node x ∈ s.children b ∨ id = b ∧ .node x ∈ s.children target := by
  obtain ⟨m, hm⟩ := Option.isSome_iff_exists.mp hid
  obtain ⟨content, hcontent⟩ := Option.isSome_iff_exists.mp htarget
  rw [replaced_of_mapping? hm] at hx
  refine mem_children_of_set hm (fun k hk => ?_) hx
  rcases node_of_get?_inlinedContent hk with hown | htaken
  · exact .inl ⟨k, get?_of_get?_erase_refKey hown⟩
  · by_cases hself : id = target
    · subst hself
      rw [entries_set_self hm] at htaken
      cases htaken
    · rw [entries_set_of_ne hself, entries_of_mapping? hcontent] at htaken
      exact .inr ((mem_children_iff hcontent).mpr ⟨k, htaken⟩)

theorem mem_children_replaced (hid : (s.mapping? id).isSome) (target : NodeId)
    (name : Option String) (hx : .node x ∈ s.children b) :
    .node x ∈ (replaced s id target name).children b ∨
      (s.entries id).field? refKey = some (.node x) := by
  obtain ⟨m, hm⟩ := Option.isSome_iff_exists.mp hid
  rw [replaced_of_mapping? hm, entries_of_mapping? hm]
  refine mem_children_set hm (fun k hkey hk => ?_) hx
  exact get?_inlinedContent_of_some (BEq.comm.trans hkey) hk

end Written

theorem mem_children_of_ensureField (hm : (s.mapping? id).isSome)
    (hx : .node x ∈ (s.ensureField id key).2.children b) :
    .node x ∈ s.children b ∨ s.nodes.size ≤ x := by
  unfold ensureField at hx
  split at hx
  · exact .inl hx
  · obtain ⟨m, hm⟩ := Option.isSome_iff_exists.mp ((grows_alloc s (.mapping .empty)).mapping id hm)
    rcases mem_children_of_put hm hx with hold | rfl
    · rw [children_alloc_empty] at hold
      exact .inl hold
    · exact .inr (Nat.le_refl _)

theorem mem_children_ensureField (hm : (s.mapping? id).isSome) (hx : .node x ∈ s.children b)
    (key : String) : .node x ∈ (s.ensureField id key).2.children b ∨
      (s.entries id).field? key = some (.node x) ∧ s.mapping? x = none := by
  obtain ⟨m, hm⟩ := Option.isSome_iff_exists.mp hm
  unfold ensureField
  split
  · exact .inl hx
  next hnone =>
    have halloc := (mapping?_alloc_of_lt (c := .mapping .empty) (lt_size_of_mapping? hm)).trans hm
    rw [← children_alloc_empty] at hx
    refine (mem_children_put halloc hx).imp_right fun hk => ?_
    have hfield : (s.entries id).field? key = some (.node x) := by
      rw [entries_of_mapping? hm]
      exact hk
    exact ⟨hfield, asMapping?_node_eq_none.mp (asMapping?_of_fieldMapping?_eq_none hnone hfield)⟩

variable {document target : NodeId} {name : String} {d : Deed}

theorem mem_children_of_ensureComponents (hdoc : (s.mapping? document).isSome)
    (hx : .node x ∈ (s.ensureComponents document kind).2.children b) :
    .node x ∈ s.children b ∨ s.nodes.size ≤ x := by
  obtain ⟨hkeeps, hplace⟩ := keeps_ensureField hdoc "components"
  rcases mem_children_of_ensureField hplace hx with hfirst | hnew
  · exact mem_children_of_ensureField hdoc hfirst
  · exact .inr (Nat.le_trans hkeeps.size hnew)

theorem mem_children_ensureComponents (hdoc : (s.mapping? document).isSome)
    (hd : d.section? = some kind) (hx : .node x ∈ s.children b) :
    .node x ∈ (s.ensureComponents document kind).2.children b ∨ Displaces document s x d := by
  obtain ⟨hkeeps, hplace⟩ := keeps_ensureField hdoc "components"
  rcases mem_children_ensureField hdoc hx "components" with hfirst | ⟨hfield, hnot⟩
  · refine (mem_children_ensureField hplace hfirst kind).imp_right fun ⟨hfield, hnot⟩ => ?_
    rcases ensureField_cases hdoc "components" with ⟨comps, m, hcomps, heq⟩ | ⟨hnew, hempty⟩
    · rw [heq] at hfield hnot
      have hm := (fieldMapping?_eq_some.mp hcomps).2
      rw [entries_of_mapping? hm] at hfield
      exact .place hd hcomps hfield hnot
    · -- Nothing stands in components that are new.
      rw [hnew, hempty] at hfield
      cases hfield
  · exact .inr (.components (by simp [hd]) hfield hnot)

theorem mem_children_of_bound (hdoc : (s.mapping? document).isSome)
    (hx : .node x ∈ (bound s document kind name target).children b) :
    .node x ∈ s.children b ∨ s.nodes.size ≤ x ∨ x = target := by
  obtain ⟨-, hplace⟩ := keeps_ensureComponents hdoc kind
  obtain ⟨m, hm⟩ := Option.isSome_iff_exists.mp hplace
  unfold bound at hx
  dsimp only at hx
  split at hx
  · exact (mem_children_of_ensureComponents hdoc hx).imp_right .inl
  · rcases mem_children_of_put hm hx with hold | htarget
    · exact (mem_children_of_ensureComponents hdoc hold).imp_right .inl
    · exact .inr (.inr htarget)

theorem mem_children_bound (hdoc : (s.mapping? document).isSome) (hd : d.section? = some kind)
    (hx : .node x ∈ s.children b) :
    .node x ∈ (bound s document kind name target).children b ∨ Displaces document s x d := by
  obtain ⟨-, hplace⟩ := keeps_ensureComponents hdoc kind
  obtain ⟨m, hm⟩ := Option.isSome_iff_exists.mp hplace
  refine (mem_children_ensureComponents hdoc hd hx).imp_left fun hin => ?_
  unfold bound
  dsimp only
  split
  · exact hin
  next hfree =>
    refine (mem_children_put hm hin).resolve_right fun hk => ?_
    rw [entries_of_mapping? hm, Entries.has, OrderedMap.contains_eq_isSome_get?, hk] at hfree
    exact absurd rfl hfree

end Children

section Deeds

variable {c : Context} {s : Store} {files : List (String × NodeId)} {h : History} {d : Deed}
  {b x : NodeId}

-- What a deed takes out of a container is displaced.
theorem Legit.child_stays (hd : Legit c s files h d)
    (hroot : ((after c s h).mapping? c.document).isSome) (hx : .node x ∈ (after c s h).children b) :
    .node x ∈ (d.apply c.document (after c s h)).children b ∨
      Displaces c.document (after c s h) x d := by
  cases hd with
  | prepare => exact mem_children_ensureComponents hroot rfl hx
  | @load key l document read hkey hread =>
      have hsame : read.get? b = (after c s h).get? b :=
        (extends_parseFile hread).1.old b (lt_size_of_mem_children hx)
      refine .inl ?_
      show .node x ∈ read.children b
      unfold children at hx ⊢
      rwa [hsame]
  | bind kind name target => exact mem_children_bound hroot rfl hx
  | limit l => exact .inl hx
  | look base hcarried => exact .inl hx
  | follow hled => exact .inl hx
  | mark name hnode _ _ => exact (mem_children_marked hnode name hx).imp_right .mark
  | inline name hresolves =>
      exact (mem_children_replaced hresolves.isMapping _ name hx).imp_right .inline

theorem Legit.child_comes (hd : Legit c s files h d)
    (hroot : d.brings = true → ((after c s h).mapping? c.document).isSome)
    (hx : .node x ∈ (d.apply c.document (after c s h)).children b) :
    .node x ∈ (after c s h).children b ∨ Gains (after c s h) b x d := by
  cases hd with
  | prepare => exact (mem_children_of_ensureComponents (hroot rfl) hx).imp_right (.made rfl)
  | @load key l document read hkey hread =>
      obtain ⟨hextends, -⟩ := extends_parseFile hread
      rcases Nat.lt_or_ge b (after c s h).nodes.size with hlt | hge
      · refine .inl ?_
        have hin : .node x ∈ read.children b := hx
        unfold children at hin ⊢
        rwa [hextends.old b hlt] at hin
      · exact .inr (.read hge (hextends.new b hge _ hx x rfl).1)
  | bind kind name target =>
      rcases mem_children_of_bound (hroot rfl) hx with hold | hnew | rfl
      · exact .inl hold
      · exact .inr (.made rfl hnew)
      · exact .inr (.bound kind name)
  | limit l => exact .inl hx
  | look base hcarried => exact .inl hx
  | follow hled => exact .inl hx
  | mark _ hnode _ _ => exact .inl (mem_children_of_marked hnode hx)
  | @inline node target ref name hresolves =>
      rcases mem_children_of_replaced hresolves.isMapping hresolves.toMapping hx with
        hold | ⟨rfl, hcontent⟩
      · exact .inl hold
      · exact .inr (.copied ref name hcontent)

end Deeds

end ApiGraph.Resolve
