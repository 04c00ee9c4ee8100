import ApiGraph.Naming.Table
import Mathlib.Data.List.Basic
import Mathlib.Data.List.Induction

namespace ApiGraph

-- What comes last is kept if it has not been there before.
theorem eraseDups_concat {α : Type} [BEq α] [LawfulBEq α] (l : List α) (a : α) :
    (l ++ [a]).eraseDups = l.eraseDups ++ if a ∈ l.eraseDups then [] else [a] := by
  rw [List.eraseDups_append]
  simp only [List.mem_eraseDups]
  by_cases ha : a ∈ l
  · simp [List.removeAll, ha]
  · simp [List.removeAll, ha, List.eraseDups_cons]

namespace InlineTable

-- The schemas and names of the assignments, the first one first.
abbrev History := List (NodeId × String)

def after (h : History) : InlineTable := h.foldl (fun t e => (t.assign e.1 e.2).1) .empty

theorem after_concat (h : History) (e : NodeId × String) :
    after (h ++ [e]) = ((after h).assign e.1 e.2).1 := by
  unfold after
  rw [List.foldl_append]
  rfl

namespace History

-- The first name that the schema was given.
def nameOf? (h : History) (node : NodeId) : Option String := h.lookup node

-- The schemas in the order of their first assignments.
def nodes (h : History) : List NodeId := (h.map Prod.fst).eraseDups

-- The schemas with the names they keep.
def kept (h : History) : List (NodeId × String) :=
  h.nodes.filterMap fun node => (h.nameOf? node).map (node, ·)

-- The names that are kept, in the order of their first use.
def names (h : History) : List String := (h.kept.map Prod.snd).eraseDups

-- The schemas that keep the name, in the order of their assignments.
def bearers (h : History) (name : String) : List NodeId :=
  h.nodes.filter fun node => h.nameOf? node == some name

variable {h : History} {node m : NodeId} {name : String}

theorem mem_nodes : node ∈ h.nodes ↔ (h.nameOf? node).isSome := by
  unfold nodes nameOf?
  rw [List.mem_eraseDups, List.lookup_isSome_iff, List.mem_map]
  simp only [beq_iff_eq, @eq_comm _ node]

theorem nameOf?_concat (h : History) (node : NodeId) (name : String) (m : NodeId) :
    nameOf? (h ++ [(node, name)]) m = (h.nameOf? m).or (if m = node then some name else none) := by
  unfold nameOf?
  rw [List.lookup_append]
  by_cases hm : m = node
  · simp [hm]
  · have hne : (m == node) = false := by simpa using hm
    rw [List.lookup_cons, hne, List.lookup_nil, if_neg hm]

-- A schema that has a name keeps it, and nothing changes for the others.
theorem nameOf?_concat_of_named (hnode : (h.nameOf? node).isSome) (name : String) :
    nameOf? (h ++ [(node, name)]) = h.nameOf? := by
  funext m
  rw [nameOf?_concat]
  by_cases hm : m = node
  · subst hm
    exact Option.or_of_isSome hnode
  · simp [hm]

theorem nameOf?_concat_of_new (hnode : h.nameOf? node = none) (name : String) (m : NodeId) :
    nameOf? (h ++ [(node, name)]) m = if m = node then some name else h.nameOf? m := by
  rw [nameOf?_concat]
  by_cases hm : m = node
  · simp [hm, hnode]
  · simp [hm]

theorem nodes_concat (h : History) (node : NodeId) (name : String) :
    nodes (h ++ [(node, name)]) = h.nodes ++ if node ∈ h.nodes then [] else [node] := by
  unfold nodes
  rw [List.map_append]
  exact eraseDups_concat _ node

section Named

variable (hnode : (h.nameOf? node).isSome)
include hnode

theorem nodes_concat_of_named (name : String) : nodes (h ++ [(node, name)]) = h.nodes := by
  rw [nodes_concat, if_pos (mem_nodes.mpr hnode), List.append_nil]

theorem kept_concat_of_named (name : String) : kept (h ++ [(node, name)]) = h.kept := by
  unfold kept
  rw [nodes_concat_of_named hnode, nameOf?_concat_of_named hnode]

theorem names_concat_of_named (name : String) : names (h ++ [(node, name)]) = h.names := by
  unfold names
  rw [kept_concat_of_named hnode]

theorem bearers_concat_of_named (name : String) : bearers (h ++ [(node, name)]) = h.bearers := by
  funext x
  unfold bearers
  rw [nodes_concat_of_named hnode, nameOf?_concat_of_named hnode]

end Named

section New

variable (hnode : h.nameOf? node = none)
include hnode

theorem nodes_concat_of_new (name : String) : nodes (h ++ [(node, name)]) = h.nodes ++ [node] := by
  have hnew : node ∉ h.nodes := by simp [mem_nodes, hnode]
  rw [nodes_concat, if_neg hnew]

-- For the schemas named before, the history says what it said.
theorem nameOf?_of_mem (name : String) (hm : m ∈ h.nodes) :
    nameOf? (h ++ [(node, name)]) m = h.nameOf? m := by
  have hne : m ≠ node := by
    rintro rfl
    simp [mem_nodes, hnode] at hm
  rw [nameOf?_concat_of_new hnode, if_neg hne]

theorem nameOf?_concat_self (name : String) : nameOf? (h ++ [(node, name)]) node = some name := by
  rw [nameOf?_concat_of_new hnode, if_pos rfl]

theorem kept_concat_of_new (name : String) : kept (h ++ [(node, name)]) = h.kept ++ [(node, name)] := by
  unfold kept
  rw [nodes_concat_of_new hnode, List.filterMap_append]
  congr 1
  · exact List.filterMap_congr fun m hm => by rw [nameOf?_of_mem hnode name hm]
  · simp [nameOf?_concat_self hnode name]

theorem bearers_concat_of_new (name x : String) :
    bearers (h ++ [(node, name)]) x = h.bearers x ++ if x = name then [node] else [] := by
  unfold bearers
  rw [nodes_concat_of_new hnode, List.filter_append]
  congr 1
  · exact List.filter_congr fun m hm => by rw [nameOf?_of_mem hnode name hm]
  · by_cases hx : x = name
    · simp [hx, nameOf?_concat_self hnode name]
    · simp [hx, nameOf?_concat_self hnode name, Ne.symm hx]

theorem names_concat_of_new (name : String) :
    names (h ++ [(node, name)]) = h.names ++ if name ∈ h.names then [] else [name] := by
  unfold names
  rw [kept_concat_of_new hnode, List.map_append]
  exact eraseDups_concat _ name

end New

theorem mem_kept {e : NodeId × String} : e ∈ h.kept ↔ h.nameOf? e.1 = some e.2 := by
  unfold kept
  rw [List.mem_filterMap]
  constructor
  · rintro ⟨m, -, hm⟩
    obtain ⟨name, hname, rfl⟩ := Option.map_eq_some_iff.mp hm
    exact hname
  · intro he
    exact ⟨e.1, mem_nodes.mpr (by rw [he]; rfl), by rw [he]; rfl⟩

theorem mem_of_nameOf? (hname : h.nameOf? node = some name) : (node, name) ∈ h := by
  obtain ⟨_, _, rfl, -⟩ := List.lookup_eq_some_iff.mp hname
  exact List.mem_append_right _ List.mem_cons_self

theorem mem_bearers : node ∈ h.bearers name ↔ h.nameOf? node = some name := by
  unfold bearers
  rw [List.mem_filter, beq_iff_eq, mem_nodes]
  refine ⟨And.right, fun hname => ⟨?_, hname⟩⟩
  rw [hname]
  rfl

-- A name is kept if a schema keeps it.
theorem mem_names : name ∈ h.names ↔ h.bearers name ≠ [] := by
  unfold names
  rw [List.mem_eraseDups, List.mem_map]
  constructor
  · rintro ⟨e, he, rfl⟩ hnil
    have hin : e.1 ∈ h.bearers e.2 := mem_bearers.mpr (mem_kept.mp he)
    rw [hnil] at hin
    cases hin
  · intro hne
    obtain ⟨m, hm⟩ := List.exists_mem_of_ne_nil _ hne
    exact ⟨(m, name), mem_kept.mpr (mem_bearers.mp hm), rfl⟩

theorem map_fst_kept (h : History) : h.kept.map Prod.fst = h.nodes := by
  have hall : ∀ node ∈ h.nodes, ((h.nameOf? node).map (node, ·)).map Prod.fst = some node := by
    intro node hnode
    obtain ⟨name, hname⟩ := Option.isSome_iff_exists.mp (mem_nodes.mp hnode)
    rw [hname]
    rfl
  unfold kept
  rw [List.map_filterMap]
  calc h.nodes.filterMap (fun node => ((h.nameOf? node).map (node, ·)).map Prod.fst)
      = h.nodes.filterMap some := List.filterMap_congr hall
    _ = h.nodes := List.filterMap_some

end History

variable {h : History} {t : InlineTable} {node : NodeId} {name : String}

-- Both indexes say what the history says.
structure Describes (h : History) (t : InlineTable) : Prop where
  entries : t.toList = h.kept
  byName : t.byName.entries = h.names.map fun name => (name, h.bearers name)

theorem describes_empty : Describes [] .empty := ⟨rfl, rfl⟩

-- Nothing is found under a key that no entry has.
theorem get?_eq_none {α β : Type} [DecidableEq α] {m : OrderedMap α β} {k : α} (h : ∀ e ∈ m.entries, e.1 ≠ k) :
    m.get? k = none := by
  unfold OrderedMap.get?
  rw [Option.map_eq_none_iff, List.find?_eq_none]
  exact fun e he heq => h e he (eq_of_beq heq)

theorem Describes.nameOf? (hd : Describes h t) (node : NodeId) : t.nameOf? node = h.nameOf? node := by
  cases hname : h.nameOf? node with
  | some name =>
      refine OrderedMap.get?_of_mem ?_
      show (node, name) ∈ t.toList
      rw [hd.entries]
      exact History.mem_kept.mpr hname
  | none =>
      refine get?_eq_none fun e he heq => ?_
      have hkept : h.nameOf? e.1 = some e.2 := History.mem_kept.mp (hd.entries ▸ he)
      rw [heq, hname] at hkept
      cases hkept

theorem Describes.names (hd : Describes h t) : t.names = h.names := by
  unfold InlineTable.names OrderedMap.keys
  rw [hd.byName, List.map_map]
  exact List.map_id _

theorem Describes.nodesNamed (hd : Describes h t) (name : String) : t.nodesNamed name = h.bearers name := by
  unfold InlineTable.nodesNamed
  by_cases hname : name ∈ h.names
  · have hin : (name, h.bearers name) ∈ t.byName.entries := by
      rw [hd.byName]
      exact List.mem_map_of_mem hname
    rw [OrderedMap.get?_of_mem hin, Option.getD_some]
  · have hnone : t.byName.get? name = none := by
      refine get?_eq_none fun e he heq => ?_
      rw [hd.byName] at he
      obtain ⟨x, hx, rfl⟩ := List.mem_map.mp he
      exact hname (heq ▸ hx)
    rw [hnone, Option.getD_none]
    by_contra hne
    exact hname (History.mem_names.mpr (Ne.symm hne))

theorem Describes.collisions (hd : Describes h t) :
    t.collisions = (h.names.map fun name => (name, h.bearers name)).filter fun e => 1 < e.2.length := by
  unfold InlineTable.collisions
  rw [hd.byName]

-- Where a map is given by a function, a binding changes the function at one place.
theorem place_map {α β : Type} [DecidableEq α] {f : α → β} {l : List α} (hl : l.Nodup) (k : α) (v : β) :
    OrderedMap.place k v (l.map fun x => (x, f x)) =
      (l ++ if k ∈ l then [] else [k]).map fun x => (x, if x = k then v else f x) := by
  induction l with
  | nil => simp [OrderedMap.place]
  | cons a rest ih =>
      obtain ⟨ha, hrest⟩ := List.nodup_cons.mp hl
      rw [List.map_cons, OrderedMap.place]
      by_cases hk : a = k
      · subst hk
        have hsame : ∀ x ∈ rest, (x, f x) = (x, if x = a then v else f x) := by
          intro x hx
          have hne : x ≠ a := fun heq => ha (heq ▸ hx)
          rw [if_neg hne]
        simpa using List.map_congr_left hsame
      · have hmem : k ∈ a :: rest ↔ k ∈ rest := by simp [Ne.symm hk]
        simp only [hmem, beq_iff_eq, hk, if_false, ih hrest, List.cons_append, List.map_cons]

theorem Describes.assign (hd : Describes h t) (node : NodeId) (name : String) :
    Describes (h ++ [(node, name)]) (t.assign node name).1 := by
  unfold InlineTable.assign
  cases hname : h.nameOf? node with
  | some kept =>
      have hnode : (h.nameOf? node).isSome := by rw [hname]; rfl
      rw [assignment_of_named name ((hd.nameOf? node).trans hname)]
      constructor
      · rw [History.kept_concat_of_named hnode]
        exact hd.entries
      · rw [History.names_concat_of_named hnode, History.bearers_concat_of_named hnode]
        exact hd.byName
  | none =>
      have hnone : t.nameOf? node = none := (hd.nameOf? node).trans hname
      rw [assignment_of_new name hnone]
      constructor
      · unfold InlineTable.toList
        rw [OrderedMap.entries_insert_of_get?_eq_none name hnone, History.kept_concat_of_new hname]
        exact congrArg (· ++ [(node, name)]) hd.entries
      · have hnodup : h.names.Nodup := hd.names ▸ t.byName.distinct.imp fun hne heq => by simp [heq] at hne
        rw [OrderedMap.entries_insert, hd.nodesNamed, hd.byName, place_map hnodup,
          History.names_concat_of_new hname]
        refine List.map_congr_left fun x _ => congrArg (Prod.mk x) ?_
        rw [History.bearers_concat_of_new hname]
        by_cases hx : x = name
        · rw [if_pos hx, if_pos hx, hx]
        · rw [if_neg hx, if_neg hx, List.append_nil]

theorem describes_after (h : History) : Describes h (after h) := by
  induction h using List.reverseRecOn with
  | nil => exact describes_empty
  | append_singleton h e ih =>
      rw [after_concat]
      exact ih.assign e.1 e.2

-- What an assignment after a history answers and reports.
theorem Describes.assignment (hd : Describes h t) (node : NodeId) (name : String) :
    (t.assignment node name).table.nameOf? node = some (t.assignment node name).name ∧
      (t.assignment node name).events =
        if h.nameOf? node = none ∧ h.bearers name ≠ [] then
          [.nameShared name ((h.bearers name).length + 1)]
        else [] := by
  cases hname : h.nameOf? node with
  | some kept =>
      have hkept := (hd.nameOf? node).trans hname
      rw [assignment_of_named name hkept]
      exact ⟨hkept, rfl⟩
  | none =>
      rw [assignment_of_new name ((hd.nameOf? node).trans hname)]
      constructor
      · show (t.entries.insert node name).get? node = some name
        rw [OrderedMap.get?_insert, if_pos BEq.rfl]
      · rw [hd.nodesNamed, List.length_append, List.length_singleton]
        cases h.bearers name with
        | nil => rfl
        | cons _ _ => simp

theorem Describes.mem_collisions (hd : Describes h t) {nodes : List NodeId} :
    (name, nodes) ∈ t.collisions ↔ nodes = h.bearers name ∧ 2 ≤ nodes.length := by
  rw [hd.collisions, List.mem_filter, List.mem_map, decide_eq_true_eq]
  constructor
  · rintro ⟨⟨x, -, hx⟩, hlength⟩
    obtain ⟨rfl, rfl⟩ := Prod.mk.inj hx
    exact ⟨rfl, hlength⟩
  · rintro ⟨rfl, hlength⟩
    have hne : h.bearers name ≠ [] := by
      intro hnil
      simp [hnil] at hlength
    exact ⟨⟨name, History.mem_names.mpr hne, rfl⟩, hlength⟩

-- After every history a schema has the first name that it was given, and none without an assignment. The
-- table lists the schemas in the order in which they were named, and the names in the order of their first
-- use; shared are just the names that two or more schemas keep, each with these schemas. A further
-- assignment goes on from there. It answers the name that the schema has from then on, and reports just a
-- schema that newly comes to a name which another one keeps.
theorem after_history (h : History) :
    (∀ node, (after h).nameOf? node = h.nameOf? node) ∧
    (after h).size = h.nodes.length ∧
    (after h).toList.map Prod.fst = h.nodes ∧
    (after h).toList = h.kept ∧
    (after h).names = h.names ∧
    (∀ name nodes, (name, nodes) ∈ (after h).collisions ↔ nodes = h.bearers name ∧ 2 ≤ nodes.length) ∧
    ((after h).collisions.map Prod.fst).Sublist h.names ∧
    ∀ node name,
      ((after h).assignment node name).table = after (h ++ [(node, name)]) ∧
      (after (h ++ [(node, name)])).nameOf? node = some ((after h).assignment node name).name ∧
      ((after h).assignment node name).events =
        if h.nameOf? node = none ∧ h.bearers name ≠ [] then
          [.nameShared name ((h.bearers name).length + 1)]
        else [] := by
  have hd := describes_after h
  have hnodes : (after h).toList.map Prod.fst = h.nodes := by rw [hd.entries, History.map_fst_kept]
  refine ⟨hd.nameOf?, ?_, hnodes, hd.entries, hd.names, fun _ _ => hd.mem_collisions, ?_,
    fun node name => ?_⟩
  · rw [← hnodes, List.length_map]
    rfl
  · rw [← hd.names]
    exact List.filter_sublist.map Prod.fst
  · have hnext : ((after h).assignment node name).table = after (h ++ [(node, name)]) :=
      (after_concat h (node, name)).symm
    obtain ⟨hname, hevents⟩ := hd.assignment node name
    exact ⟨hnext, hnext ▸ hname, hevents⟩

-- Two schemas share a name; the first one keeps it when it is given another one.
example :
    (after [(3, "User"), (5, "User"), (3, "Pet")]).toList = [(3, "User"), (5, "User")] ∧
      (after [(3, "User"), (5, "User"), (3, "Pet")]).collisions = [("User", [3, 5])] := by decide

end InlineTable

end ApiGraph
