import ApiGraph.Document.Store
import ApiGraph.Journal

namespace ApiGraph

-- Schemas are told apart by identity. One keeps the first name it is given, and different ones may
-- share a name.
structure InlineTable where
  -- The name of each schema that has one.
  entries : OrderedMap NodeId String
  -- The schemas of each name that was given, in the order in which they got it.
  byName : OrderedMap String (List NodeId)

namespace InlineTable

def empty : InlineTable := ⟨.empty, .empty⟩

instance : Inhabited InlineTable := ⟨empty⟩

def size (t : InlineTable) : Nat := t.entries.size

def contains (t : InlineTable) (node : NodeId) : Bool := t.entries.contains node

def nameOf? (t : InlineTable) (node : NodeId) : Option String := t.entries.get? node

def toList (t : InlineTable) : List (NodeId × String) := t.entries.entries

-- The schemas of a name, in the order in which they got it.
def nodesNamed (t : InlineTable) (name : String) : List NodeId := (t.byName.get? name).getD []

-- The names in the order of their first use.
def names (t : InlineTable) : List String := t.byName.keys

-- The names of more than one schema, with their schemas.
def collisions (t : InlineTable) : List (String × List NodeId) :=
  t.byName.entries.filter fun e => 1 < e.2.length

-- What comes of giving a name to a schema: the table, the name that the schema ends up with, and what
-- is reported.
structure Assignment where
  table : InlineTable
  name : String
  events : List Event

-- Names the schema unless it has a name, and reports a name that is shared from now on.
def assignment (t : InlineTable) (node : NodeId) (name : String) : Assignment :=
  match t.nameOf? node with
  | some kept => ⟨t, kept, []⟩
  | none =>
      let nodes := t.nodesNamed name ++ [node]
      ⟨⟨t.entries.insert node name, t.byName.insert name nodes⟩, name,
        if 1 < nodes.length then [.nameShared name nodes.length] else []⟩

def assign (t : InlineTable) (node : NodeId) (name : String) : InlineTable × List Event :=
  let a := t.assignment node name
  (a.table, a.events)

theorem contains_eq_isSome_nameOf? (t : InlineTable) (node : NodeId) :
    t.contains node = (t.nameOf? node).isSome :=
  OrderedMap.contains_eq_isSome_get? t.entries node

theorem assignment_of_named {t : InlineTable} {node : NodeId} {kept : String} (name : String)
    (h : t.nameOf? node = some kept) : t.assignment node name = ⟨t, kept, []⟩ := by
  unfold assignment
  rw [h]

theorem assignment_of_new {t : InlineTable} {node : NodeId} (name : String)
    (h : t.nameOf? node = none) :
    t.assignment node name =
      ⟨⟨t.entries.insert node name, t.byName.insert name (t.nodesNamed name ++ [node])⟩, name,
        if 1 < (t.nodesNamed name ++ [node]).length then
          [.nameShared name (t.nodesNamed name ++ [node]).length]
        else []⟩ := by
  unfold assignment
  rw [h]

end InlineTable

end ApiGraph
