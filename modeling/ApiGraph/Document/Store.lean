import ApiGraph.Document.Scalar
import ApiGraph.OrderedMap

namespace ApiGraph

abbrev NodeId := Nat

inductive Value where
  | scalar (value : Scalar)
  | node (id : NodeId)
  | pair (first second : Value)
deriving DecidableEq, Inhabited

abbrev Entries := OrderedMap Key Value

inductive Container where
  | mapping (entries : Entries)
  | sequence (items : List Value)
  | set (members : List Scalar)
deriving Inhabited

-- A container is known by its place. Two values may name the same container, and what changes it
-- changes it for both.
structure Store where
  nodes : Array Container
deriving Inhabited

namespace Value

def str (s : String) : Value := .scalar (.str s)

def null : Value := .scalar .null

def string? : Value → Option String
  | .scalar (.str s) => some s
  | _ => none

def node? : Value → Option NodeId
  | .node id => some id
  | _ => none

end Value

namespace Store

def empty : Store := ⟨#[]⟩

def get? (s : Store) (id : NodeId) : Option Container := s.nodes[id]?

-- Adds a container that no value names yet.
def alloc (s : Store) (c : Container) : NodeId × Store := (s.nodes.size, ⟨s.nodes.push c⟩)

-- Gives the container new content and keeps its identity.
def set (s : Store) (id : NodeId) (c : Container) : Store := ⟨s.nodes.setIfInBounds id c⟩

def mapping? (s : Store) (id : NodeId) : Option Entries :=
  match s.get? id with
  | some (.mapping m) => some m
  | _ => none

def sequence? (s : Store) (id : NodeId) : Option (List Value) :=
  match s.get? id with
  | some (.sequence l) => some l
  | _ => none

-- The mapping that a value names, with its identity.
def asMapping? (s : Store) : Value → Option (NodeId × Entries)
  | .node id => (s.mapping? id).map (id, ·)
  | _ => none

def asSequence? (s : Store) : Value → Option (List Value)
  | .node id => s.sequence? id
  | _ => none

-- The entries of a mapping; an identity that names no mapping has none.
def entries (s : Store) (id : NodeId) : Entries := (s.mapping? id).getD .empty

def field? (s : Store) (id : NodeId) (key : String) : Option Value :=
  (s.entries id).get? (.str key)

-- Binds the key in the mapping.
def put (s : Store) (id : NodeId) (key : Key) (value : Value) : Store :=
  s.set id (.mapping ((s.entries id).insert key value))

-- A mapping field of a mapping, with its identity.
def fieldMapping? (s : Store) (id : NodeId) (key : String) : Option (NodeId × Entries) := do
  s.asMapping? (← s.field? id key)

@[simp] theorem get?_alloc_self (s : Store) (c : Container) :
    (s.alloc c).2.get? (s.alloc c).1 = some c := by
  simp [alloc, get?]

theorem get?_alloc_of_lt (s : Store) (c : Container) {id : Nat} (h : id < s.nodes.size) :
    (s.alloc c).2.get? id = s.get? id := by
  simp [alloc, get?, Array.getElem?_push, Nat.ne_of_lt h]

theorem get?_set_self (s : Store) (c : Container) {id : Nat} (h : id < s.nodes.size) :
    (s.set id c).get? id = some c := by
  simp [set, get?, h]

theorem get?_set_of_ne (s : Store) (c : Container) {id id' : Nat} (h : id ≠ id') :
    (s.set id c).get? id' = s.get? id' := by
  simp [set, get?, h]

theorem size_set (s : Store) (id : NodeId) (c : Container) :
    (s.set id c).nodes.size = s.nodes.size := by
  simp [set]

-- What a mapping holds after a key is bound in it.
theorem entries_put_self (s : Store) (key : Key) (value : Value) {id : Nat}
    (h : id < s.nodes.size) :
    (s.put id key value).entries id = (s.entries id).insert key value := by
  simp only [put]
  generalize (s.entries id).insert key value = m
  simp [entries, mapping?, get?_set_self s _ h]

theorem get?_put_of_ne (s : Store) (key : Key) (value : Value) {id id' : Nat}
    (h : id ≠ id') : (s.put id key value).get? id' = s.get? id' :=
  get?_set_of_ne s _ h

end Store

end ApiGraph
