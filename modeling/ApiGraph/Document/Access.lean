import ApiGraph.Document.Store

namespace ApiGraph

def refKey : String := "$ref"

-- Left on an inlined schema: the component that it is a copy of.
def resolvedRefKey : String := "x-resolved-ref"

-- Left on a reference that closes a cycle and stays as it is.
def circularRefKey : String := "x-circular-ref"

def compositionKeys : List String := ["allOf", "oneOf", "anyOf"]

-- The keys that only schemas have.
def schemaMarkers : List String :=
  ["type", "properties", "items", "allOf", "oneOf", "anyOf", "enum"]

namespace Entries

def field? (m : Entries) (key : String) : Option Value := m.get? (.str key)

def has (m : Entries) (key : String) : Bool := m.contains (.str key)

def text? (m : Entries) (key : String) : Option String := (m.field? key).bind Value.string?

-- The reference of a mapping, where it is text.
def ref? (m : Entries) : Option String := m.text? refKey

def looksLikeSchema (m : Entries) : Bool := schemaMarkers.any m.has

end Entries

namespace Store

-- Null, false, zero and everything empty do not count.
def isTruthy (s : Store) : Value → Bool
  | .scalar v => v.isTruthy
  | .pair _ _ => true
  | .node id =>
      match s.get? id with
      | some (.mapping m) => !m.isEmpty
      | some (.sequence l) => !l.isEmpty
      | some (.set l) => !l.isEmpty
      | none => false

def ref? (s : Store) (v : Value) : Option String := (s.asMapping? v).bind (·.2.ref?)

-- Follows the keys through nested mappings.
def mappingAt? (s : Store) (v : Value) : List String → Option (NodeId × Entries)
  | [] => s.asMapping? v
  | key :: keys => do
      let (_, m) ← s.asMapping? v
      s.mappingAt? (← m.field? key) keys

-- The components of one kind.
def components? (s : Store) (document : NodeId) (kind : String) : Option (NodeId × Entries) := do
  let (id, _) ← s.fieldMapping? document "components"
  s.fieldMapping? id kind

-- A mapping field of a mapping; a new empty mapping takes the place of anything else.
def ensureField (s : Store) (id : NodeId) (key : String) : NodeId × Store :=
  match s.fieldMapping? id key with
  | some (child, _) => (child, s)
  | none =>
      let (child, s) := s.alloc (.mapping .empty)
      (child, s.put id (.str key) (.node child))

def ensureComponents (s : Store) (document : NodeId) (kind : String) : NodeId × Store :=
  let (id, s) := s.ensureField document "components"
  s.ensureField id kind

-- The named schemas.
def registry? (s : Store) (document : NodeId) : Option (NodeId × Entries) :=
  s.components? document "schemas"

-- The type of a schema; of a list of types the first one besides null, if it is text.
def schemaType? (s : Store) (schema : Entries) : Option String := do
  let v ← schema.field? "type"
  match s.asSequence? v with
  | some types => (types.find? (· != .str "null")).bind Value.string?
  | none => v.string?

-- The kind of a value, as error texts name it.
def kindName (s : Store) : Value → String
  | .scalar .null => "NoneType"
  | .scalar (.bool _) => "bool"
  | .scalar (.int _) => "int"
  | .scalar (.float _) => "float"
  | .scalar (.str _) => "str"
  | .scalar (.date _) => "date"
  | .scalar (.dateTime _) => "datetime"
  | .scalar (.bytes _) => "bytes"
  | .pair _ _ => "tuple"
  | .node id =>
      match s.get? id with
      | some (.mapping _) => "dict"
      | some (.sequence _) => "list"
      | some (.set _) => "set"
      | none => "dict"

end Store

end ApiGraph
