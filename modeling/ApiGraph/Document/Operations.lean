import ApiGraph.Document.Access

namespace ApiGraph

-- In the order in which the operations of a path are visited.
inductive Method where
  | get
  | post
  | put
  | delete
  | patch
  | head
  | options
  | trace
deriving DecidableEq

namespace Method

def all : List Method := [.get, .post, .put, .delete, .patch, .head, .options, .trace]

def key : Method → String
  | .get => "get"
  | .post => "post"
  | .put => "put"
  | .delete => "delete"
  | .patch => "patch"
  | .head => "head"
  | .options => "options"
  | .trace => "trace"

def label (m : Method) : String := m.key.map Char.toUpper

end Method

structure Operation where
  path : Key
  method : Method
  id : NodeId
  fields : Entries

namespace Store

def operationsOf (s : Store) (path : Key) (item : Entries) : List Operation :=
  Method.all.filterMap fun m => do
    let (id, fields) ← s.asMapping? (← item.field? m.key)
    return ⟨path, m, id, fields⟩

-- All operations, path by path.
def operations (s : Store) (document : NodeId) : List Operation :=
  match s.fieldMapping? document "paths" with
  | none => []
  | some (_, paths) => paths.entries.flatMap fun (path, item) =>
      match s.asMapping? item with
      | some (_, fields) => s.operationsOf path fields
      | none => []

-- The schema of each media type of a response.
def mediaSchemas (s : Store) (response : Entries) : List Value :=
  match (response.field? "content").bind s.asMapping? with
  | none => []
  | some (_, content) => content.values.filterMap fun media => do
      let (_, fields) ← s.asMapping? media
      fields.field? "schema"

end Store

end ApiGraph
