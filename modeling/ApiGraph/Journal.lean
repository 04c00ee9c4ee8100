import ApiGraph.Document.Store

namespace ApiGraph

inductive LimitKind where
  | depth
  | nodeCount
  | stack
  | branchCount
  | nameCount
deriving DecidableEq

def LimitKind.text : LimitKind → String
  | .depth => "depth"
  | .nodeCount => "node_count"
  | .stack => "stack"
  | .branchCount => "branch_count"
  | .nameCount => "name_count"

-- It stops one branch of a walk and lets the walk go on.
structure SoftLimit where
  kind : LimitKind
  -- The pass and the place where the limit was met.
  site : String
  detail : String
deriving DecidableEq

inductive Level where
  | debug
  | info
  | warning
deriving DecidableEq

inductive Pass where
  | resolver
  | naming
  | reachability
  | graph
deriving DecidableEq

inductive Event where
  | resolutionLimit (limit : SoftLimit)
  -- A reference was looked up from the given directory.
  | lookedUp (node : NodeId) (ref : String) (base : Option String)
  | inlined (node target : NodeId) (ref : String)
  | circular (node : NodeId) (ref : String)
  | loaded (path : String)
  | registered (name ref : String)
  | adopted (kind name : String)
  | dangling (ref : String)
  | danglingIn (ref file : String)
  | resolved (files nodes : Nat)
  | nameShared (name : String) (count : Nat)
  | reachabilityLimit (limit : SoftLimit)
  | limitsHit (count : Nat)
deriving DecidableEq

namespace Event

def pass : Event → Pass
  | .resolutionLimit _ => .resolver
  | .lookedUp _ _ _ => .resolver
  | .inlined _ _ _ => .resolver
  | .circular _ _ => .resolver
  | .loaded _ => .resolver
  | .registered _ _ => .resolver
  | .adopted _ _ => .resolver
  | .dangling _ => .resolver
  | .danglingIn _ _ => .resolver
  | .resolved _ _ => .resolver
  | .nameShared _ _ => .naming
  | .reachabilityLimit _ => .reachability
  | .limitsHit _ => .graph

def level : Event → Level
  | .lookedUp _ _ _ => .debug
  | .inlined _ _ _ => .debug
  | .circular _ _ => .debug
  | .loaded _ => .info
  | .registered _ _ => .info
  | .adopted _ _ => .info
  | .resolved _ _ => .info
  | _ => .warning

def message : Event → String
  | .resolutionLimit l => s!"Resolution limit ({l.kind.text}) at {l.site}: {l.detail}"
  | .lookedUp _ ref base => "Looking up " ++ ref ++ " from " ++ base.getD "."
  | .inlined _ _ ref => s!"Inlined {ref}"
  | .circular _ ref => s!"Circular reference {ref} left unresolved"
  | .loaded path => s!"Loaded referenced file {path}"
  | .registered name ref => s!"Registered schema {name} from {ref}"
  | .adopted kind name => s!"Adopted components.{kind}.{name} from a referenced file"
  | .dangling ref => s!"Dangling reference {ref}"
  | .danglingIn ref file => s!"Dangling reference {ref} in {file}"
  | .resolved files nodes =>
      s!"Resolved references: {files} external files loaded, {nodes} nodes walked"
  | .nameShared name count => s!"Inline schema name {name} assigned to {count} different schemas"
  | .reachabilityLimit l => s!"Reachability limit ({l.kind.text}) at {l.site}: {l.detail}"
  | .limitsHit count => s!"Schema graph built with {count} soft limits hit"

end Event

end ApiGraph
