import ApiGraph.Document.Access
import ApiGraph.Journal
import ApiGraph.Locator
import ApiGraph.Settings

namespace ApiGraph.Resolve

-- What does not change during a run.
structure Context where
  -- The description whose references are resolved.
  document : NodeId
  locator : Locator
  settings : ResolverSettings

-- The file that a walk is in: its document, the key it is loaded under and its directory.
structure Scope where
  document : NodeId
  key : Option String
  base : Option String
  isRoot : Bool

-- A reference that is being resolved around the current node: the key of its target and the mapping
-- that it stands in.
structure Link where
  target : String
  node : NodeId
deriving DecidableEq

-- The references being resolved, innermost first; their number is the depth of the walk.
abbrev Chain := List Link

structure Run where
  store : Store
  -- The documents by key, in the order in which they were loaded.
  loaded : OrderedMap String NodeId
  visited : List NodeId
  -- The internal references met in the root document.
  rootRefs : List String
  walked : Nat
  nodeLimitHit : Bool
  limits : List SoftLimit
  events : List Event

-- What was done stays done when a run ends in an error.
abbrev ResolveM := ExceptT (Failure ResolutionError) (StateM Run)

def Chain.hasTarget (chain : Chain) (key : String) : Bool := chain.any fun l => l.target == key

def Chain.hasNode (chain : Chain) (id : NodeId) : Bool := chain.any fun l => l.node == id

def report (e : Event) : ResolveM Unit := modify fun r => { r with events := r.events ++ [e] }

def limit (l : SoftLimit) : ResolveM Unit := do
  modify fun r => { r with limits := r.limits ++ [l] }
  report (.resolutionLimit l)

def visit (id : NodeId) : ResolveM Unit := modify fun r => { r with visited := id :: r.visited }

def fail {α : Type} (e : ResolutionError) : ResolveM α := throw (.announced e)

def getStore : ResolveM Store := return (← get).store

def setStore (s : Store) : ResolveM Unit := modify fun r => { r with store := s }

end ApiGraph.Resolve
