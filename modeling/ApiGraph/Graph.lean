import ApiGraph.Naming.Collect
import ApiGraph.Reachability.Collect
import ApiGraph.Resolver
import ApiGraph.Schema.Composition

namespace ApiGraph

structure SchemaGraph where
  store : Store
  document : NodeId
  kind : Description.Kind
  inlineSchemas : InlineTable
  -- The names of the components that responses reach.
  reachable : List Key
  limits : List SoftLimit
  events : List Event

namespace SchemaGraph

-- Whether no pass met a limit.
def isComplete (g : SchemaGraph) : Bool := g.limits.isEmpty

inductive Error where
  | parse (cause : ParseError)
  | resolution (cause : ResolutionError)

def reachabilityEvents (p : Reachability.Progress) : List Event :=
  p.limits.map .reachabilityLimit

-- References are resolved before schemas are named and reachable components are collected.
def build (t : FileTree) (g : Settings) (environmentPaths : List String) (source : Source)
    (s : Store) : Except (Failure Error) SchemaGraph := do
  let (document, s) ← (source.load t g.resolver.maxFileSize s).mapError (·.map .parse)
  let kind := Description.kindOf (s.entries document)
  let resolved := Resolve.references s
    { document, source, settings := g.resolver, searchPaths := [], environmentPaths,
      archive := none, tree := t }
  resolved.result.mapError (·.map .resolution)
  let s := resolved.store
  let naming ← (Naming.collect s g.naming document).mapError .fault
  let reach := Reachability.collect s g.reachability document
  let limits := resolved.limits ++ naming.limits ++ reach.limits
  let events := resolved.events ++ naming.events ++ reachabilityEvents reach
  let last := if limits.isEmpty then [] else [.limitsHit limits.length]
  return ⟨s, document, kind, naming.table, reach.names, limits, events ++ last⟩

end SchemaGraph

end ApiGraph
