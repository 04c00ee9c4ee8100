import ApiGraph.Document.Access
import ApiGraph.Reference.Target

namespace ApiGraph.Reachability

-- The mark of an inlined copy comes before the reference.
def referenceName? (m : Entries) : Option String :=
  ((m.text? resolvedRefKey).bind Reference.schemaName?) <|> (m.ref?.bind Reference.schemaName?)

end ApiGraph.Reachability
