import ApiGraph.Failure

namespace ApiGraph.Yaml

-- The text is not YAML, or not a single document of it.
structure Malformed where
deriving DecidableEq, Repr

abbrev Problem := Failure Malformed

def malformed : Problem := .announced {}

inductive Token where
  | streamEnd
  | versionDirective (major : Int)
  | tagDirective (handle start : String)
  | otherDirective
  | documentStart
  | documentEnd
  | blockSequenceStart
  | blockMappingStart
  | blockEnd
  | flowSequenceStart
  | flowMappingStart
  | flowSequenceEnd
  | flowMappingEnd
  | key
  | value
  | blockEntry
  | flowEntry
  | alias (name : String)
  | anchor (name : String)
  | tag (handle : Option String) (suffix : String)
  | scalar (text : String) (plain : Bool)
deriving DecidableEq

structure TokenStream where
  tokens : List Token
  -- What a reader meets that asks for more tokens than there are.
  ending : Problem

end ApiGraph.Yaml
