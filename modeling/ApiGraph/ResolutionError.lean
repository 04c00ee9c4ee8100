import ApiGraph.Description
import ApiGraph.Reference.Pointer

namespace ApiGraph

inductive ResolutionError where
  | emptyPath (ref : String)
  | badEnding (ref : String)
  | notFound (ref : String) (roots : Nat)
  | tooLarge (path : String) (size : Nat) (limit : Int)
  | loading (path : String) (cause : ParseError)
  | opening (cause : ParseError)
  | pointer (ref : String) (cause : Reference.PointerError)
  | notMapping (ref : String)
deriving DecidableEq

namespace ResolutionError

def message : ResolutionError → String
  | .emptyPath _ => "Reference file path cannot be empty"
  | .badEnding ref => s!"Invalid file extension: {ref} (allowed: .yaml, .yml, .json)"
  | .notFound ref roots =>
      s!"Referenced file not found: {ref} (searched in base directory and {roots} search paths)"
  | .tooLarge path size limit => s!"File too large: {path} ({size} bytes, max: {limit} bytes)"
  | .loading path cause => s!"Failed to load referenced file {path}: {cause.message}"
  | .opening cause => cause.message
  | .pointer ref cause => s!"Cannot resolve $ref '{ref}': {cause.reason}"
  | .notMapping ref => s!"Resolved reference is not a mapping: {ref}"

-- The reference to blame, where one is known.
def ref? : ResolutionError → Option String
  | .emptyPath ref => some ref
  | .badEnding ref => some ref
  | .notFound ref _ => some ref
  | .tooLarge _ _ _ => none
  | .loading path _ => some path
  | .opening _ => none
  | .pointer ref _ => some ref
  | .notMapping ref => some ref

end ResolutionError

end ApiGraph
