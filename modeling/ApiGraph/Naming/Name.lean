import ApiGraph.Document.Scalar
import ApiGraph.Failure
import ApiGraph.OrderedMap
import ApiGraph.Schema.Identifier
import ApiGraph.Text.Split

namespace ApiGraph.Naming

-- A property makes a name only if it is text; an empty sequence of bytes has no text to fail on.
def propertyIdentifier (key : Key) : Except Fault String :=
  match key.scalar with
  | .str s => .ok (Identifier.ofText (Identifier.capitalizeFirst s))
  | .bytes [] => .ok (Identifier.ofText "")
  | .bytes _ => .error .keyWithoutLetters
  | _ => .error .keyNotText

-- The text without the given ending, if something is left in front of it.
def before? (ending s : String) : Option String :=
  if Text.endsWith s.toList ending.toList && ending.length < s.length then
    some (String.ofList (s.toList.take (s.length - ending.length)))
  else none

-- What a property that looks like a collection is a collection of.
def collectionOf? (s : String) : Option String :=
  if (before? "s" s).isSome then some s
  else before? "List" s <|> before? "Array" s

def firstCollection? : List Key → Except Fault (Option String)
  | [] => .ok none
  | key :: rest =>
      match key.scalar with
      | .str s =>
          match collectionOf? s with
          | some base => .ok (some (Identifier.ofText (Identifier.capitalizeFirst base)))
          | none => firstCollection? rest
      | .bytes _ => .error .keyNotText
      | _ => .error .keyWithoutLetters

-- After its only property, a collection, the operation, or else by number.
def responseName (operationId : Option String) (properties : List Key) (counter : Nat) :
    Except Fault String := do
  match properties with
  | [key] => propertyIdentifier key
  | keys =>
      match ← firstCollection? keys with
      | some name => return name
      | none =>
          match operationId.filter (· != "") with
          | some id => return Identifier.ofText (Identifier.capitalizeFirst id ++ "Response")
          | none => return s!"InlinedSchema{counter}"

-- After its title, the property around it, or else by number.
def propertyName (title : Option String) (property : Option Key) (counter : Nat) :
    Except Fault String :=
  match title.filter (· != ""), property.filter (·.scalar.isTruthy) with
  | some t, _ => .ok (Identifier.ofText t)
  | none, some key => propertyIdentifier key
  | none, none => .ok s!"InlineObject{counter}"

end ApiGraph.Naming
