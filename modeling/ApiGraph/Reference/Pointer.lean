import ApiGraph.Document.Access
import ApiGraph.Reference.Target
import ApiGraph.Text.Numeral

namespace ApiGraph.Reference

inductive PointerError where
  | missingKey (segment : String)
  | badIndex (segment : String)
  | notContainer (kind : String)
deriving DecidableEq

def PointerError.reason : PointerError → String
  | .missingKey segment => s!"key '{segment}' not found"
  | .badIndex segment => s!"invalid array index '{segment}'"
  | .notContainer kind => s!"cannot navigate into {kind}"

-- A negative index counts from the end.
def itemAt? (items : List Value) (index : Int) : Option Value :=
  if 0 ≤ index then items[index.toNat]?
  else if -index ≤ items.length then items[(items.length + index).toNat]?
  else none

def step (s : Store) (v : Value) (segment : String) : Except PointerError Value :=
  match v with
  | .node id =>
      match s.get? id with
      | some (.mapping m) =>
          match m.get? (.str segment) with
          | some child => .ok child
          | none => .error (.missingKey segment)
      | some (.sequence items) =>
          match (Text.integer? 10 segment.toList).bind (itemAt? items) with
          | some child => .ok child
          | none => .error (.badIndex segment)
      | _ => .error (.notContainer (s.kindName v))
  | _ => .error (.notContainer (s.kindName v))

def follow (s : Store) (v : Value) (path : List String) : Except PointerError Value :=
  path.foldlM (step s) v

-- The value that a pointer names.
def resolve (s : Store) (root : Value) (pointer : String) : Except PointerError Value :=
  follow s root (segments pointer)

end ApiGraph.Reference
