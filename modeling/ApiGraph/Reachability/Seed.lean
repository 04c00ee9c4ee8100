import ApiGraph.Document.Operations
import ApiGraph.Reachability.Name
import ApiGraph.Text.Split

namespace ApiGraph.Reachability

def responsePointer : String := "#/components/responses/"

-- The response component that a response refers to.
def responseName? (m : Entries) : Option String := do
  let ref ← m.ref?
  if Text.startsWith ref.toList responsePointer.toList then
    some (String.ofList (ref.toList.drop responsePointer.length))
  else none

-- Follows references among the response components; a cycle and a missing component lead nowhere.
-- Each step but the last uses up a component, so their number bounds the steps.
def followFrom (s : Store) (responses : Entries) : (bound : Nat) → List String → Value →
    Option Entries
  | 0, _, _ => none
  | bound + 1, seen, v => do
      let (_, m) ← s.asMapping? v
      match responseName? m with
      | none => some m
      | some name =>
          if seen.contains name then none
          else followFrom s responses bound (name :: seen) (← responses.field? name)

def followResponse (s : Store) (responses : Entries) (v : Value) : Option Entries :=
  followFrom s responses (responses.size + 2) [] v

structure Seed where
  label : String
  schema : Value

def seedsOf (s : Store) (responses : Entries) (label : String) (v : Value) : List Seed :=
  match followResponse s responses v with
  | some m => (s.mediaSchemas m).map (⟨label, ·⟩)
  | none => []

def responseComponents (s : Store) (document : NodeId) : Entries :=
  ((s.components? document "responses").map Prod.snd).getD .empty

def operationSeeds (s : Store) (responses : Entries) (o : Operation) : List Seed :=
  match (o.fields.field? "responses").bind s.asMapping? with
  | none => []
  | some (_, m) => m.entries.flatMap fun (status, v) =>
      seedsOf s responses s!"{o.method.label} {o.path.scalar.text} {status.scalar.text}" v

def seeds (s : Store) (document : NodeId) : List Seed :=
  let responses := responseComponents s document
  (responses.entries.flatMap fun (name, v) =>
      seedsOf s responses s!"components.responses.{name.scalar.text}" v) ++
    (s.operations document).flatMap (operationSeeds s responses)

end ApiGraph.Reachability
