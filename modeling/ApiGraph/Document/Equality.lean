import ApiGraph.Document.Store
import ApiGraph.Failure

namespace ApiGraph.Store

-- Whether the condition holds of all, stopping at the first that fails it.
def allM {α : Type} (p : α → Except Fault Bool) : List α → Except Fault Bool
  | [] => .ok true
  | a :: rest => do
      if ← p a then allM p rest else return false

-- A container equals itself at once. Others are compared part by part, which never ends on a cycle
-- and is then a fault.
def equal (s : Store) : (allowance : Nat) → Value → Value → Except Fault Bool
  | 0, _, _ => .error .stackExhausted
  | allowance + 1, a, b =>
      match a, b with
      | .scalar x, .scalar y => .ok (x.identity == y.identity)
      | .pair a1 a2, .pair b1 b2 => allM (fun e => equal s allowance e.1 e.2) [(a1, b1), (a2, b2)]
      | .node i, .node j =>
          if i = j then .ok true
          else match s.get? i, s.get? j with
            | some (.mapping m), some (.mapping n) =>
                if m.size ≠ n.size then .ok false
                else allM (fun e => match n.get? e.1 with
                  | some w => equal s allowance e.2 w
                  | none => .ok false) m.entries
            | some (.sequence l), some (.sequence k) =>
                if l.length ≠ k.length then .ok false
                else allM (fun e => equal s allowance e.1 e.2) (l.zip k)
            | some (.set l), some (.set k) =>
                .ok (l.length == k.length && l.all fun x => k.any fun y => x.identity == y.identity)
            | _, _ => .ok false
      | _, _ => .ok false

-- Whether the value occurs in the list.
def member (s : Store) (v : Value) (l : List Value) : Except Fault Bool := do
  return !(← allM (fun w => return !(← s.equal nestingAllowance w v)) l)

end ApiGraph.Store
