import ApiGraph.Resolve.Run

namespace ApiGraph.Resolve

open ApiGraph.Reference

-- The mapping under the name among the components of the kind.
def componentIn? (s : Store) (document : NodeId) (kind name : String) : Option NodeId := do
  let (_, m) ← s.components? document kind
  let (id, _) ← s.asMapping? (← m.field? name)
  return id

-- Looks the component up in every other loaded file.
def findLoaded? (c : Context) (r : Run) (excluded : Option NodeId) (segments : List String) :
    Option NodeId := do
  let (kind, name) ← component? segments
  (r.loaded.values.filter fun d => d ≠ c.document ∧ some d ≠ excluded).findSome? fun d =>
    componentIn? r.store d kind name

-- Binds the component in the root document unless the name is taken, and tells whether it did.
def bindComponent (c : Context) (kind name : String) (target : NodeId) : ResolveM Bool := do
  let (place, s) := (← getStore).ensureComponents c.document kind
  setStore s
  if (s.entries place).has name then return false
  setStore (s.put place (.str name) (.node target))
  return true

def registerSchema (c : Context) (name : String) (target : NodeId) (ref : String) :
    ResolveM Unit := do
  if ← bindComponent c "schemas" name target then report (.registered name ref)

def adopt (c : Context) (kind name : String) (target : NodeId) : ResolveM Unit := do
  if ← bindComponent c kind name target then report (.adopted kind name)

def isBound (c : Context) (s : Store) (kind name : String) : Bool :=
  ((s.components? c.document kind).map fun e => e.2.has name).getD false

-- Makes an internal reference of another file resolvable from the root document.
def adoptInternal (c : Context) (scope : Scope) (ref : String) : ResolveM Unit := do
  let path := segments (pointerPart ref)
  match component? path with
  | none => return
  | some (kind, name) =>
      let r ← get
      if isBound c r.store kind name then return
      match componentIn? r.store scope.document kind name <|> findLoaded? c r none path with
      | some target => adopt c kind name target
      | none => report (.danglingIn ref (scope.key.getD ""))

-- Adopts what a reference of the root document names if nothing is there yet.
def adoptDangling (c : Context) (ref : String) : ResolveM Unit := do
  let pointer := pointerPart ref
  let r ← get
  match Reference.resolve r.store (.node c.document) pointer with
  | .ok _ => return
  | .error _ =>
      let path := segments pointer
      match component? path, findLoaded? c r none path with
      | some (kind, name), some target => adopt c kind name target
      | _, _ => report (.dangling ref)

def adoptAllDangling (c : Context) : ResolveM Unit := do
  (← get).rootRefs.eraseDups.forM (adoptDangling c)

end ApiGraph.Resolve
