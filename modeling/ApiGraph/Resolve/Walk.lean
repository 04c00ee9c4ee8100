import ApiGraph.Resolve.Component

namespace ApiGraph.Resolve

open ApiGraph.Reference

abbrev Walker := Scope → Chain → Value → ResolveM Unit

-- A file by its path from the root; an entry also by its archive.
def locationKey (t : FileTree) (l : Location) : String :=
  match l.archive with
  | some a => s!"{(t.absolute a).text}!{l.path}"
  | none => (t.absolute (.ofText l.path)).text

-- The directory of a file, or of an entry.
def locationBase (t : FileTree) (l : Location) : String :=
  match l.archive with
  | some _ => String.ofList (directory l.path.toList)
  | none => (t.absolute (.ofText l.path)).parent.text

def scopeOf (c : Context) (document : NodeId) (key : String) (l : Location) : Scope :=
  ⟨document, some key, some (locationBase c.locator.tree l), false⟩

-- What the mark leaves in a mapping.
def markedContent (m : Entries) (name : Option String) : Entries :=
  let m := m.insert (.str circularRefKey) (.scalar (.bool true))
  match name with
  | some n => m.insertNew (.str resolvedRefKey) (.str (schemaPointer ++ n))
  | none => m

def markCircular (node : NodeId) (ref : String) (name : Option String) : ResolveM Unit := do
  let s ← getStore
  setStore (s.set node (.mapping (markedContent (s.entries node) name)))
  report (.circular node ref)

def parseFile (c : Context) (l : Location) (s : Store) :
    Except (Failure ParseError) (NodeId × Store) :=
  match c.locator.archive with
  | some a => Location.loadEntry a l.path s
  | none => Location.load c.locator.tree c.settings.maxFileSize l s

-- The document of a file, which is loaded and walked on its first use.
def load (c : Context) (walk : Walker) (chain : Chain) (l : Location) (key : String) :
    ResolveM NodeId := do
  match (← get).loaded.get? key with
  | some d => return d
  | none =>
      match parseFile c l (← getStore) with
      | .error (.announced e) => fail (.loading l.path e)
      | .error (.fault f) => throw (.fault f)
      | .ok (d, s) =>
          modify fun r => { r with store := s, loaded := r.loaded.insert key d }
          report (.loaded l.path)
          walk (scopeOf c d key l) chain (.node d)
          return d

-- What a reference names in a file, or else in another loaded file.
def targetOf (c : Context) (external : NodeId) (path : List String) (ref : String) :
    ResolveM Value := do
  if path.isEmpty then return .node external
  let r ← get
  match Reference.resolve r.store (.node external) (joinSegments path) with
  | .ok v => return v
  | .error e =>
      match findLoaded? c r (some external) path with
      | some id => return .node id
      | none => fail (.pointer ref e)

-- What takes the place of a reference: the target, and what stood beside the reference.
def inlinedContent (content own : Entries) (name : Option String) : Entries :=
  let m := content.erase (.str refKey)
  let m := match name with
    | some n => m.insert (.str resolvedRefKey) (.str (schemaPointer ++ n))
    | none => m
  m.insertAll own

-- Gives the mapping the content of the target and returns what it had besides the reference.
def replaceContent (node target : NodeId) (name : Option String) : ResolveM Entries := do
  let s ← getStore
  let own := (s.entries node).erase (.str refKey)
  let s := s.set node (.mapping .empty)
  setStore (s.set node (.mapping (inlinedContent (s.entries target) own name)))
  return own

-- Puts the content of the target in place of the reference.
def takeContent (c : Context) (node target : NodeId) (ref : String) (name : Option String) :
    ResolveM (Option Entries) := do
  let own ← replaceContent node target name
  report (.inlined node target ref)
  visit node
  if let some n := name then registerSchema c n target ref
  return some own

-- What the target has once the mapping of its reference is cleared: a mapping that is its own target
-- has nothing left.
def clearedContent (s : Store) (node target : NodeId) : Entries :=
  (s.set node (.mapping .empty)).entries target

-- Takes the content of a target that was walked. What stays a reference then closes a cycle.
def takeWalked (c : Context) (node target : NodeId) (ref : String) (name : Option String) :
    ResolveM (Option Entries) := do
  let s ← getStore
  if (s.entries target).ref?.any isExternal then
    markCircular node ref name
    return none
  let isSchema := (clearedContent s node target).looksLikeSchema
  takeContent c node target ref (if isSchema then name else none)

-- Walks the target in its file first.
def inlineMapping (c : Context) (walk : NodeId → ResolveM Unit) (node target : NodeId)
    (ref : String) (name : Option String) : ResolveM (Option Entries) := do
  if ((← getStore).mapping? target).isNone then fail (.notMapping ref)
  walk target
  takeWalked c node target ref name

-- Resolves an external reference, innermost in its chain. The answer is what the mapping had
-- besides the reference, unless it stays a reference.
def inlineTarget (c : Context) (walk : Walker) (chain : Chain) (node : NodeId) (ref key : String)
    (l : Location) (path : List String) (name : Option String) : ResolveM (Option Entries) := do
  let external ← load c walk chain l key
  match ← targetOf c external path ref with
  | .node target =>
      inlineMapping c (fun id => walk (scopeOf c external key l) chain (.node id)) node target ref name
  | _ => fail (.notMapping ref)

-- A chain of references that is too long for the stack is broken off here.
def recover (ref : String) (body : ResolveM (Option Entries)) : ResolveM (Option Entries) :=
  tryCatch body fun
    | .fault .stackExhausted => do
        limit ⟨.stack, s!"resolver:{ref}", "reference chain exhausted the stack"⟩
        return none
    | e => throw e

def locate (c : Context) (scope : Scope) (node : NodeId) (ref : String) : ResolveM Location := do
  report (.lookedUp node ref scope.base)
  match c.locator.locate (filePart ref) scope.base with
  | .ok l => return l
  | .error e => fail e

def inlineExternal (c : Context) (walk : Walker) (scope : Scope) (chain : Chain) (node : NodeId)
    (ref : String) : ResolveM Unit := do
  let bound := c.settings.maxRefDepth
  if bound ≤ chain.length then
    limit ⟨.depth, s!"resolver:{ref}", s!"external references nested deeper than {bound}"⟩
    return
  let l ← locate c scope node ref
  let key := locationKey c.locator.tree l
  let path := segments (pointerPart ref)
  let target := s!"{key}#{joinSegments path}"
  let name := path.getLast? <|> (if path.isEmpty then fileStem? ref else none)
  if chain.hasTarget target then
    markCircular node ref name
    return
  let inner := inlineTarget c walk (⟨target, node⟩ :: chain) node ref key l path name
  match ← recover ref inner with
  | some own => own.values.forM (walk scope chain)
  | none => return

-- Counts a container; the first one too many is reported.
def countNode (c : Context) (scope : Scope) : ResolveM Bool := do
  modify fun r => { r with walked := r.walked + 1 }
  let r ← get
  let bound := c.settings.maxNodes
  if (r.walked : Int) ≤ bound then return true
  if !r.nodeLimitHit then
    set { r with nodeLimitHit := true }
    let site := (scope.key.filter (· != "")).getD "<root>"
    limit ⟨.nodeCount, s!"resolver:{site}", s!"more than {bound} nodes walked"⟩
  return false

-- An internal reference stays; what it names is to be found from the root document.
def noteInternal (c : Context) (scope : Scope) (ref : String) : ResolveM Unit := do
  if scope.isRoot then
    modify fun r => { r with rootRefs := r.rootRefs ++ [ref] }
  else adoptInternal c scope ref

-- The reference of a mapping that is still to be resolved.
def pendingRef? (s : Store) (m : Entries) : Option String :=
  m.ref?.filter fun _ => !((m.field? circularRefKey).any s.isTruthy)

def walkMapping (c : Context) (walk : Walker) (scope : Scope) (chain : Chain) (id : NodeId)
    (m : Entries) : ResolveM Unit := do
  let ref := pendingRef? (← getStore) m
  if let some external := ref.filter isExternal then
    inlineExternal c walk scope chain id external
  else
    if let some internal := ref.filter isInternal then noteInternal c scope internal
    visit id
    ((← getStore).entries id).values.forM (walk scope chain)

def walk (c : Context) : (allowance : Nat) → Walker
  | 0, _, _, _ => throw (.fault .stackExhausted)
  | allowance + 1, scope, chain, v => do
      let .node id := v | return
      let r ← get
      let some container := r.store.get? id | return
      if r.visited.contains id || chain.hasNode id then return
      match container with
      | .set _ => return
      | .sequence items =>
          if ← countNode c scope then
            visit id
            items.forM (walk c allowance scope chain)
      | .mapping m =>
          if ← countNode c scope then walkMapping c (walk c allowance) scope chain id m

end ApiGraph.Resolve
