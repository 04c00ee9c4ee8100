import ApiGraph.Resolve.Walk

namespace ApiGraph.Resolve

structure Request where
  document : NodeId
  source : Option Source
  settings : ResolverSettings
  -- Places to look first.
  searchPaths : List String
  -- Places to look last.
  environmentPaths : List String
  -- An archive that is open already.
  archive : Option Archive
  tree : FileTree

def Request.roots (q : Request) : List String :=
  (q.searchPaths ++ q.settings.searchPaths ++ q.environmentPaths).eraseDups

-- The archive that confines all lookups: the open one, or else the one of the location.
def Request.archive? (q : Request) : Except ResolutionError (Option Archive) :=
  match q.archive, q.source with
  | some a, _ => .ok (some a)
  | none, some (.location ⟨_, some path⟩) =>
      match Archive.openAt q.tree path q.settings.maxFileSize with
      | .ok a => .ok (some a)
      | .error e => .error (.opening e)
  | none, _ => .ok none

-- Where the root document lives, if that is known.
def rootLocation? (archive : Option Archive) (source : Option Source) : Option Location :=
  source.map fun src =>
    match archive with
    | some a => ⟨(EntryName.normalize? src.pathText).getD src.pathText, some a.path⟩
    | none => ⟨src.pathText, none⟩

def isImpossible (l : Location) : Bool :=
  match l.archive with
  | some a => FileTree.isImpossible a
  | none => FileTree.isImpossible (.ofText l.path)

def rootScope (t : FileTree) (document : NodeId) (l : Option Location) : Scope :=
  ⟨document, l.map (locationKey t), l.map (locationBase t), true⟩

def startRun (s : Store) (document : NodeId) (scope : Scope) : Run where
  store := (s.ensureComponents document "schemas").2
  loaded := match scope.key with
    | some key => OrderedMap.empty.insert key document
    | none => .empty
  visited := []
  rootRefs := []
  walked := 0
  nodeLimitHit := false
  limits := []
  events := []

-- A document nested too deep is left as it is from there on.
def walkRoot (c : Context) (scope : Scope) : ResolveM Unit :=
  tryCatch (walk c nestingAllowance scope [] (.node c.document)) fun
    | .fault .stackExhausted =>
        limit ⟨.stack, "resolver", "document nesting exhausted the stack"⟩
    | e => throw e

def run (c : Context) (scope : Scope) : ResolveM Unit := do
  walkRoot c scope
  adoptAllDangling c
  let r ← get
  let files := r.loaded.size - (if scope.key.isSome then 1 else 0)
  report (.resolved files r.walked)

-- How a run ended, with the document as it was left.
structure Outcome where
  result : Except (Failure ResolutionError) Unit
  store : Store
  limits : List SoftLimit
  events : List Event

-- An empty document has nothing to resolve.
def references (s : Store) (q : Request) : Outcome :=
  if (s.entries q.document).isEmpty then ⟨.ok (), s, [], []⟩
  else match q.archive? with
    | .error e => ⟨.error (.announced e), s, [], []⟩
    | .ok archive =>
        let g := q.settings
        let locator := Locator.make q.tree archive q.roots g.maxFileSize g.searchWalkDepth
        let l := rootLocation? archive q.source
        if l.any isImpossible then ⟨.error (.fault .impossiblePath), s, [], []⟩
        else
          let scope := rootScope q.tree q.document l
          let (result, r) := (run ⟨q.document, locator, g⟩ scope).run (startRun s q.document scope)
          ⟨result, r.store, r.limits, r.events⟩

end ApiGraph.Resolve
