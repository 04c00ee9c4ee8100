import ApiGraph.Config.Field
import ApiGraph.Files.Tree
import ApiGraph.Json.Reader
import ApiGraph.Text.Utf8

namespace ApiGraph.Config

inductive ConfigError where
  | invalidJson (path detail : String)
  | notObject (path : String)
  | invalidFields (complaints : List Complaint)
deriving DecidableEq

def ConfigError.message : ConfigError → String
  | .invalidJson path detail => s!"Invalid project config at {path}: {detail}"
  | .notObject path => s!"Invalid project config at {path}: expected a JSON object"
  | .invalidFields _ => "Invalid project config: <ValidationError>"

def fileName : String := "specgraph.json"

def filePath (t : FileTree) (directory : Option FilePath) : FilePath :=
  (directory.getD t.cwd).join (.ofText fileName)

def parseFile (path : FilePath) (text : List Char) (s : Store) :
    Except (Failure ConfigError) (NodeId × Store) := do
  let (v, s) ← (Json.read nestingAllowance text s).mapError fun
    | .announced e => .announced (.invalidJson path.text (e.message text))
    | .fault f => .fault f
  match s.asMapping? v with
  | some (id, _) => return (id, s)
  | none => throw (.announced (.notObject path.text))

-- The project file as a document, if there is one.
def loadProject (t : FileTree) (directory : Option FilePath) (s : Store) :
    Except (Failure ConfigError) (Option NodeId × Store) := do
  let path := filePath t directory
  match t.file? path with
  | none => return (none, s)
  | some content =>
      match content.text? with
      | none => throw (.fault .undecodableBytes)
      | some text =>
          let (id, s) ← parseFile path (Text.universalBreaks text.toList) s
          return (some id, s)

-- The search paths that the environment lists; blank ones do not count.
def environmentPaths (raw : String) : List String :=
  ((Text.splitOn ':' raw.toList).map Text.trim).filterMap fun cs =>
    if cs.isEmpty then none else some (String.ofList cs)

def mergePaths (explicit environment project : List String) : List String :=
  (explicit ++ environment ++ project).eraseDups

-- The settings in force.
def resolve (t : FileTree) (directory : Option FilePath) (explicit environment : List String)
    (s : Store) : Except (Failure ConfigError) Settings := do
  let (project, s) ← loadProject t directory s
  let checked := readSettings s ((project.map s.entries).getD .empty)
  if !checked.complaints.isEmpty then throw (.announced (.invalidFields checked.complaints))
  let g := checked.value
  let paths := mergePaths explicit environment g.resolver.searchPaths
  return { g with resolver := { g.resolver with searchPaths := paths } }

end ApiGraph.Config
