import ApiGraph.Document.Access
import ApiGraph.Json.Reader
import ApiGraph.Reference.Target
import ApiGraph.Yaml.Document

namespace ApiGraph

inductive Format where
  | json
  | yaml
deriving DecidableEq

-- Why a text or a file is no description.
inductive ParseError where
  | emptyPath
  | missingFile (path : String)
  | notRegular (path : String)
  | tooLarge (path : String) (size : Nat) (limit : Int)
  | undecodable (path : String)
  | invalidJson (label : String) (detail : String)
  | invalidYaml (label : String)
  | notMapping (label : String) (kind : String)
  | missingArchive (path : String)
  | brokenArchive (path : String)
  | missingEntry (archive name : String)
  | entryTooLarge (name : String) (size : Nat) (limit : Int)
  | undecodableEntry (archive name : String)
  | brokenEntry (archive name : String)
deriving DecidableEq

namespace ParseError

-- Reports of the formats that are read elsewhere are named and not quoted.
def message : ParseError → String
  | .emptyPath => "File path cannot be empty"
  | .missingFile path => s!"Spec file not found: {path}"
  | .notRegular path => s!"Path is not a regular file: {path}"
  | .tooLarge path size limit => s!"File too large: {path} ({size} bytes, max: {limit} bytes)"
  | .undecodable path => s!"Failed to read spec file {path}: <UnicodeDecodeError>"
  | .invalidJson label detail => s!"Invalid JSON in {label}: {detail}"
  | .invalidYaml label => s!"Invalid YAML in {label}: <YAMLError>"
  | .notMapping label kind => s!"Spec must be a JSON/YAML object (got {kind}) in {label}"
  | .missingArchive path => s!"Spec archive not found: {path}"
  | .brokenArchive path => s!"Failed to open spec archive {path}: <BadZipFile>"
  | .missingEntry archive name => s!"Entry not found in archive {archive}: {name}"
  | .entryTooLarge name size limit =>
      s!"Archive entry too large: {name} ({size} bytes, max: {limit} bytes)"
  | .undecodableEntry archive name =>
      s!"Failed to read {name} from archive {archive}: <UnicodeDecodeError>"
  | .brokenEntry archive name => s!"Failed to read {name} from archive {archive}: <BadZipFile>"

end ParseError

namespace Description

open ApiGraph.Text

-- The ending of the name decides if it is known, and otherwise an opening brace does.
def formatOf (content : List Char) (name : String) : Format :=
  let ends := Reference.hasEnding name.toList
  if ends ".yaml" || ends ".yml" then .yaml
  else if ends ".json" then .json
  else if startsWith (trimLeft content) ['{'] then .json
  else .yaml

def labelOf (name : String) : String := if name = "" then "<string>" else name

-- The value of a text in its format.
def readValue (content : List Char) (name : String) (store : Store) :
    Except (Failure ParseError) (Value × Store) :=
  match formatOf content name with
  | .json => (Json.read nestingAllowance content store).mapError fun
    | .announced e => .announced (.invalidJson (labelOf name) (e.message content))
    | .fault f => .fault f
  | .yaml => (Yaml.read nestingAllowance content store).mapError fun
    | .announced _ => .announced (.invalidYaml (labelOf name))
    | .fault f => .fault f

-- The root mapping of a text. Neither a blank text nor a null one says anything.
def parse (content : String) (name : String) (store : Store) :
    Except (Failure ParseError) (NodeId × Store) := do
  let cs := content.toList
  if cs.all isBlank then return store.alloc (.mapping .empty)
  let (v, store) ← readValue cs name store
  match v, store.asMapping? v with
  | _, some (id, _) => return (id, store)
  | .scalar .null, none => return store.alloc (.mapping .empty)
  | _, none => throw (.announced (.notMapping (labelOf name) (store.kindName v)))

-- What a description describes, judged from its top-level keys.
inductive Kind where
  | api
  | sla
  | unknown
deriving DecidableEq

def apiKeys : List String := ["openapi", "swagger"]

def slaKeys : List String := ["sla", "nfr", "non-functional-requirements"]

def isApi (m : Entries) : Bool := apiKeys.any m.has

def isSla (m : Entries) : Bool := slaKeys.any m.has

def kindOf (m : Entries) : Kind :=
  if isApi m then .api else if isSla m then .sla else .unknown

def Kind.text : Kind → String
  | .api => "api"
  | .sla => "sla"
  | .unknown => "unknown"

-- Text and numbers can be versions.
def versionText? : Value → Option String
  | .scalar (.str s) => some s
  | .scalar (.int n) => some (toString n)
  | .scalar (.float x) => some x.text
  | _ => none

-- The version of the description format, under the first of its keys that is there.
def formatVersion? (m : Entries) : Option String :=
  (apiKeys.findSome? m.field?).bind versionText?

def info? (s : Store) (m : Entries) : Option Entries :=
  ((m.field? "info").bind s.asMapping?).map Prod.snd

def title? (s : Store) (m : Entries) : Option String := (info? s m).bind (·.text? "title")

def version? (s : Store) (m : Entries) : Option String :=
  (info? s m).bind fun info => (info.field? "version").bind versionText?

end Description

end ApiGraph
