import ApiGraph.Text.Split
import ApiGraph.Yaml.Timestamp

namespace ApiGraph.Yaml

inductive Tag where
  | null
  | bool
  | int
  | float
  | binary
  | timestamp
  | omap
  | pairs
  | set
  | str
  | seq
  | map
  -- The key under which another mapping is merged in.
  | merge
  -- The key that marks the scalar among the entries of a mapping.
  | value
  | unknown
deriving DecidableEq

namespace Tag

def names : List (String × Tag) :=
  [("null", .null), ("bool", .bool), ("int", .int), ("float", .float), ("binary", .binary),
   ("timestamp", .timestamp), ("omap", .omap), ("pairs", .pairs), ("set", .set), ("str", .str),
   ("seq", .seq), ("map", .map), ("merge", .merge), ("value", .value)]

def ofName (name : String) : Tag :=
  ((names.map fun e => ("tag:yaml.org,2002:" ++ e.1, e.2)).lookup name).getD .unknown

def isDigitOrMark (c : Char) : Bool := c.isDigit || c == '_'

def truthWords : List (String × Bool) :=
  [("yes", true), ("no", false), ("true", true), ("false", false), ("on", true), ("off", false)]

-- A word in lower case, in upper case or with a capital.
def casings (word : String) : List String :=
  [word, word.map Char.toUpper, word.capitalize]

def isTruthWord (text : String) : Bool := (truthWords.flatMap fun w => casings w.1).contains text

def isNullWord (text : String) : Bool := text == "~" || (casings "null").contains text

def unsigned (cs : List Char) : List Char :=
  match cs with
  | '+' :: rest => rest
  | '-' :: rest => rest
  | _ => cs

-- Digits with underscores anywhere after the first.
def isGrouped (first : Char → Bool) (cs : List Char) : Bool :=
  match cs with
  | c :: rest => first c && rest.all isDigitOrMark
  | [] => false

-- Up to two digits below sixty.
def isSixtieth (cs : List Char) : Bool :=
  match cs with
  | [c] => c.isDigit
  | [c, d] => '0' ≤ c && c ≤ '5' && d.isDigit
  | _ => false

def isSexagesimal (first : Char → Bool) (cs : List Char) : Bool :=
  match Text.splitOn ':' cs with
  | start :: rest => isGrouped first start && !rest.isEmpty && rest.all isSixtieth
  | [] => false

def isNonZeroDigit (c : Char) : Bool := c.isDigit && c != '0'

def isInt (cs : List Char) : Bool :=
  let body := unsigned cs
  match body with
  | '0' :: 'b' :: rest => !rest.isEmpty && rest.all fun c => c == '0' || c == '1' || c == '_'
  | '0' :: 'x' :: rest => !rest.isEmpty && rest.all fun c => (Text.hexDigit? c).isSome || c == '_'
  | '0' :: rest => rest.all fun c => ('0' ≤ c && c ≤ '7') || c == '_'
  | _ => isGrouped isNonZeroDigit body || isSexagesimal isNonZeroDigit body

-- The exponent of a float has a sign of its own.
def isExponent (cs : List Char) : Bool :=
  match cs with
  | [] => true
  | e :: sign :: rest =>
      (e == 'e' || e == 'E') && (sign == '-' || sign == '+') && !rest.isEmpty && rest.all Char.isDigit
  | _ => false

def isFloat (cs : List Char) : Bool :=
  let body := unsigned cs
  let whole := body.takeWhile (· != '.')
  match body.dropWhile (· != '.') with
  | [] => false
  | _ :: part =>
      let tail := part.dropWhile isDigitOrMark
      if whole.isEmpty then
        let word := String.ofList part
        (casings "inf").contains word ||
          (body == cs && ((word == "nan" || word == "NaN" || word == "NAN") ||
            (isGrouped Char.isDigit (part.takeWhile isDigitOrMark) && isExponent tail)))
      else
        (isGrouped Char.isDigit whole && isExponent tail) ||
          (isSexagesimal Char.isDigit whole && tail.isEmpty)

-- One line feed at the end does not count.
def dropFinalBreak (cs : List Char) : List Char :=
  if cs.getLast? = some '\n' then cs.dropLast else cs

-- Words that stand for YAML itself, of which no value can be made.
def indicatorWords : List String := ["!", "&", "*"]

def ofPlainText (text : String) : Tag :=
  let cs := dropFinalBreak text.toList
  let word := String.ofList cs
  if text == "" then .null
  else if isTruthWord word then .bool
  else if isFloat cs then .float
  else if isInt cs then .int
  else if word == "<<" then .merge
  else if isNullWord word then .null
  else if (Timestamp.ofText? cs).any Timestamp.isImplicit then .timestamp
  else if word == "=" then .value
  else if indicatorWords.contains word then .unknown
  else .str

end Tag

end ApiGraph.Yaml
