namespace ApiGraph.Json

inductive Complaint where
  | value
  | name
  | colon
  | comma
  | openString
  | controlCharacter
  | escape
  | unicodeEscape
  | trailingText
  | byteOrderMark
deriving DecidableEq

-- The position counts code points from the start of the text.
structure Error where
  complaint : Complaint
  position : Nat
deriving DecidableEq

def Complaint.text : Complaint → String
  | .value => "Expecting value"
  | .name => "Expecting property name enclosed in double quotes"
  | .colon => "Expecting ':' delimiter"
  | .comma => "Expecting ',' delimiter"
  | .openString => "Unterminated string starting at"
  | .controlCharacter => "Invalid control character at"
  | .escape => "Invalid \\escape"
  | .unicodeEscape => "Invalid \\uXXXX escape"
  | .trailingText => "Extra data"
  | .byteOrderMark => "Unexpected UTF-8 BOM (decode using utf-8-sig)"

-- Lines end at line feeds only; lines and columns count from one.
def Error.line (e : Error) (source : List Char) : Nat :=
  (source.take e.position).count '\n' + 1

def Error.column (e : Error) (source : List Char) : Nat :=
  ((source.take e.position).reverse.takeWhile (· != '\n')).length + 1

def Error.message (e : Error) (source : List Char) : String :=
  s!"{e.complaint.text}: line {e.line source} column {e.column source} (char {e.position})"

end ApiGraph.Json
