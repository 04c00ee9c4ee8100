namespace ApiGraph.Identifier

def isSeparator (c : Char) : Bool := c == '-' || c == '_' || c == ' ' || c == '.'

-- Keeps letters and digits; the one after a separator is capitalised.
def letters : (capital : Bool) → List Char → List Char
  | _, [] => []
  | capital, c :: rest =>
      if c.isAlphanum then (if capital then c.toUpper else c) :: letters false rest
      else letters (capital || isSeparator c) rest

def ofChars (cs : List Char) : List Char :=
  match letters true cs with
  | [] => "Schema".toList
  | c :: rest => if c.isAlpha then c :: rest else "Schema".toList ++ c :: rest

def ofText (name : String) : String :=
  if name = "" then "Unknown" else String.ofList (ofChars name.toList)

-- Characters outside ASCII whose capital has ASCII letters in it. Identifiers keep nothing of any
-- other capital outside ASCII.
def capitals : List (Char × String) :=
  [('\u00df', "SS"), ('\u0131', "I"), ('\u0149', "N"), ('\u017f', "S"), ('\u01f0', "J"),
   ('\u1e96', "H"), ('\u1e97', "T"), ('\u1e98', "W"), ('\u1e99', "Y"), ('\u1e9a', "A"),
   ('\ufb00', "FF"), ('\ufb01', "FI"), ('\ufb02', "FL"), ('\ufb03', "FFI"), ('\ufb04', "FFL"),
   ('\ufb05', "ST"), ('\ufb06', "ST")]

-- The text with its first character capitalised, as far as an identifier can show it.
def capitalizeFirst (s : String) : String :=
  match s.toList with
  | [] => ""
  | c :: rest =>
      match capitals.lookup c with
      | some cap => cap ++ String.ofList rest
      | none => String.ofList (c.toUpper :: rest)

end ApiGraph.Identifier
