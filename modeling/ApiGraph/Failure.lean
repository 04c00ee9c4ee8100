namespace ApiGraph

-- What no operation announces. It ends the operation that meets it.
inductive Fault where
  -- Nesting went deeper than the allowance.
  | stackExhausted
  -- A literal that is too long, or names no number, date or character.
  | unreadableLiteral
  -- A number literal of which nothing but its sign is there.
  | emptyLiteral
  -- A character code beyond every machine word.
  | characterOverflow
  -- Too many sexagesimal places for a floating-point number.
  | numberOverflow
  -- A tagged truth value that is no word for true or false.
  | unknownTruthWord
  -- A tagged time that has no time form.
  | malformedTime
  -- A mapping stands where a time is wanted.
  | mappingAsTime
  -- A key that is not text stands where a name is made from text.
  | keyNotText
  -- A key without characters of its own stands where a name is made from text.
  | keyWithoutLetters
  -- Bytes that are not the text they should be.
  | undecodableBytes
  -- A file path holds a character that no path can hold.
  | impossiblePath
deriving DecidableEq, Repr

-- Either the announced failure of an operation, or a fault on the way.
inductive Failure (ε : Type) where
  | announced (error : ε)
  | fault (fault : Fault)
deriving DecidableEq

namespace Failure

def map {ε ε' : Type} (f : ε → ε') : Failure ε → Failure ε'
  | .announced e => .announced (f e)
  | .fault x => .fault x

end Failure

-- How many containers may stand inside each other while a document is read or walked.
def nestingAllowance : Nat := 900

end ApiGraph
