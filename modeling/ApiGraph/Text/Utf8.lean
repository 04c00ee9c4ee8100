namespace ApiGraph.Text

def ofBytes? (bytes : ByteArray) : Option String := String.fromUTF8? bytes

-- Reading a file turns every line ending into a line feed.
def universalBreaks : List Char → List Char
  | [] => []
  | '\r' :: '\n' :: rest => '\n' :: universalBreaks rest
  | '\r' :: rest => '\n' :: universalBreaks rest
  | c :: rest => c :: universalBreaks rest

end ApiGraph.Text
