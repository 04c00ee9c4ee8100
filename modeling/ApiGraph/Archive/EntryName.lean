import ApiGraph.Files.Path
import ApiGraph.Text.Blank

namespace ApiGraph.EntryName

open ApiGraph.Text

-- Without white space around it and without the slashes that would start at a root.
def clean (name : String) : List Char :=
  (trim (replaceChar '\\' '/' name.toList)).dropWhile (· == '/')

-- A name that would climb above the root of the archive is none, and so is one of which nothing is
-- left.
def normalize? (name : String) : Option String :=
  let cs := clean name
  if cs.isEmpty then none
  else
    let parts := FilePath.collapse false (FilePath.names cs)
    if parts.head? = some ".." then none else some (FilePath.text ⟨0, parts⟩)

end ApiGraph.EntryName
