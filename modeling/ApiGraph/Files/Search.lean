import ApiGraph.Files.Tree

namespace ApiGraph

namespace FilePath

-- The path to what has the name in the directory.
def child (p : FilePath) (name : String) : FilePath := ⟨p.slashes, p.parts ++ [name]⟩

end FilePath

-- What was found in the folder with the first name, of the folders in which something was found.
def firstFound (found : List (String × Option FilePath)) : Option FilePath :=
  (found.mergeSort fun x y => !decide (y.1 < x.1)).findSome? Prod.snd

mutual

-- `here` is the path to the directory, and the path to the start of the search has `top` parts. What
-- is no folder counts, also where it is no regular file.
def Directory.find? (name : String) (depth : Int) (top : Nat) (here : FilePath) :
    Directory → Option FilePath
  | .mk files folders =>
      if (files.lookup name).isSome then some (here.child name)
      else if depth ≤ here.parts.length - top then none
      else firstFound (folders.find name depth top here)

-- What is found in each folder.
def Folders.find (name : String) (depth : Int) (top : Nat) (here : FilePath) :
    Folders → List (String × Option FilePath)
  | .nil => []
  | .cons n d rest =>
      (n, d.find? name depth top (here.child n)) :: rest.find name depth top here

end

-- The path of the file below the root, which starts as the root is written.
def FileTree.search? (t : FileTree) (root : FilePath) (name : String) (depth : Int) :
    Option FilePath := do
  (← t.folder? root).find? name depth root.parts.length root

end ApiGraph
