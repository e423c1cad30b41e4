import Shader.Files.Path

/-!
A tree of directories and files.

A path is followed part by part from the working directory; every part but the last has to lead to a
directory. Creating a file empties a file that is already there and needs the directory it is in. A place may have room
for so many bytes only; writing more leaves what there is room for.
-/
namespace Shader

/-- The names that lead from the root to a place in the tree. -/
abbrev Location := List String

/-- What stands at a place in the tree. -/
inductive Node where
  | directory
  | file (content : Array UInt8)
  deriving DecidableEq

/-- Directories and files by location. The root is always a directory. A location without a limit has room for any
number of bytes. -/
structure Tree where
  entries : List (Location × Node) := []
  workingDirectory : Location := []
  limits : List (Location × Nat) := []
  deriving DecidableEq

namespace Tree

/-- What stands at a location. -/
def node? (tree : Tree) (location : Location) : Option Node :=
  if location = [] then some .directory else tree.entries.lookup location

/-- Put a node at a location, in place of what stood there. -/
def put (tree : Tree) (location : Location) (node : Node) : Tree :=
  if tree.entries.any fun entry => entry.1 = location then
    { tree with entries := tree.entries.map fun entry =>
        if entry.1 = location then (location, node) else entry }
  else { tree with entries := tree.entries ++ [(location, node)] }

/-- Where the parts of a path lead from a location. -/
def follow (tree : Tree) (here : Location) : List String → Option Location
  | [] => some here
  | part :: parts =>
    if tree.node? here = some .directory then
      if part = "" ∨ part = "." then tree.follow here parts
      else if part = ".." then tree.follow here.dropLast parts
      else tree.follow (here ++ [part]) parts
    else none

/-- Where a path leads. There need not be a file. -/
def locate (tree : Tree) (path : Path) : Option Location :=
  tree.follow (if path.isAbsolute then [] else tree.workingDirectory) path.parts

/-- The text of a file, if there is one and it is text. -/
def read? (tree : Tree) (path : Path) : Option String := do
  let location ← tree.locate path
  match tree.node? location with
  | some (.file content) => String.fromUTF8? ⟨content⟩
  | _ => none

/-- Open a new, empty file, unless the path leads to a directory or nowhere. -/
def create? (tree : Tree) (path : Path) : Option (Location × Tree) := do
  let location ← tree.locate path
  match tree.node? location with
  | some .directory => none
  | _ => some (location, tree.put location (.file #[]))

/-- The bytes that there is room for at a location that holds so many already. -/
def fitting (tree : Tree) (location : Location) (held : Nat) (bytes : List UInt8) : List UInt8 :=
  match tree.limits.lookup location with
  | some limit => bytes.take (limit - held)
  | none => bytes

/-- Add bytes at the end of a file, and say whether there was room for them all. -/
def append (tree : Tree) (location : Location) (bytes : List UInt8) : Tree × Bool :=
  match tree.node? location with
  | some (.file content) =>
    let fitting := tree.fitting location content.size bytes
    (tree.put location (.file (content ++ fitting)), fitting == bytes)
  | _ => (tree, false)

/-- Make the directories that names lead through from a location, where there are none. -/
def makeDirectories (tree : Tree) (here : Location) : List String → Tree
  | [] => tree
  | name :: names =>
    let next := here ++ [name]
    let tree := if (tree.node? next).isSome then tree else tree.put next .directory
    tree.makeDirectories next names

/-- Put a file at a location, in a directory that is made if need be. -/
def putFile (tree : Tree) (location : Location) (content : Array UInt8) : Tree :=
  (tree.makeDirectories [] location.dropLast).put location (.file content)

end Tree
end Shader
