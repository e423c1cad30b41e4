/-!
Paths of files.

The parts of a path are separated by slashes. The last dot in the last part starts its extension, unless
it is the first character of the part. Without its extension a part like `..x` names the directory above, and
a directory takes no extension.
-/
namespace Shader

/-- A path as it was written. -/
structure Path where
  text : String
  deriving DecidableEq

namespace Path

/-- The parts of the text read so far, backwards in `part`, and of the text that follows. -/
def split (part : List Char) : List Char → List String
  | [] => [String.ofList part.reverse]
  | c :: rest =>
    if c = '/' then String.ofList part.reverse :: split [] rest else split (c :: part) rest

/-- The parts of a path. Slashes at the start, at the end or in a row have empty parts beside them. -/
def parts (path : Path) : List String := split [] path.text.toList

/-- Whether a path starts at the root. -/
def isAbsolute (path : Path) : Bool := path.text.toList.head? = some '/'

/-- A part without its extension. -/
def stem (part : List Char) : List Char :=
  match part.reverse.dropWhile (· ≠ '.') with
  | [] => part
  | [_] => part
  | _ :: before => before.reverse

/-- The path with the extension of its last part replaced, or with one added. A last part that names a
directory takes no extension. -/
def withExtension (path : Path) (extension : String) : Path :=
  let backwards := path.text.toList.reverse
  let last := (backwards.takeWhile (· ≠ '/')).reverse
  let before := (backwards.dropWhile (· ≠ '/')).reverse
  if last = [] ∨ last = ['.'] ∨ last = ['.', '.'] then path
  else if stem last = ['.'] then ⟨String.ofList (before ++ ['.', '.'])⟩
  else ⟨String.ofList (before ++ stem last ++ '.' :: extension.toList)⟩

end Path
end Shader
