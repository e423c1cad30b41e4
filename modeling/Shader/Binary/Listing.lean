import Shader.Binary.Assembly

/-!
Target modules as text: comments about the module, then an instruction a line.
-/
namespace Shader.Binary

/-- The instructions of a binary, each as its words. The first argument is more than their number. -/
def cut : Nat → List Word → List (List Word)
  | 0, _ | _, [] => []
  | bound + 1, first :: rest =>
    let length := (first >>> 16).toNat - 1
    (first :: rest.take length) :: cut bound (rest.drop length)

/-- An instruction by its spelling, and the words after the first. -/
def listed : List Word → String
  | [] => ""
  | first :: rest =>
    let code := first &&& 0xFFFF
    let spelling := ((Opcode.ofCode? code).map Opcode.text).getD (toString code)
    " ".intercalate (("Op" ++ spelling) :: rest.map toString)

/-- The text for a binary that starts as it has to. -/
def disassemble : List Word → Except String String
  | 0x07230203 :: _ :: _ :: bound :: _ :: words =>
    .ok ("\n".intercalate (["; SPIR-V", "; Version: 1.3", "; Generator: rspirv", s!"; Bound: {bound}"] ++
      (cut (words.length + 1) words).map listed))
  | _ => .error "HeaderIncorrect"

end Shader.Binary
