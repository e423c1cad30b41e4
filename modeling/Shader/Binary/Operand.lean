import Shader.Binary.Opcode
import Shader.Spelling
import Shader.Text.Quoted

/-!
Operands of target instructions and the words they take.

Text is its bytes packed four to a word, lowest byte first, followed by zero bytes up to the end of a
word. At least one zero byte follows, so the end of a text can always be found.
-/
namespace Shader.Binary

/-- A 32-bit word of the target's binary form. -/
abbrev Word := UInt32

/-- An operand of a target instruction. -/
inductive Operand where
  | literal (word : Word)
  | id (word : Word)
  | scope (word : Word)
  | semantics (word : Word)
  | extInst (word : Word)
  | literal64 (value : UInt64)
  | text (value : String)
  /-- A member of one of the target's enumerations, with its spelling. -/
  | enumerant (spelling : String) (word : Word)
  deriving DecidableEq

/-- The word whose bytes, lowest first, are the four given ones. -/
def wordOfBytes (a b c d : UInt8) : Word :=
  a.toUInt32 ||| (b.toUInt32 <<< 8) ||| (c.toUInt32 <<< 16) ||| (d.toUInt32 <<< 24)

/-- The bytes of a word, lowest first. -/
def bytesOfWord (word : Word) : List UInt8 :=
  [word.toUInt8, (word >>> 8).toUInt8, (word >>> 16).toUInt8, (word >>> 24).toUInt8]

/-- Bytes packed into words, with one to four zero bytes after them. -/
def packBytes : List UInt8 → List Word
  | a :: b :: c :: d :: rest => wordOfBytes a b c d :: packBytes rest
  | [a, b, c] => [wordOfBytes a b c 0]
  | [a, b] => [wordOfBytes a b 0 0]
  | [a] => [wordOfBytes a 0 0 0]
  | [] => [0]

namespace Operand

/-- The words an operand takes in the binary. -/
def words : Operand → List Word
  | .literal word | .id word | .scope word | .semantics word | .extInst word | .enumerant _ word => [word]
  | .literal64 value => [value.toUInt32, (value >>> 32).toUInt32]
  | .text value => packBytes value.toUTF8.toList

/-- How many words an operand takes. -/
def wordCount : Operand → Nat
  | .text value => value.utf8ByteSize / 4 + 1
  | .literal64 _ => 2
  | _ => 1

/-- The word of an operand that may stand for an id. -/
def idWord? : Operand → Option Word
  | .literal word | .id word => some word
  | _ => none

/-- The operand as the grammar sees it in a position of a given class. Only plain words and ids take on
a class; every operand keeps its words. -/
def classified (kind : OperandClass) (operand : Operand) : Operand :=
  match operand.idWord?, kind with
  | some word, .id => .id word
  | some word, .scope => .scope word
  | some word, .semantics => .semantics word
  | some word, .extInst => .extInst word
  | _, _ => operand

def describe : Operand → String
  | .literal word => Text.tuple "LiteralBit32" [toString word]
  | .id word => Text.tuple "IdRef" [toString word]
  | .scope word => Text.tuple "IdScope" [toString word]
  | .semantics word => Text.tuple "IdMemorySemantics" [toString word]
  | .extInst word => Text.tuple "LiteralExtInstInteger" [toString word]
  | .literal64 value => Text.tuple "LiteralBit64" [toString value]
  | .text value => Text.tuple "LiteralString" [Text.quoted value]
  | .enumerant spelling _ => spelling

end Operand
end Shader.Binary
