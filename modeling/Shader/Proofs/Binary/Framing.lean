import Mathlib.Data.List.Nodup
import Shader.Binary.Assembly
import Shader.Proofs.Binary.Filling

/-!
Instructions can be told apart in the binary.

The first word of an instruction holds the number of its words above its code, so a reader that knows
nothing else of the grammar finds where the next instruction starts. The number is computed from the
operands before any word is written; that it is the number of words written is what makes the reader right.
-/
namespace Shader.Binary

open List Operand Nat

/-- An instruction as a reader of the binary sees it: its code, and the words after the first. -/
structure Frame where
  code : Word
  words : List Word
  deriving DecidableEq

/-- Cut words into instructions, each as long as the high half of its first word says. An instruction has
at least one word, and the last one ends where the words end. -/
def frames : List Word → Option (List Frame)
  | [] => some []
  | first :: rest => do
    let length := (first >>> 16).toNat
    if 0 < length ∧ length ≤ rest.length + 1 then
      let later ← frames (rest.drop (length - 1))
      return ⟨first &&& 0xFFFF, rest.take (length - 1)⟩ :: later
    else none
  termination_by words => words.length
  decreasing_by simp only [length_drop, length_cons]; omega

namespace Opcode

theorem code_lt (op : Opcode) : op.code.toNat < 65536 := by
  cases op with
  | other code => exact code.toNat_lt
  | _ => decide

/-- An instruction that shaders need has a code of its own. -/
theorem eq_of_code {op needed : Opcode} (known : needed ∈ listed) (same : op.code = needed.code) : op = needed := by
  have codes : listed.map code = neededCodes.map UInt16.toUInt32 := by decide +kernel
  have increasing : (listed.map code).IsChain (· < ·) := by decide +kernel
  have different : (listed.map code).Nodup :=
    (isChain_iff_pairwise.mp increasing).imp fun less => UInt32.ne_of_lt less
  cases op with
  | other code spelling grammar new =>
    have taken : needed.code ∈ listed.map Opcode.code := mem_map_of_mem known
    rw [codes, ← same] at taken
    obtain ⟨other, member, alike⟩ := mem_map.mp taken
    exact absurd (UInt16.toUInt32_inj.mp alike ▸ member) new
  | _ => exact inj_on_of_nodup_map different (by decide +kernel) known same

end Opcode

theorem length_packBytes (bytes : List UInt8) : (packBytes bytes).length = bytes.length / 4 + 1 := by
  fun_induction packBytes bytes with
  | case1 a b c d rest ih =>
    simp only [length_cons, ih]
    omega
  | case2 | case3 | case4 | case5 => simp

theorem length_toList_loop (bytes : ByteArray) (position : Nat) (found : List UInt8) :
    (ByteArray.toList.loop bytes position found).length = found.length + (bytes.size - position) := by
  fun_induction ByteArray.toList.loop bytes position found with
  | case1 position found more ih =>
    rw [ih, length_cons]
    omega
  | case2 position found done =>
    rw [length_reverse]
    omega

namespace Operand

theorem length_words (operand : Operand) : operand.words.length = operand.wordCount := by
  cases operand with
  | text value =>
    have bytes : value.toUTF8.toList.length = value.utf8ByteSize := by
      rw [ByteArray.toList, length_toList_loop, length_nil, Nat.zero_add, Nat.sub_zero]
      rfl
    rw [words, length_packBytes, bytes, wordCount]
  | literal64 | literal | id | scope | semantics | extInst | enumerant => rfl

theorem words_of_idWord? {operand : Operand} {word : Word} (found : operand.idWord? = some word) :
    operand.words = [word] := by
  cases operand <;> cases found <;> rfl

/-- Taking on a class changes no words. -/
@[simp] theorem words_classified (kind : OperandClass) (operand : Operand) :
    (operand.classified kind).words = operand.words := by
  cases operand <;> cases kind <;> rfl

end Operand

/-- The words of operands, one after the other. -/
def wordsOf (operands : List Operand) : List Word := operands.flatMap words

@[simp] theorem wordsOf_nil : wordsOf [] = [] := rfl

@[simp] theorem wordsOf_cons (operand : Operand) (rest : List Operand) :
    wordsOf (operand :: rest) = operand.words ++ wordsOf rest := rfl

theorem Repetition.wordsOf_classify (repetition : Repetition) (position : Nat) (operands : List Operand) :
    wordsOf (repetition.classify position operands) = wordsOf operands := by
  induction operands generalizing position with
  | nil => rfl
  | cons operand rest ih => simp only [classify, wordsOf_cons, words_classified, ih]

namespace Instruction

theorem wordsOf_classify (rest : Option Repetition) (kinds : List OperandClass) (operands : List Operand) :
    wordsOf (classify rest kinds operands) = wordsOf operands := by
  fun_induction classify rest kinds operands with
  | case1 => rfl
  | case2 kind kinds operand operands ih => simp only [wordsOf_cons, words_classified, ih]
  | case3 operands => rfl
  | case4 operands _ repetition => exact repetition.wordsOf_classify 0 operands

theorem words_of_takeIf {op : Opcode} {present : Bool} {operands left : List Operand} {taken : Option Word}
    (took : takeIf op present operands = .ok (taken, left)) : wordsOf operands = taken.toList ++ wordsOf left := by
  unfold takeIf at took
  split at took
  · cases operands with
    | nil =>
      cases took
      rfl
    | cons operand operands =>
      cases found : operand.idWord? with
      | none => simp [takeResult, found] at took
      | some word =>
        simp only [takeResult, found, Except.ok.injEq, Prod.mk.injEq] at took
        obtain ⟨rfl, rfl⟩ := took
        rw [wordsOf_cons, words_of_idWord? found]
        rfl
  · cases took
    rfl

/-- The words of an instruction after the first. -/
def payload (inst : Instruction) : List Word :=
  inst.resultType.toList ++ inst.result.toList ++ wordsOf inst.operands

/-- The instruction as a reader sees it. -/
def frame (inst : Instruction) : Frame := ⟨inst.op.code, inst.payload⟩

theorem words_eq (inst : Instruction) : inst.words = inst.header :: inst.payload := rfl

/-- The number in the first word is the number of words. -/
theorem length_payload (inst : Instruction) : inst.payload.length + 1 = inst.wordCount := by
  have counted (operands : List Operand) (total : Nat) :
      operands.foldl (fun total operand => total + operand.wordCount) total = total + (wordsOf operands).length := by
    induction operands generalizing total with
    | nil => rfl
    | cons operand rest ih =>
      rw [foldl_cons, ih, wordsOf_cons, length_append, length_words, Nat.add_assoc]
  rw [payload, wordCount, counted]
  simp only [length_append]
  omega

/-- An instruction that was made is short enough, has the code it was made with, and has the words of the operands
it was made with, in their order. -/
theorem frame_of_make {op : Opcode} {operands : List Operand} {inst : Instruction}
    (made : make op operands = .ok inst) : inst.frame = ⟨op.code, wordsOf operands⟩ ∧ inst.wordCount ≤ maxWords := by
  rw [make_eq, makeBy] at made
  cases first : takeIf op op.grammar.resultType operands with
  | error fault => simp [first, bind, Except.bind] at made
  | ok typed =>
    obtain ⟨resultType, operands'⟩ := typed
    cases second : takeIf op op.grammar.result operands' with
    | error fault => simp [first, second, bind, Except.bind] at made
    | ok named =>
      obtain ⟨result, operands''⟩ := named
      simp only [first, second, bind, Except.bind] at made
      split at made
      · cases made
      · rename_i short
        cases made
        refine ⟨?_, Nat.not_lt.mp short⟩
        simp only [frame, payload, wordsOf_classify, words_of_takeIf first, words_of_takeIf second,
          append_assoc]

section
variable {inst : Instruction} (short : inst.wordCount ≤ maxWords)
include short

theorem header_length : (inst.header >>> 16).toNat = inst.wordCount := by
  have bound : inst.wordCount < 2 ^ 16 := lt_succ_of_le short
  have code := shiftRight_eq_zero inst.op.code.toNat 16 inst.op.code_lt
  have high : UInt32.toNat 16 = 16 := rfl
  simp only [header, UInt32.toNat_shiftRight, UInt32.toNat_or, UInt32.toNat_shiftLeft, UInt32.toNat_ofNat', high,
    reduceMod, shiftRight_or_distrib, code, or_zero]
  rw [shiftLeft_eq, shiftRight_eq_div_pow]
  omega

theorem header_code : inst.header &&& 0xFFFF = inst.op.code := by
  have bound : inst.wordCount < 2 ^ 16 := lt_succ_of_le short
  have code := inst.op.code_lt
  have high : UInt32.toNat 16 = 16 := rfl
  have mask : UInt32.toNat 0xFFFF = 2 ^ 16 - 1 := rfl
  apply UInt32.toNat_inj.mp
  simp only [header, UInt32.toNat_and, UInt32.toNat_or, UInt32.toNat_shiftLeft, UInt32.toNat_ofNat', high, mask,
    reduceMod, and_two_pow_sub_one_eq_mod, or_mod_two_pow, shiftLeft_eq]
  rw [mod_eq_of_lt code]
  have clear : inst.wordCount % 2 ^ 32 * 2 ^ 16 % 2 ^ 32 % 2 ^ 16 = 0 := by omega
  rw [clear, zero_or]

/-- The reader finds an instruction that is short enough, and goes on after it. -/
theorem frames_words_append (rest : List Word) : frames (inst.words ++ rest) = (frames rest).map (inst.frame :: ·) := by
  have length := inst.length_payload
  have before : inst.wordCount - 1 = inst.payload.length := by omega
  rw [words_eq, cons_append, frames, header_length short, header_code short]
  have enough : 0 < inst.wordCount ∧ inst.wordCount ≤ (inst.payload ++ rest).length + 1 := by
    rw [length_append]
    omega
  simp only [enough, and_self, if_true, before, take_left, drop_left]
  cases frames rest <;> rfl

end
end Instruction

/-- Instructions that are short enough can be read back from their words. -/
theorem frames_flatMap_words {insts : List Instruction} (short : ∀ inst ∈ insts, inst.wordCount ≤ maxWords) :
    frames (insts.flatMap Instruction.words) = some (insts.map Instruction.frame) := by
  induction insts with
  | nil =>
    rw [flatMap_nil, frames]
    rfl
  | cons inst rest ih =>
    rw [flatMap_cons, Instruction.frames_words_append (short inst (by simp)),
      ih fun other member => short other (by simp [member])]
    rfl

end Shader.Binary
