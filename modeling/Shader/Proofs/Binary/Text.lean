import Shader.Proofs.Binary.Framing

/-!
Text in the binary, and the instructions that carry it.

A text ends at its first zero byte, and what comes after it starts at the word behind the one with that byte. A reader
that goes by this rule finds the end of every text that has no zero character, whatever follows it.
-/
namespace Shader.Binary

open List

/-- The bytes before the first zero byte, and the words after the word that holds it. -/
def takeText : List Word → Option (List UInt8 × List Word)
  | [] => none
  | word :: rest =>
    if 0 ∈ bytesOfWord word then some ((bytesOfWord word).takeWhile (· ≠ 0), rest)
    else (takeText rest).map fun (bytes, left) => (bytesOfWord word ++ bytes, left)

/-- The text that words start with, and the words after it. -/
def readText (words : List Word) : Option (String × List Word) := do
  let (bytes, left) ← takeText words
  let text ← String.fromUTF8? bytes.toByteArray
  return (text, left)

/-- The text that takes all of the words. -/
def readWhole (words : List Word) : Option String :=
  match readText words with
  | some (text, []) => some text
  | _ => none

@[simp] theorem bytesOfWord_wordOfBytes (a b c d : UInt8) : bytesOfWord (wordOfBytes a b c d) = [a, b, c, d] := by
  have above (byte : UInt8) {index : Nat} (past : 8 ≤ index) : byte.toBitVec.getLsbD index = false :=
    BitVec.getLsbD_of_ge _ _ past
  simp only [bytesOfWord, wordOfBytes, cons.injEq, and_true]
  -- Each byte is compared bit by bit; the bits of the other bytes lie outside of the range that is cut out.
  refine ⟨?_, ?_, ?_, ?_⟩
  all_goals
    apply UInt8.toBitVec_inj.mp
    ext index within
    simp <;> grind

theorem takeText_packBytes {bytes : List UInt8} (rest : List Word) (plain : 0 ∉ bytes) :
    takeText (packBytes bytes ++ rest) = some (bytes, rest) := by
  fun_induction packBytes bytes with
  | case1 a b c d bytes ih =>
    simp only [mem_cons, not_or] at plain
    obtain ⟨ha, hb, hc, hd, later⟩ := plain
    rw [cons_append, takeText, bytesOfWord_wordOfBytes, if_neg (by simp [ha, hb, hc, hd]), ih later]
    rfl
  | case2 a b c =>
    simp only [mem_cons, not_or] at plain
    simp [takeText, takeWhile, Ne.symm plain.1, Ne.symm plain.2.1, Ne.symm plain.2.2.1]
  | case3 a b =>
    simp only [mem_cons, not_or] at plain
    simp [takeText, takeWhile, Ne.symm plain.1, Ne.symm plain.2.1]
  | case4 a =>
    simp only [mem_cons, not_or] at plain
    simp [takeText, takeWhile, Ne.symm plain.1]
  | case5 => simp [takeText, bytesOfWord]

/-- No zero byte is read. -/
theorem not_mem_of_takeText {words left : List Word} {bytes : List UInt8}
    (taken : takeText words = some (bytes, left)) : 0 ∉ bytes := by
  induction words generalizing bytes with
  | nil => cases taken
  | cons word words ih =>
    rw [takeText] at taken
    split at taken
    · cases taken
      intro zero
      simpa using all_eq_true.mp all_takeWhile 0 zero
    · rename_i plain
      obtain ⟨⟨more, left'⟩, found, same⟩ := Option.map_eq_some_iff.mp taken
      cases same
      simpa [plain] using ih found

section
variable {text : String}

theorem toList_loop (bytes : ByteArray) (position : Nat) (found : List UInt8) :
    ByteArray.toList.loop bytes position found = found.reverse ++ bytes.data.toList.drop position := by
  fun_induction ByteArray.toList.loop bytes position found with
  | case1 position found more ih =>
    have remaining : bytes.data.toList.drop position =
        bytes.get! position :: bytes.data.toList.drop (position + 1) := by
      simpa [ByteArray.get!, more] using drop_eq_getElem_cons (l := bytes.data.toList) more
    rw [ih, remaining, reverse_cons, append_assoc, singleton_append]
  | case2 position found done =>
    rw [drop_of_length_le (by simpa using done), append_nil]

theorem toList_toUTF8 (text : String) : text.toUTF8.toList = text.toByteArray.data.toList := by
  rw [ByteArray.toList, toList_loop]
  rfl

/-- The zero byte stands for the zero character only. -/
theorem zero_mem_utf8EncodeChar {char : Char} : 0 ∈ String.utf8EncodeChar char ↔ char = '\x00' := by
  have zero : char = '\x00' ↔ char.val.toNat = 0 := by
    rw [← Char.val_inj, ← UInt32.toNat_inj]
    rfl
  have byte (value : Nat) : (0 = UInt8.ofNat value) ↔ value % 256 = 0 := by
    rw [eq_comm, ← UInt8.toNat_inj, UInt8.toNat_ofNat']
    rfl
  unfold String.utf8EncodeChar
  grind

theorem zero_mem_toUTF8 : 0 ∈ text.toUTF8.toList ↔ '\x00' ∈ text.toList := by
  rw [toList_toUTF8, ← String.utf8Encode_toList, utf8Encode]
  simp [zero_mem_utf8EncodeChar]

theorem toByteArray_of_fromUTF8? {bytes : ByteArray} (read : String.fromUTF8? bytes = some text) :
    text.toByteArray = bytes := by
  unfold String.fromUTF8? at read
  split at read
  · cases read
    rfl
  · cases read

theorem fromUTF8?_toByteArray : String.fromUTF8? text.toByteArray = some text := by
  rw [String.fromUTF8?, dif_pos text.isValidUTF8]
  rfl

/-- A text is read back, up to where it ends, unless it has a zero character. -/
theorem readText_words (rest : List Word) :
    readText ((Operand.text text).words ++ rest) = some (text, rest) ↔ '\x00' ∉ text.toList := by
  rw [← zero_mem_toUTF8]
  constructor
  · intro read
    obtain ⟨⟨bytes, left⟩, taken, rest⟩ := Option.bind_eq_some_iff.mp read
    obtain ⟨decoded, valid, same⟩ := Option.bind_eq_some_iff.mp rest
    cases same
    rw [toList_toUTF8, toByteArray_of_fromUTF8? valid]
    simpa using not_mem_of_takeText taken
  · intro plain
    have bytes : text.toUTF8.toList.toByteArray = text.toByteArray := by
      rw [toList_toUTF8]
      exact ByteArray.ext (by simp)
    rw [readText, Operand.words, takeText_packBytes rest plain]
    change (String.fromUTF8? _).bind _ = _
    rw [bytes, fromUTF8?_toByteArray]
    rfl

theorem readWhole_words : readWhole (Operand.text text).words = some text ↔ '\x00' ∉ text.toList := by
  rw [← readText_words [], append_nil, readWhole]
  split <;> grind

end

/-- What an instruction says that names an id, or a member of the struct type with that id. -/
structure Naming where
  target : Word
  member : Option Word
  name : String
  deriving DecidableEq

/-- What an instruction says that announces an entry point. -/
structure Announcement where
  model : Word
  start : Word
  name : String
  interface : List Word
  deriving DecidableEq

namespace Frame

/-- A name takes all the words that are left. -/
def naming? (frame : Frame) : Option Naming :=
  match Opcode.ofCode? frame.code, frame.words with
  | some .name, target :: words => (readWhole words).map fun name => ⟨target, none, name⟩
  | some .memberName, target :: member :: words => (readWhole words).map fun name => ⟨target, some member, name⟩
  | _, _ => none

/-- The words after the name of an entry point are its interface. -/
def announcement? (frame : Frame) : Option Announcement :=
  match Opcode.ofCode? frame.code, frame.words with
  | some .entryPoint, model :: start :: words => (readText words).map fun read => ⟨model, start, read.1, read.2⟩
  | _, _ => none

end Frame

section
variable {name : String}

theorem naming?_name {target : Word} : Frame.naming? ⟨Opcode.name.code, wordsOf [.id target, .text name]⟩ =
    some ⟨target, none, name⟩ ↔ '\x00' ∉ name.toList := by
  have known : Opcode.ofCode? Opcode.name.code = some .name := by decide +kernel
  rw [← readWhole_words, wordsOf_cons, wordsOf_cons, wordsOf_nil, append_nil]
  simp [Operand.words, Frame.naming?, known]

theorem naming?_memberName {target member : Word} :
    Frame.naming? ⟨Opcode.memberName.code, wordsOf [.id target, .literal member, .text name]⟩ =
      some ⟨target, some member, name⟩ ↔ '\x00' ∉ name.toList := by
  have known : Opcode.ofCode? Opcode.memberName.code = some .memberName := by decide +kernel
  rw [← readWhole_words, wordsOf_cons, wordsOf_cons, wordsOf_cons, wordsOf_nil, append_nil]
  simp [Operand.words, Frame.naming?, known]

theorem announcement?_entryPoint {model start : Word} {ids : List Word} :
    Frame.announcement? ⟨Opcode.entryPoint.code, wordsOf ([.literal model, .id start, .text name] ++ ids.map .id)⟩ =
      some ⟨model, start, name, ids⟩ ↔ '\x00' ∉ name.toList := by
  have interface : wordsOf (ids.map .id) = ids := by
    simp [wordsOf, flatMap_map, Operand.words]
  have known : Opcode.ofCode? Opcode.entryPoint.code = some .entryPoint := by decide +kernel
  rw [← readText_words ids, cons_append, cons_append, cons_append, nil_append, wordsOf_cons,
    wordsOf_cons, wordsOf_cons, interface]
  simp [Operand.words, Frame.announcement?, known]

end

end Shader.Binary
