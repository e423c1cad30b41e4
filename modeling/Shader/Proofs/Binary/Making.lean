import Mathlib.Algebra.GroupWithZero.Nat
import Shader.Proofs.Binary.Framing

/-!
Which operands make an instruction, and which instruction they make.

The operands that the grammar takes for the result type and the result come first and have to be plain words or ids. All
operands together have to fit into the number that the first word of an instruction holds. Nothing else is refused,
whether there are fewer operands than the grammar names or more, and what is made has the words of all of them in order.
-/
namespace Shader.Binary

open Operand

/-- How many operands come before those that are classified. -/
def Grammar.resultCount (grammar : Grammar) : Nat := grammar.resultType.toNat + grammar.result.toNat

namespace Operand

/-- What becomes of an operand that is classified: its words stay, and only a plain word or an id may change at all. -/
def Retagged (given kept : Operand) : Prop := kept.words = given.words ∧ (given.idWord? = none → kept = given)

theorem retagged_refl (operand : Operand) : operand.Retagged operand := ⟨rfl, fun _ => rfl⟩

theorem retagged_classified (kind : OperandClass) (operand : Operand) : operand.Retagged (operand.classified kind) := by
  refine ⟨operand.words_classified kind, fun other => ?_⟩
  simp only [classified, other]

end Operand

theorem length_wordsOf (operands : List Operand) : (wordsOf operands).length = (operands.map wordCount).sum := by
  rw [wordsOf, List.length_flatMap]
  simp only [length_words]

theorem Repetition.retagged_classify (repetition : Repetition) (position : Nat) (operands : List Operand) :
    List.Forall₂ Retagged operands (repetition.classify position operands) := by
  induction operands generalizing position with
  | nil => exact .nil
  | cons operand rest ih => exact .cons (operand.retagged_classified _) (ih _)

namespace Instruction

variable {op : Opcode} {present : Bool} {operands left : List Operand} {taken : Option Word}

theorem retagged_classify (rest : Option Repetition) (kinds : List OperandClass) (operands : List Operand) :
    List.Forall₂ Retagged operands (classify rest kinds operands) := by
  fun_induction classify rest kinds operands with
  | case1 => exact .nil
  | case2 kind kinds operand operands ih => exact .cons (operand.retagged_classified kind) ih
  | case3 operands => exact List.forall₂_same.mpr fun operand _ => operand.retagged_refl
  | case4 operands _ repetition => exact repetition.retagged_classify 0 operands

/-- A result is refused if it is there and is no id. -/
theorem takeIf_eq_error : (∃ fault, takeIf op present operands = .error fault) ↔
    ∃ operand ∈ operands.take present.toNat, operand.idWord? = none := by
  cases operands with
  | nil => cases present <;> simp [takeIf, takeResult]
  | cons operand rest =>
    cases present with
    | false => simp [takeIf]
    | true => cases found : operand.idWord? <;> simp [takeIf, takeResult, found]

theorem takeIf_eq_ok (took : takeIf op present operands = .ok (taken, left)) :
    taken.toList = (operands.take present.toNat).filterMap idWord? ∧ left = operands.drop present.toNat := by
  cases present with
  | false =>
    cases took
    simp
  | true =>
    cases operands with
    | nil =>
      cases took
      simp
    | cons operand rest =>
      cases found : operand.idWord? with
      | none => simp [takeIf, takeResult, found] at took
      | some word =>
        simp only [takeIf, takeResult, found, if_true, Except.ok.injEq, Prod.mk.injEq] at took
        obtain ⟨rfl, rfl⟩ := took
        simp [found]

/-- What `makeBy` comes to once the results are taken. -/
theorem makeBy_of_takeIf {grammar : Grammar} {left' : List Operand} {resultType result : Option Word}
    (first : takeIf op grammar.resultType operands = .ok (resultType, left))
    (second : takeIf op grammar.result left = .ok (result, left')) :
    ∃ inst, inst.payload = wordsOf operands ∧ inst.op = op ∧
      inst.operands = classify grammar.rest grammar.fixed left' ∧ inst.resultType = resultType ∧ inst.result = result ∧
      makeBy grammar op operands =
        if inst.wordCount > maxWords then .error (.tooLong op inst.wordCount) else .ok inst := by
  refine ⟨⟨op, resultType, result, classify grammar.rest grammar.fixed left'⟩, ?_, rfl, rfl, rfl, rfl, ?_⟩
  · simp only [payload, wordsOf_classify, words_of_takeIf first, words_of_takeIf second, List.append_assoc]
  · simp only [makeBy, first, second, bind, Except.bind]

theorem makeBy_exactly (grammar : Grammar) (op : Opcode) (operands : List Operand) :
    ((∃ fault, makeBy grammar op operands = .error fault) ↔
      (∃ operand ∈ operands.take grammar.resultCount, operand.idWord? = none) ∨
        maxWords < 1 + (operands.map Operand.wordCount).sum) ∧
    ∀ inst, makeBy grammar op operands = .ok inst →
      (∃ first, inst.words = first :: operands.flatMap Operand.words ∧ first &&& 0xFFFF = op.code ∧
        (first >>> 16).toNat = 1 + (operands.map Operand.wordCount).sum) ∧
      inst.resultType.toList ++ inst.result.toList = (operands.take grammar.resultCount).filterMap Operand.idWord? ∧
      List.Forall₂ Operand.Retagged (operands.drop grammar.resultCount) inst.operands := by
  have positions : operands.take grammar.resultCount = operands.take grammar.resultType.toNat ++
      (operands.drop grammar.resultType.toNat).take grammar.result.toNat := List.take_add
  rw [positions]
  simp only [List.mem_append, or_and_right, exists_or]
  rw [← @takeIf_eq_error op]
  cases first : takeIf op grammar.resultType operands with
  | error fault => simp [makeBy, first, bind, Except.bind]
  | ok typed =>
    obtain ⟨resultType, left⟩ := typed
    obtain ⟨isType, rfl⟩ := takeIf_eq_ok first
    rw [← @takeIf_eq_error op]
    cases second : takeIf op grammar.result (operands.drop grammar.resultType.toNat) with
    | error fault => simp [makeBy, first, second, bind, Except.bind]
    | ok named =>
      obtain ⟨result, left⟩ := named
      obtain ⟨isResult, rfl⟩ := takeIf_eq_ok second
      obtain ⟨inst, words, rfl, rest, rfl, rfl, made⟩ := makeBy_of_takeIf first second
      have counted : inst.wordCount = 1 + (operands.map Operand.wordCount).sum := by
        rw [← inst.length_payload, words, length_wordsOf, Nat.add_comm]
      rw [made, ← counted]
      by_cases long : inst.wordCount > maxWords
      · simp [long]
      · have short := Nat.not_lt.mp long
        simp only [long, if_false, reduceCtorEq, exists_false, or_self, true_and, Except.ok.injEq]
        rintro _ rfl
        refine ⟨⟨_, inst.words_eq.trans (congrArg _ words), header_code short, header_length short⟩, ?_, ?_⟩
        · rw [isType, isResult, List.filterMap_append]
        · rw [rest, List.drop_drop]
          exact retagged_classify _ _ _

/-- The places for the result type and the result, where there are any, are the first ones in this order. -/
def ResultsFirst (slots : List Slot) : Prop :=
  ∃ results others, slots = results ++ others ∧ results.Sublist [.resultType, .result] ∧
    ∀ slot ∈ others, slot.isResult = false

/-- Nothing is put behind a place for any number of operands. -/
theorem exists_fill_eq {others : List Slot} (plain : ∀ slot ∈ others, slot.isResult = false) :
    ∃ (fixed : List OperandClass) (rest : Option Repetition), ∀ inst operands,
      fill inst others operands = fill inst (fixed.map .one ++ rest.toList.map .many) operands := by
  induction others with
  | nil => exact ⟨[], none, fun _ _ => rfl⟩
  | cons slot others ih =>
    obtain ⟨here, plain⟩ := List.forall_mem_cons.mp plain
    obtain ⟨fixed, rest, same⟩ := ih plain
    cases slot with
    | resultType | result => cases here
    | one kind =>
      refine ⟨kind :: fixed, rest, fun inst operands => ?_⟩
      cases operands with
      | nil => rfl
      | cons operand operands => exact same _ _
    | many repetition => exact ⟨[], some repetition, fun _ _ => rfl⟩

/-- Places that start with those for results are as good as a grammar. -/
theorem ResultsFirst.exists_grammar {slots : List Slot} (ordered : ResultsFirst slots) :
    ∃ grammar : Grammar, grammar.resultCount = slots.countP Slot.isResult ∧
      ∀ op operands, makeWith slots op operands = makeBy grammar op operands := by
  obtain ⟨results, others, rfl, chosen, plain⟩ := ordered
  obtain ⟨fixed, rest, same⟩ := exists_fill_eq plain
  have none : others.countP Slot.isResult = 0 := List.countP_eq_zero.mpr (by simpa using plain)
  have known : results = [] ∨ results = [.result] ∨ results = [.resultType] ∨ results = [.resultType, .result] := by
    simp only [List.sublist_cons_iff, List.sublist_nil] at chosen
    rcases chosen with (rfl | ⟨_, rfl, rfl⟩) | ⟨_, rfl, rfl | ⟨_, rfl, rfl⟩⟩ <;> simp
  refine ⟨⟨results.contains .resultType, results.contains .result, fixed, rest⟩, ?_, fun op operands => ?_⟩
  · rw [List.countP_append, none]
    rcases known with rfl | rfl | rfl | rfl <;> rfl
  · rw [← makeWith_slots]
    rcases known with rfl | rfl | rfl | rfl <;>
      simp [makeWith, Grammar.slots, fill, same]

/-- If the places for results come first, operands make an instruction unless a result is no id or there are too many
words. Its first word says how many words there are, the others are the words of the operands, and classifying changes
none of them. -/
theorem make_exactly {slots : List Slot} (ordered : ResultsFirst slots) (op : Opcode) (operands : List Operand) :
    ((∃ fault, makeWith slots op operands = .error fault) ↔
      (∃ operand ∈ operands.take (slots.countP Slot.isResult), operand.idWord? = none) ∨
        maxWords < 1 + (operands.map Operand.wordCount).sum) ∧
    ∀ inst, makeWith slots op operands = .ok inst →
      (∃ first, inst.words = first :: operands.flatMap Operand.words ∧ first &&& 0xFFFF = op.code ∧
        (first >>> 16).toNat = 1 + (operands.map Operand.wordCount).sum) ∧
      inst.resultType.toList ++ inst.result.toList =
        (operands.take (slots.countP Slot.isResult)).filterMap Operand.idWord? ∧
      List.Forall₂ Operand.Retagged (operands.drop (slots.countP Slot.isResult)) inst.operands := by
  obtain ⟨grammar, counted, same⟩ := ordered.exists_grammar
  rw [same, ← counted]
  exact makeBy_exactly grammar op operands

/-- An instruction whose last operands are pairs of an id and a literal. -/
def paired : List Slot := [.resultType, .result, .one .id, .many .idLiteralPairs]

theorem paired_made_exactly : ResultsFirst paired ∧
    (∃ fault, makeWith paired (.other 5000 "Paired" {} (by decide)) [.id 1, .enumerant "Flat" 14] = .error fault) ∧
    ∃ inst first, makeWith paired (.other 5000 "Paired" {} (by decide))
        [.id 1, .literal 2, .literal 3, .literal 4, .literal 5, .enumerant "Flat" 14] = .ok inst ∧
      inst.words = [first, 1, 2, 3, 4, 5, 14] ∧ first &&& 0xFFFF = 5000 ∧ (first >>> 16).toNat = 7 ∧
      inst.operands = [.id 3, .id 4, .literal 5, .enumerant "Flat" 14] := by
  have ordered : ResultsFirst paired :=
    ⟨[.resultType, .result], [.one .id, .many .idLiteralPairs], rfl, .refl _, by decide⟩
  refine ⟨ordered, (make_exactly ordered _ _).1.mpr (.inl ⟨.enumerant "Flat" 14, by decide, rfl⟩), ?_⟩
  obtain ⟨inst, made, same⟩ : ∃ inst, makeWith paired (.other 5000 "Paired" {} (by decide))
      [.id 1, .literal 2, .literal 3, .literal 4, .literal 5, .enumerant "Flat" 14] = .ok inst ∧
        inst.operands = [.id 3, .id 4, .literal 5, .enumerant "Flat" 14] := ⟨_, rfl, rfl⟩
  obtain ⟨⟨first, words, code, length⟩, -⟩ := (make_exactly ordered _ _).2 inst made
  exact ⟨inst, first, made, words, code, length, same⟩

end Instruction
end Shader.Binary
