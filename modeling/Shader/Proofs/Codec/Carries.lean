import Mathlib.Data.List.Nodup
import Shader.Codec.Module
import Shader.Proofs.Nesting

/-!
Writing and reading parts of a document.

The only numbers that a document may not be able to hold are positions in tables, which are read as 32-bit numbers.
So a way of writing and a way of reading belong together if what has short positions is read as it was written, and
if only such things are read. Ways of writing and reading lists and absent parts are made from those of their parts.
-/
namespace Shader

open List

variable {α : Type} {json : Json} {name : String} {members : List (String × Json)}

/-- The positions are 32-bit numbers. -/
def Short (positions : List Nat) : Prop := ∀ position ∈ positions, position < 0x100000000

instance {positions : List Nat} : Decidable (Short positions) :=
  inferInstanceAs (Decidable (∀ position ∈ positions, position < 0x100000000))

section Short

variable {α : Type} {first second : List Nat}

@[simp] theorem short_nil : Short [] := by simp [Short]

@[simp] theorem short_cons {position : Nat} : Short (position :: first) ↔ position < 0x100000000 ∧ Short first := by
  simp [Short]

@[simp] theorem short_append : Short (first ++ second) ↔ Short first ∧ Short second := by
  simp [Short, or_imp, forall_and]

@[simp] theorem short_flatMap {list : List α} {positions : α → List Nat} :
    Short (list.flatMap positions) ↔ ∀ a ∈ list, Short (positions a) := by
  simp only [Short, mem_flatMap]
  exact ⟨fun all a member position held => all position ⟨a, member, held⟩,
    fun all position ⟨a, member, held⟩ => all a member position held⟩

end Short

/-- Every member of an enumeration is listed, and no two are written alike. -/
class DistinctlySpelled (α : Type) [Spelled α] : Prop where
  listed : ∀ a : α, a ∈ (Spelled.members : List α)
  apart : ((Spelled.members : List α).map spelling).Nodup

theorem Spelled.read?_spelling [Spelled α] [distinct : DistinctlySpelled α] (a : α) :
    Spelled.read? (spelling a) = some a := by
  have found : (Spelled.read? (spelling a) : Option α).isSome := by
    rw [Spelled.read?, find?_isSome]
    exact ⟨a, distinct.listed a, beq_self_eq_true _⟩
  obtain ⟨b, same⟩ := Option.isSome_iff_exists.mp found
  rw [same]
  have alike : spelling b = spelling a := by simpa using find?_some same
  exact congrArg some (inj_on_of_nodup_map distinct.apart (mem_of_find?_eq_some same) (distinct.listed a) alike)

theorem pure_eq_ok {a b : α} : (pure a : Decoded α) = .ok b ↔ a = b := ⟨Except.ok.inj, congrArg Except.ok⟩

/-- What has short positions is read as it was written, and only such things are read. -/
structure Carries {α : Type} (encode : α → Json) (decode : Json → Decoded α) (positions : α → List Nat) : Prop where
  reads : ∀ a, Short (positions a) → decode (encode a) = .ok a
  short : ∀ {json a}, decode json = .ok a → Short (positions a)

namespace Json

theorem asNatBelow_eq_ok {bound : Nat} {n : Nat} : json.asNatBelow bound = .ok n ↔ json = .nat n ∧ n < bound := by
  constructor
  · intro read
    unfold asNatBelow at read
    split at read
    · split at read
      · rename_i value within
        cases read
        refine ⟨?_, by omega⟩
        rw [nat, Int.toNat_of_nonneg within.1]
      · cases read
    · cases read
  · rintro ⟨rfl, below⟩
    simp [nat, asNatBelow, below]

theorem carries_word : Carries word asWord fun _ => [] where
  reads a _ := by
    rw [asWord, show (word a).asNatBelow 0x100000000 = .ok a.toNat from asNatBelow_eq_ok.mpr ⟨rfl, a.toNat_lt⟩]
    simp
  short _ := short_nil

theorem carries_text : Carries str asText fun _ => [] := ⟨fun _ _ => rfl, fun _ => short_nil⟩

theorem carries_bool : Carries bool asBool fun _ => [] := ⟨fun _ _ => rfl, fun _ => short_nil⟩

theorem carries_member [Spelled α] [DistinctlySpelled α] : Carries (ofMember : α → Json) asMember fun _ => [] where
  reads a _ := by
    simp [ofMember, asMember, asName, Spelled.read?_spelling]
  short _ := short_nil

variable {α : Type} {encode : α → Json} {decode : Json → Decoded α} {positions : α → List Nat}

/-- A position, wrapped or not. -/
theorem carries_index {wrap : Nat → α} {index : α → Nat} (same : ∀ a, wrap (index a) = a)
    (kept : ∀ n, index (wrap n) = n) :
    Carries (fun a => nat (index a)) (fun json => do return wrap (← json.asIndex)) fun a => [index a] where
  reads a short := by
    simp only [short_cons, short_nil, and_true] at short
    rw [asIndex, show (nat (index a)).asNatBelow 0x100000000 = .ok (index a) from asNatBelow_eq_ok.mpr ⟨rfl, short⟩]
    exact congrArg Except.ok (same a)
  short read := by
    obtain ⟨n, known, made⟩ := bind_eq_ok.mp read
    cases made
    simpa [kept] using (asNatBelow_eq_ok.mp known).2

/-- A member is the first one of its name. -/
@[simp] theorem field_cons {key : String} :
    field ((key, json) :: members) name decode = if name = key then decode json else field members name decode := by
  by_cases same : name = key
  · simp [field, same]
  · simp [field, lookup_cons, same, beq_eq_false_iff_ne.mpr same]

@[simp] theorem optionalField_cons {key : String} : optionalField ((key, json) :: members) name decode =
      if name = key then json.asOption decode else optionalField members name decode := by
  by_cases same : name = key
  · simp [optionalField, same]
  · simp [optionalField, lookup_cons, same, beq_eq_false_iff_ne.mpr same]

theorem field_eq_ok {a : α} :
    field members name decode = .ok a ↔ ∃ json, members.lookup name = some json ∧ decode json = .ok a := by
  cases found : members.lookup name <;> simp [field, found]

theorem asVariant_ofVariant {parts : Json} : asVariant (ofVariant name parts) = .ok (name, parts) := rfl

/-- A record in which no known name is repeated. -/
theorem asRecord_of_nodup {known : List String} (once : (members.map Prod.fst).Nodup) :
    asRecord known (.obj members) = .ok members := by
  rw [asRecord, if_pos]
  simp only [all_eq_true, decide_eq_true_eq]
  intro name _
  have counted := nodup_iff_count_le_one.mp once name
  rwa [count, countP_map, countP_eq_length_filter] at counted

end Json

namespace Carries

open Json

variable {α : Type} {encode : α → Json} {decode : Json → Decoded α} {positions : α → List Nat}

section
variable (carries : Carries encode decode positions)
include carries

theorem list : Carries (ofList encode) (asList decode) fun list => list.flatMap positions where
  reads list short := by
    rw [ofList, asList, mapM_eq_ok, forall₂_map_left_iff, forall₂_same]
    exact fun a member => carries.reads a (short_flatMap.mp short a member)
  short {json list} read := by
    cases json with
    | arr items =>
      refine short_flatMap.mpr fun a member => ?_
      obtain ⟨item, -, read⟩ := forall₂_mem_right (mapM_eq_ok.mp read) member
      exact carries.short read
    | _ => cases read

theorem short_asOption {found : Option α}
    (read : asOption decode json = .ok found) : Short (found.toList.flatMap positions) := by
  rw [asOption.eq_def] at read
  split at read
  · cases read
    exact short_nil
  · obtain ⟨a, known, same⟩ := bind_eq_ok.mp read
    cases same
    simpa using carries.short known

/-- What may be absent must not be written as null when it is there. -/
theorem option (written : ∀ a, encode a ≠ .null) :
    Carries (ofOption encode) (asOption decode) fun found => found.toList.flatMap positions where
  reads found short := by
    cases found with
    | none => rfl
    | some a =>
      have read := carries.reads a (by simpa using short)
      rw [ofOption, asOption.eq_def]
      split
      · exact absurd ‹_› (written a)
      · rw [read]
        rfl
  short := carries.short_asOption

theorem field {a : α}
    (read : Json.field members name decode = .ok a) : Short (positions a) := by
  obtain ⟨json, -, known⟩ := field_eq_ok.mp read
  exact carries.short known

theorem optionalField {found : Option α}
    (read : Json.optionalField members name decode = .ok found) : Short (found.toList.flatMap positions) := by
  unfold Json.optionalField at read
  split at read
  · exact carries.short_asOption read
  · cases read
    exact short_nil

end

end Carries

end Shader
