import Shader.Proofs.Codec.Constants

/-!
A list of constants that is read as a pool.

Reading stores every constant of the list in its canonical form, at its own position, so that a reference into the
list means the same in the pool. It goes on until a form has been stored before. So it succeeds exactly if no two
constants of the list have one canonical form, and where it fails it names the first constant that repeats another
one.
-/
namespace Shader.Pool

open Json Constant

/-- The document that lists the constants. -/
def document (constants : List Constant) : Json := .obj [("items", .ofList Constant.toJson constants)]

/-- The canonical form of a constant of the list. -/
def formAt (constants : List Constant) (index : Nat) : Option Constant := (constants[index]?).map Constant.canonical

/-- No constant before `index` repeats an earlier one. The one at `index` does, and it repeats that at `first` alone. -/
structure FirstRepeated (constants : List Constant) (repeated : Repeated) : Prop where
  earlier : repeated.first < repeated.index
  here : formAt constants repeated.index = some repeated.constant
  there : formAt constants repeated.first = some repeated.constant
  only : ∀ index < repeated.index, formAt constants index = some repeated.constant → index = repeated.first
  least : ∀ index < repeated.index, ∀ before < index, formAt constants before ≠ formAt constants index

variable {pool : Pool} {constants : List Constant} {repeated : Repeated}

theorem formAt_eq (constants : List Constant) (index : Nat) :
    formAt constants index = (constants.map canonical)[index]? :=
  List.getElem?_map.symm

/-- Storing stops at a constant that is stored already, and up to there no constant is stored twice. -/
theorem append_eq_error (stored : pool.Canonical) (failed : pool.append constants = .error repeated)
    {forms : List Constant} (all : forms = pool.items.toList ++ constants.map canonical) :
    repeated.first < repeated.index ∧ forms[repeated.index]? = some repeated.constant ∧
      forms[repeated.first]? = some repeated.constant ∧ (forms.take repeated.index).Nodup := by
  induction constants generalizing pool with
  | nil => cases failed
  | cons constant rest ih =>
    cases found : pool.position? constant.canonical with
    | none =>
      refine ih (stored.push (position?_eq_none.mp found)) ?_ ?_
      · simpa [append, found] using failed
      · simp [all]
    | some first =>
      have held := getElem?_of_position? found
      have bound : first < pool.items.toList.length := (Array.getElem?_eq_some_iff.mp held).1
      simp only [append, found, Except.error.injEq] at failed
      subst all failed
      refine ⟨bound, ?_, ?_, ?_⟩
      · simp [size]
      · rw [List.getElem?_append_left bound, Array.getElem?_toList]
        exact held
      · have taken : (pool.items.toList ++ (constant :: rest).map canonical).take pool.size =
            pool.items.toList := List.take_left
        exact taken.symm ▸ stored.once

theorem firstRepeated_of_ofList (failed : ofList constants = .error repeated) : FirstRepeated constants repeated := by
  obtain ⟨earlier, here, there, once⟩ := append_eq_error canonical_empty failed rfl
  have empty : empty.items.toList ++ constants.map canonical = constants.map canonical := rfl
  rw [empty] at here there once
  have bound := (List.getElem?_eq_some_iff.mp here).1
  -- Before the repetition a form says where it is.
  have apart {i j : Nat} (first : i < repeated.index) (second : j < repeated.index)
      (same : formAt constants i = formAt constants j) : i = j := by
    rw [formAt_eq, formAt_eq, ← List.getElem?_take_of_lt first, ← List.getElem?_take_of_lt second] at same
    exact (List.getElem?_inj (by rw [List.length_take]; omega) once).mp same
  exact
    { earlier
      here := (formAt_eq ..).trans here
      there := (formAt_eq ..).trans there
      only := fun index before same => apart before earlier (same.trans ((formAt_eq ..).trans there).symm)
      least := fun index bounded before less same => Nat.ne_of_lt less (apart (less.trans bounded) bounded same) }

/-- A pool has all the constants of the list exactly if no two have one form. -/
theorem exists_ofList : (∃ pool, ofList constants = .ok pool) ↔ (constants.map canonical).Nodup := by
  constructor
  · rintro ⟨pool, made⟩
    obtain ⟨same, stored⟩ := ofList_eq_ok.mp made
    exact same ▸ stored.once
  · intro once
    refine ⟨⟨(constants.map canonical).toArray⟩, ofList_eq_ok.mpr ⟨by simp, ?_, by simpa using once⟩⟩
    intro constant member
    obtain ⟨spelled, -, rfl⟩ : ∃ spelled ∈ constants, spelled.canonical = constant := by simpa using member
    exact spelled.canonical_canonical

theorem getElem?_of_ofList (made : ofList constants = .ok pool) (index : Nat) :
    pool.items[index]? = formAt constants index := by
  rw [formAt_eq, ← (ofList_eq_ok.mp made).1, Array.getElem?_toList]

theorem ofJson_document (short : Short (constants.flatMap Constant.positions)) :
    ofJson (document constants) = (ofList constants).mapError .repeatedConstant := by
  have listed := (Carries.list carries_constant).reads constants short
  cases made : ofList constants <;> simp [document, ofJson, ofItems, asRecord_of_nodup, field, listed, made] <;> rfl

/-- Every list of constants is read as a pool that has the canonical form of each at its position, or its first
repetition is reported; and what was read is written and read again as it is. -/
theorem document_read_exactly (short : Short (constants.flatMap Constant.positions)) :
    ((∃ pool, ofJson (document constants) = .ok pool) ↔ (constants.map Constant.canonical).Nodup) ∧
    (∀ pool, ofJson (document constants) = .ok pool →
      (∀ index, pool.items[index]? = formAt constants index) ∧ ofJson pool.toJson = .ok pool) ∧
    ∀ error, ofJson (document constants) = .error error →
      ∃ repeated, error = .repeatedConstant repeated ∧ FirstRepeated constants repeated := by
  rw [ofJson_document short]
  have made {pool : Pool} : (ofList constants).mapError DecodeError.repeatedConstant = .ok pool ↔
      ofList constants = .ok pool := by
    cases ofList constants <;> simp [Except.mapError]
  simp only [made]
  refine ⟨exists_ofList, fun pool read => ⟨getElem?_of_ofList read, ?_⟩, fun error failed => ?_⟩
  · have known := ofJson_document short
    rw [read] at known
    obtain ⟨stored, fits⟩ := canonical_and_short_of_ofJson known
    exact ofJson_toJson stored fits
  · cases read : ofList constants with
    | ok pool => cases read ▸ failed
    | error repeated =>
      cases read ▸ failed
      exact ⟨repeated, rfl, firstRepeated_of_ofList read⟩

/-- A pair that is spelled out, and again by its element. -/
def spelledTwice : List Constant :=
  [.scalar (.u32 7), .composite (.vector .u32 2) [⟨0⟩, ⟨0⟩], .scalar (.i32 7), .splat (.vector .u32 2) ⟨0⟩ 2]

theorem spelledTwice_read_exactly : Short (spelledTwice.flatMap Constant.positions) ∧
    ofJson (document spelledTwice) = .error (.repeatedConstant ⟨3, 1, .splat (.vector .u32 2) ⟨0⟩ 2⟩) ∧
    FirstRepeated spelledTwice ⟨3, 1, .splat (.vector .u32 2) ⟨0⟩ 2⟩ := by
  have short : Short (spelledTwice.flatMap Constant.positions) := by decide
  have failed : ofJson (document spelledTwice) =
      .error (.repeatedConstant ⟨3, 1, .splat (.vector .u32 2) ⟨0⟩ 2⟩) := by
    rw [ofJson_document short]
    decide +kernel
  obtain ⟨repeated, same, first⟩ := (document_read_exactly short).2.2 _ failed
  cases same
  exact ⟨short, failed, first⟩

end Shader.Pool
