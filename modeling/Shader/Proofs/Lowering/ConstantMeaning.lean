import Shader.Proofs.Lowering.ReadBack
import Shader.Proofs.Renumbering

/-!
A stored constant means what it was spelled as.

A composite of equal elements is stored as a splat. What can be asked of the pool about a constant has the same answer
for both spellings: the type, the elements and whether all scalars that it is built from are zero. The answers stay
the same while more constants are stored.
-/
namespace Shader

open List Relation Except Constant

namespace Pool

variable {pool larger : Pool} {id : ConstId} {depth : Nat}

/-- The scalar is one of those that the constant is built from. -/
def Reaches (pool : Pool) (id : ConstId) (value : Scalar) : Prop :=
  ∃ leaf, ReflTransGen pool.Contains id leaf ∧ pool.get leaf = .ok (.scalar value)

theorem reaches_iff {stored : Constant} {value : Scalar} (found : pool.get id = .ok stored) :
    pool.Reaches id value ↔ stored = .scalar value ∨ ∃ part ∈ stored.parts, pool.Reaches part value := by
  constructor
  · rintro ⟨leaf, way, isLeaf⟩
    rcases way.cases_head with rfl | ⟨part, ⟨other, same, member⟩, rest⟩
    · exact .inl (ok.inj (found.symm.trans isLeaf))
    · cases found.symm.trans same
      exact .inr ⟨part, member, leaf, rest, isLeaf⟩
  · rintro (rfl | ⟨part, member, leaf, way, isLeaf⟩)
    · exact ⟨id, .refl, found⟩
    · exact ⟨leaf, .head ⟨stored, found, member⟩ way, isLeaf⟩

/-- The answer is whether all scalars that a constant is built from are zero. -/
theorem allZeroWithin_iff {zero : Bool} (asked : pool.allZeroWithin depth id = .ok zero) :
    zero = true ↔ ∀ value, pool.Reaches id value → value.isZero = true := by
  induction depth generalizing id zero with
  | zero => cases asked
  | succ depth ih =>
    obtain ⟨stored, found, rest⟩ := bind_eq_ok.mp asked
    simp only [reaches_iff found]
    cases stored with
    | scalar value =>
      cases rest
      simp [parts]
    | splat ty element count => simpa [parts] using ih rest
    | composite ty elements =>
      simp only [reduceCtorEq, false_or, parts]
      cases zero with
      | true =>
        have each := allM_eq_ok_true rest
        simp only [true_iff]
        rintro value ⟨part, member, reaches⟩
        exact (ih (each part member)).mp rfl value reaches
      | false =>
        obtain ⟨part, member, failed⟩ := allM_eq_ok_false rest
        simp only [Bool.false_eq_true, false_iff]
        intro all
        exact Bool.noConfusion ((ih failed).mpr fun value reaches => all value ⟨part, member, reaches⟩)

/-- The question is answered if the constants that it comes to are stored and the way to them is short. -/
theorem allZeroWithin_total (shallow : Shallow pool.Contains depth id)
    (stored : ∀ inner, ReflTransGen pool.Contains id inner → ∃ constant, pool.get inner = .ok constant) :
    ∃ zero, pool.allZeroWithin depth id = .ok zero := by
  have all {test : ConstId → Except Fault Bool} {list : List ConstId} (each : ∀ a ∈ list, ∃ zero, test a = .ok zero) :
      ∃ zero, list.allM test = .ok zero := by
    induction list with
    | nil => exact ⟨true, rfl⟩
    | cons a rest ih =>
      obtain ⟨zero, first⟩ := each a mem_cons_self
      rw [allM_cons, first]
      cases zero with
      | false => exact ⟨false, rfl⟩
      | true => exact ih fun b member => each b (mem_cons_of_mem _ member)
  induction depth generalizing id with
  | zero => cases shallow
  | succ depth ih =>
    obtain ⟨constant, found⟩ := stored id .refl
    have each (part : ConstId) (member : part ∈ constant.parts) : ∃ zero, pool.allZeroWithin depth part = .ok zero :=
      ih (shallow part ⟨constant, found, member⟩) fun inner way => stored inner (.head ⟨constant, found, member⟩ way)
    rw [allZeroWithin, found]
    cases constant with
    | scalar value => exact ⟨value.isZero, rfl⟩
    | composite ty elements => exact all each
    | splat ty element count => exact each element (mem_singleton_self _)

/-- The answer does not change as constants are stored. -/
theorem allZeroWithin_keep (within : pool.Within larger) {more : Nat} (deeper : depth ≤ more) :
    Follows Eq (pool.allZeroWithin depth id) (larger.allZeroWithin more id) := by
  induction depth generalizing id more with
  | zero => exact .error
  | succ depth ih =>
    obtain ⟨less, rfl⟩ : ∃ less, more = less + 1 := Nat.exists_eq_add_of_le' (by omega)
    have stored : Follows Eq (pool.get id) (larger.get id) := fun constant found => ⟨constant, within _ _ found, rfl⟩
    refine stored.bind fun constant _ same => ?_
    subst same
    cases constant with
    | scalar value => exact .pure rfl
    | composite ty elements =>
      have each : Follows Eq (elements.allM (pool.allZeroWithin depth))
        ((elements.map fun element => element).allM (larger.allZeroWithin less)) := .allM fun _ _ => ih (by omega)
      rwa [map_id'] at each
    | splat ty element count => exact ih (by omega)

theorem allZero_keep (within : pool.Within larger) (grown : pool.size ≤ larger.size) {zero : Bool}
    (asked : pool.allZero id = .ok zero) : larger.allZero id = .ok zero := by
  obtain ⟨_, same, rfl⟩ := allZeroWithin_keep within (Nat.succ_le_succ grown) zero asked
  exact same

theorem size_le_insertAll (pool : Pool) (constants : List Constant) : pool.size ≤ (pool.insertAll constants).size := by
  induction constants generalizing pool with
  | nil => exact le_refl _
  | cons constant rest ih =>
    refine le_trans ?_ (ih _)
    rw [size_insert]
    exact Nat.le_add_right _ _

/-- The elements are in place for both spellings of a constant. -/
theorem element_of_canonical {constant : Constant} {elements : List ConstId}
    (found : pool.get id = .ok constant.canonical)
    (spelled : constant.elements? = some elements) (index : Nat) (bound : index < elements.length) :
    pool.element id index = .ok elements[index] := by
  unfold canonical at found
  split at found
  · rename_i first rest
    split at found
    · rename_i equal
      cases spelled
      have same : (first :: rest)[index] = first := by
        rcases mem_cons.mp (getElem_mem bound) with isFirst | member
        · exact isFirst
        · simpa using all_eq_true.mp equal _ member
      rw [element, found, same]
      rfl
    · exact element_eq_ok found spelled index bound
  · exact element_eq_ok found spelled index bound

/-- The pool answers for the position as the constant is spelled: by its type, its elements, and the scalars that are
reached through them. -/
structure Means (pool : Pool) (id : ConstId) (constant : Constant) : Prop where
  typed : pool.typeOf id = .ok constant.ty
  element : ∀ {elements}, constant.elements? = some elements → ∀ index (bound : index < elements.length),
    pool.element id index = .ok elements[index]
  scalar : ∀ {value zero}, constant = .scalar value → pool.allZero id = .ok zero → zero = value.isZero
  zero : ∀ {elements zero}, constant.elements? = some elements → elements ≠ [] → pool.allZero id = .ok zero →
    (zero = true ↔ ∀ element ∈ elements, ∀ value, pool.Reaches element value → value.isZero = true)

theorem means_of_get {constant : Constant} (found : pool.get id = .ok constant.canonical) : pool.Means id constant where
  typed := typeOf_eq_ok.mpr ⟨_, found, constant.canonical_ty⟩
  element := element_of_canonical found
  scalar := by
    rintro value zero rfl asked
    obtain ⟨stored, same, rest⟩ := bind_eq_ok.mp asked
    cases found.symm.trans same
    exact (ok.inj rest).symm
  zero := by
    intro elements zero spelled some asked
    have parts (part : ConstId) : part ∈ constant.parts ↔ part ∈ elements := by
      cases constant with
      | scalar => cases spelled
      | composite =>
        cases spelled
        rfl
      | splat ty element count =>
        cases spelled
        simp_all [parts, mem_replicate]
    have whole : ∀ value, constant.canonical ≠ .scalar value := by
      intro value same
      unfold canonical at same
      split at same
      · split at same <;> cases same
      · subst same
        cases spelled
    rw [allZeroWithin_iff asked]
    simp only [reaches_iff found, whole, false_or, mem_parts_canonical, parts]
    constructor
    · intro all element member value reaches
      exact all value ⟨element, member, reaches⟩
    · rintro all value ⟨element, member, reaches⟩
      exact all element member value reaches

/-- Storing a constant keeps its meaning, whatever is stored later. Whether it is all zeros is answered if it is built
from stored constants, none of them from itself. -/
theorem insert_means (pool : Pool) (constant : Constant) :
    constant.canonical.canonical = constant.canonical ∧
    (∀ later, (pool.insertAll (constant :: later)).Means (pool.insert constant).1 constant) ∧
    (∀ later zero, (pool.insert constant).2.allZero (pool.insert constant).1 = .ok zero →
      (pool.insertAll (constant :: later)).allZero (pool.insert constant).1 = .ok zero) ∧
    (Acyclic (pool.insert constant).2.Contains →
      (∀ inner, ReflTransGen (pool.insert constant).2.Contains (pool.insert constant).1 inner →
        ∃ stored, (pool.insert constant).2.get inner = .ok stored) →
      ∃ zero, (pool.insert constant).2.allZero (pool.insert constant).1 = .ok zero) := by
  refine ⟨constant.canonical_canonical, fun later => ?_, fun later zero asked => ?_, fun acyclic stored => ?_⟩
  · exact means_of_get (within_insertAll _ later _ _ (pool.get_insert constant))
  · exact allZero_keep (within_insertAll _ later) (size_le_insertAll _ later) asked
  · exact allZeroWithin_total (tabled_contains.shallow acyclic _) stored

/-- A pair of zeros is spelled out and stored behind a zero, before another number. -/
theorem zeros_mean :
    (insertAll ⟨#[.scalar (.f32 0)]⟩ [.composite (.vector .f32 2) [⟨0⟩, ⟨0⟩], .scalar (.u32 7)]).element ⟨1⟩ 1 =
      .ok ⟨0⟩ ∧
    (insertAll ⟨#[.scalar (.f32 0)]⟩ [.composite (.vector .f32 2) [⟨0⟩, ⟨0⟩], .scalar (.u32 7)]).allZero ⟨1⟩ =
      .ok true := by
  obtain ⟨-, means, keeps, answers⟩ := insert_means ⟨#[.scalar (.f32 0)]⟩ (.composite (.vector .f32 2) [⟨0⟩, ⟨0⟩])
  have made : insert ⟨#[.scalar (.f32 0)]⟩ (.composite (.vector .f32 2) [⟨0⟩, ⟨0⟩]) =
      (⟨1⟩, ⟨#[.scalar (.f32 0), .splat (.vector .f32 2) ⟨0⟩ 2]⟩) := by decide +kernel
  rw [made] at means keeps answers
  have earlier : ∀ position (bound : position < 2), ∀ part ∈ (#[.scalar (.f32 0), .splat (.vector .f32 2) ⟨0⟩ 2] :
      Array Constant)[position].parts, part.index < position := by decide
  obtain ⟨zero, asked⟩ := answers (acyclic_of_earlier earlier) fun inner way => by
    rcases way.cases_tail with rfl | ⟨outer, -, stored, found, member⟩
    · exact ⟨_, rfl⟩
    · obtain ⟨bound, rfl⟩ := Array.getElem?_eq_some_iff.mp (get_eq_ok.mp found)
      have before := (earlier outer.index bound inner member).trans bound
      exact ⟨_, get_eq_ok.mpr (Array.getElem?_eq_getElem before)⟩
  obtain rfl : zero = true := by
    have same : ok true = ok zero := (by decide +kernel : _ = _).trans asked
    exact (ok.inj same).symm
  exact ⟨(means [.scalar (.u32 7)]).element rfl 1 (by decide), keeps _ true asked⟩

end Pool
end Shader
