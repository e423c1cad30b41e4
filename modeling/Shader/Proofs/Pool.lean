import Mathlib.Data.List.Nodup
import Shader.Constant

/-!
The pool addresses constants by what they are.

Every constant is stored in its canonical form, and no two positions hold the same constant. So the position that a
constant is given says which constant it is, for every spelling of it and for as long as the pool is in use.
-/
namespace Shader

open List Constant

namespace Constant

theorem canonical_canonical (constant : Constant) : constant.canonical.canonical = constant.canonical := by
  cases constant with
  | scalar | splat => rfl
  | composite ty elements =>
    cases elements with
    | nil => rfl
    | cons first rest =>
      by_cases equal : rest.all (· = first)
      · simp only [canonical, equal, if_true]
      · simp only [canonical, equal, Bool.false_eq_true, if_false]

/-- A composite of equal elements is spelled as a splat, too. -/
theorem canonical_ty (constant : Constant) : constant.canonical.ty = constant.ty := by
  unfold canonical
  split
  · split <;> rfl
  · rfl

theorem canonical_replicate (ty : Ty) (element : ConstId) {count : UInt32} (some : count ≠ 0) :
    (composite ty (replicate count.toNat element)).canonical = splat ty element count := by
  obtain ⟨less, same⟩ : ∃ less, count.toNat = less + 1 :=
    Nat.exists_eq_succ_of_ne_zero fun zero => some (UInt32.toNat_inj.mp zero)
  have equal : (replicate less element).all (· = element) := by simp
  rw [same, replicate_succ, canonical, if_pos equal, length_replicate, ← same, UInt32.ofNat_toNat]

end Constant

namespace Pool

variable {pool : Pool} {constant : Constant}
variable {id : ConstId} {constants : List Constant}

theorem get_eq_ok : pool.get id = .ok constant ↔ constant ∈ pool.items[id.index]? := by
  unfold get
  split <;> simp_all

theorem typeOf_eq_ok {ty : Ty} : pool.typeOf id = .ok ty ↔ ∃ stored, pool.get id = .ok stored ∧ stored.ty = ty := by
  rw [typeOf]
  cases pool.get id <;> simp [bind, Except.bind, pure, Except.pure]

/-- A constant is stored where it is found. -/
theorem getElem?_of_position? {index : Nat} (found : pool.position? constant = some index) :
    pool.items[index]? = some constant := by
  obtain ⟨bound, same, -⟩ := Array.findIdx?_eq_some_iff_getElem.mp found
  rw [Array.getElem?_eq_getElem bound]
  simpa using same

theorem position?_eq_none : pool.position? constant = none ↔ constant ∉ pool.items := by
  rw [position?, Array.findIdx?_eq_none_iff]
  simp only [decide_eq_false_iff_not]
  exact ⟨fun apart member => apart constant member rfl, fun absent other member same => absent (same ▸ member)⟩

theorem position?_of_getElem? (once : pool.items.toList.Nodup) {index : Nat}
    (stored : pool.items[index]? = some constant) : pool.position? constant = some index := by
  cases found : pool.position? constant with
  | none => exact absurd (Array.mem_of_getElem? stored) (position?_eq_none.mp found)
  | some first =>
    have earlier := getElem?_of_position? found
    rw [← Array.getElem?_toList] at stored earlier
    have bound := (List.getElem?_eq_some_iff.mp earlier).1
    exact congrArg some ((List.getElem?_inj bound once).mp (earlier.trans stored.symm))

/-- Every constant of the one pool stands at its position in the other. -/
def Within (smaller larger : Pool) : Prop :=
  ∀ id constant, smaller.get id = .ok constant → larger.get id = .ok constant

theorem Within.refl (pool : Pool) : pool.Within pool := fun _ _ found => found

theorem Within.trans {first second third : Pool} (earlier : first.Within second)
    (later : second.Within third) : first.Within third :=
  fun id constant found => later id constant (earlier id constant found)

/-- A constant that is stored already changes nothing. -/
theorem insert_of_mem (stored : constant.canonical ∈ pool.items) : (pool.insert constant).2 = pool := by
  cases found : pool.position? constant.canonical with
  | none => exact absurd stored (position?_eq_none.mp found)
  | some index => simp [insert, found]

theorem insert_of_not_mem (absent : constant.canonical ∉ pool.items) :
    pool.insert constant = (⟨pool.size⟩, ⟨pool.items.push constant.canonical⟩) := by
  simp [insert, position?_eq_none.mpr absent]

theorem within_insert (pool : Pool) (constant : Constant) : pool.Within (pool.insert constant).2 := by
  intro id found held
  by_cases stored : constant.canonical ∈ pool.items
  · rwa [insert_of_mem stored]
  · rw [get_eq_ok, Option.mem_def] at held ⊢
    have bound := (Array.getElem?_eq_some_iff.mp held).1
    rw [insert_of_not_mem stored, Array.getElem?_push_lt bound, ← Array.getElem?_eq_getElem bound, held]

theorem get_insert (pool : Pool) (constant : Constant) :
    (pool.insert constant).2.get (pool.insert constant).1 = .ok constant.canonical := by
  rw [get_eq_ok, Option.mem_def]
  cases found : pool.position? constant.canonical with
  | some index => simpa [insert, found] using getElem?_of_position? found
  | none => simp [insert, found, size]

/-- The pool grows by one constant if it does not have the constant yet. -/
theorem size_insert (pool : Pool) (constant : Constant) :
    (pool.insert constant).2.size = pool.size + if constant.canonical ∈ pool.items then 0 else 1 := by
  by_cases stored : constant.canonical ∈ pool.items
  · rw [insert_of_mem stored, if_pos stored, Nat.add_zero]
  · rw [insert_of_not_mem stored, if_neg stored, size, Array.size_push, size]

/-- Every constant is stored as the one spelling it has in a pool, and at one position. -/
structure Canonical (pool : Pool) : Prop where
  canonical : ∀ constant ∈ pool.items, constant.canonical = constant
  once : pool.items.toList.Nodup

theorem canonical_empty : empty.Canonical := ⟨by simp [empty], by simp [empty]⟩

theorem Canonical.push (stored : pool.Canonical) (absent : constant.canonical ∉ pool.items) :
    Canonical ⟨pool.items.push constant.canonical⟩ := by
  constructor
  · intro other member
    rcases Array.mem_push.mp member with old | rfl
    · exact stored.canonical other old
    · exact constant.canonical_canonical
  · rw [Array.toList_push, nodup_append]
    refine ⟨stored.once, nodup_singleton _, fun other member last isLast same => absent ?_⟩
    rw [← mem_singleton.mp isLast, ← same]
    exact Array.mem_toList_iff.mp member

theorem Canonical.insert (stored : pool.Canonical) (constant : Constant) : (pool.insert constant).2.Canonical := by
  by_cases member : constant.canonical ∈ pool.items
  · rwa [insert_of_mem member]
  · rw [insert_of_not_mem member]
    exact stored.push member

/-- What is read behind the constants of a pool is stored at its own place, and there are no repetitions. -/
theorem append_eq_ok {result : Pool} (stored : pool.Canonical) : pool.append constants = .ok result ↔
      result.items.toList = pool.items.toList ++ constants.map canonical ∧ result.Canonical := by
  induction constants generalizing pool with
  | nil =>
    rw [append, map_nil, append_nil]
    constructor
    · rintro ⟨⟩
      exact ⟨rfl, stored⟩
    · rintro ⟨same, -⟩
      obtain ⟨items⟩ := pool
      obtain ⟨others⟩ := result
      obtain rfl : others = items := Array.toList_inj.mp same
      rfl
  | cons constant rest ih =>
    have next : pool.items.toList ++ (constant :: rest).map canonical =
        (pool.items.push constant.canonical).toList ++ rest.map canonical := by
      simp
    cases found : pool.position? constant.canonical with
    | none =>
      have absent := position?_eq_none.mp found
      rw [next, ← ih (stored.push absent)]
      simp [append, found]
    | some first =>
      -- The constant is there already, so no pool can hold it at its own place.
      simp only [append, found, reduceCtorEq, false_iff]
      rintro ⟨same, whole⟩
      have member : constant.canonical ∈ pool.items.toList :=
        Array.mem_toList_iff.mpr (Array.mem_of_getElem? (getElem?_of_position? found))
      have once := whole.once
      rw [same, nodup_append] at once
      exact once.2.2 _ member _ (by simp) rfl

theorem ofList_eq_ok {result : Pool} : ofList constants = .ok result ↔
    result.items.toList = constants.map canonical ∧ result.Canonical := by
  exact append_eq_ok canonical_empty

/-- The pools that can be made: from nothing or from a list that is read, by storing constants. -/
inductive Built : Pool → Prop where
  | empty : Built empty
  | read {constants : List Constant} {pool : Pool} (reads : ofList constants = .ok pool) : Built pool
  | insert {pool : Pool} (built : Built pool) (constant : Constant) : Built (pool.insert constant).2

theorem Built.canonical (built : Built pool) : pool.Canonical := by
  induction built with
  | empty => exact canonical_empty
  | read reads => exact (ofList_eq_ok.mp reads).2
  | insert _ constant ih => exact ih.insert constant

/-- The pool after storing constants one after the other. -/
def insertAll (pool : Pool) (constants : List Constant) : Pool :=
  constants.foldl (fun pool constant => (pool.insert constant).2) pool

theorem within_insertAll (pool : Pool) (constants : List Constant) : pool.Within (pool.insertAll constants) := by
  induction constants generalizing pool with
  | nil => exact .refl pool
  | cons constant rest ih => exact (pool.within_insert constant).trans (ih _)

theorem Canonical.insertAll (stored : pool.Canonical) (constants : List Constant) :
    (pool.insertAll constants).Canonical := by
  induction constants generalizing pool with
  | nil => exact stored
  | cons constant rest ih => exact ih (stored.insert constant)

/-- A position that holds the constant is the one that it is given. -/
theorem insert_fst_of_get (stored : pool.Canonical) (held : pool.get id = .ok constant.canonical) :
    (pool.insert constant).1 = id := by
  have found := position?_of_getElem? stored.once (get_eq_ok.mp held)
  simp [insert, found]

/-- Two constants get one position exactly if they are the same, whatever is stored between them. -/
theorem insert_fst_eq_iff (stored : pool.Canonical) (first second : Constant) (between : List Constant) :
    ((pool.insert first).2.insertAll between |>.insert second).1 = (pool.insert first).1 ↔
      first.canonical = second.canonical := by
  have held := within_insertAll (pool.insert first).2 between _ _ (pool.get_insert first)
  constructor
  · intro same
    have kept := within_insert _ second _ _ held
    rw [← same, get_insert] at kept
    exact (Except.ok.inj kept).symm
  · intro same
    exact insert_fst_of_get ((stored.insert first).insertAll between) (same ▸ held)

/-- What a position of the pool means: the constant that was stored when it was given out, then and later. -/
structure ContentAddressed (pool : Pool) : Prop where
  canonical : ∀ constant ∈ pool.items, constant.canonical = constant
  once : pool.items.toList.Nodup
  stored : ∀ constant, (pool.insert constant).2.get (pool.insert constant).1 = .ok constant.canonical
  kept : ∀ {id constant}, pool.get id = .ok constant → ∀ later, (pool.insertAll later).get id = .ok constant
  shared : ∀ first second between,
    ((pool.insert first).2.insertAll between |>.insert second).1 = (pool.insert first).1 ↔
      first.canonical = second.canonical
  splat : ∀ ty element (count : UInt32), count ≠ 0 →
    pool.insert (.composite ty (replicate count.toNat element)) = pool.insert (.splat ty element count)
  grows : ∀ constant, (pool.insert constant).2.size = pool.size + if constant.canonical ∈ pool.items then 0 else 1

/-- Positions of every pool that can be made mean what was stored there. -/
theorem built_contentAddressed (built : Built pool) : pool.ContentAddressed where
  canonical := built.canonical.canonical
  once := built.canonical.once
  stored := pool.get_insert
  kept held later := within_insertAll pool later _ _ held
  shared := insert_fst_eq_iff built.canonical
  splat ty element count some := by
    rw [insert, insert, canonical_replicate ty element some]
    rfl
  grows := pool.size_insert

/-- A number and a pair of it, as they are read from a list that spells the pair out, and one more number. -/
def paired : Pool := (Pool.insert ⟨#[.scalar (.u32 7), .splat (.vector .u32 2) ⟨0⟩ 2]⟩ (.scalar (.u32 8))).2

theorem paired_contentAddressed : Built paired ∧ paired.size = 3 ∧
    (paired.insert (.splat (.vector .u32 2) ⟨0⟩ 2)).1 = ⟨1⟩ ∧ paired.ContentAddressed := by
  have reads : ofList [.scalar (.u32 7), .composite (.vector .u32 2) [⟨0⟩, ⟨0⟩]] =
      .ok ⟨#[.scalar (.u32 7), .splat (.vector .u32 2) ⟨0⟩ 2]⟩ := by decide +kernel
  have built : Built paired := .insert (.read reads) (.scalar (.u32 8))
  exact ⟨built, by decide +kernel, by decide +kernel, built_contentAddressed built⟩

end Pool
end Shader
