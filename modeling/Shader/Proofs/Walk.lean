import Mathlib.Data.List.Nodup
import Mathlib.Data.List.Pairwise
import Shader.Proofs.Nesting

/-!
The walk over the blocks of a function.

The walk lists a block and then, for each of its constructs, what is listed for the blocks of the
construct. Apart from the block it starts at, it lists exactly the blocks that constructs own, as often as
they are owned. So where no block is listed twice the blocks are a tree: every block but the first has one
owner, and of two blocks around a third one, one is around the other.
-/
namespace Shader

open List

variable {second outer inner : BlockId} {id : InstId}

theorem perm_flatten_of_each {α β : Type} {heads : α → List β} {under : β → List β} {as : List α}
    {lists : List (List β)}
    (each : Forall₂ (fun a list => (heads a ++ list.flatMap under).Perm list) as lists) :
    (as.flatMap heads ++ lists.flatten.flatMap under).Perm lists.flatten := by
  classical
  induction each with
  | nil => exact .refl _
  | cons first _ ih =>
    rw [perm_iff_count] at first ih ⊢
    intro b
    have here := first b
    have later := ih b
    simp only [flatMap_cons, flatten_cons, flatMap_append, count_append] at here later ⊢
    omega

/-- What is listed once is listed for one member. -/
theorem eq_of_mem_flatMap {α β : Type} {f : α → List β} {list : List α} (once : (list.flatMap f).Nodup)
    {first second : α} {b : β} (one : first ∈ list) (two : second ∈ list) (listed : b ∈ f first)
    (listed' : b ∈ f second) : first = second := by
  by_contra different
  have apart := (nodup_flatMap.mp once).2
  have : Std.Symm (Function.onFun Disjoint f) := ⟨fun _ _ disjoint _ here there => disjoint there here⟩
  exact apart.forall one two different listed listed'

namespace Module

variable {m : Module}
variable {α : Type} {visit : BlockId → Except Fault (List α)} {collected : List α}

/-- The instructions of a block. -/
def instsOf (m : Module) (block : BlockId) : List InstId :=
  match m.block block with
  | .ok b => b.insts
  | .error _ => []

/-- The blocks that an instruction owns. -/
def blocksOf (m : Module) (id : InstId) : List BlockId :=
  match m.inst id with
  | .ok inst => inst.kind.children
  | .error _ => []

theorem instsOf_eq {block : BlockId} {b : Block} (found : m.block block = .ok b) : m.instsOf block = b.insts := by
  simp [instsOf, found]

theorem blocksOf_eq {inst : Inst} (held : m.inst id = .ok inst) : m.blocksOf id = inst.kind.children := by
  simp [blocksOf, held]

theorem exists_of_mem_instsOf {block : BlockId} (member : id ∈ m.instsOf block) :
    ∃ b, m.block block = .ok b ∧ id ∈ b.insts := by
  unfold instsOf at member
  split at member
  · exact ⟨_, ‹_›, member⟩
  · cases member

theorem exists_of_mem_blocksOf {block : BlockId} (owned : block ∈ m.blocksOf id) :
    ∃ inst, m.inst id = .ok inst ∧ block ∈ inst.kind.children := by
  unfold blocksOf at owned
  split at owned
  · exact ⟨_, ‹_›, owned⟩
  · cases owned

/-- A block that is met on the way down from another one. -/
inductive Under (m : Module) (outer : BlockId) : BlockId → Prop where
  | refl : Under m outer outer
  | child {block inner : BlockId} {b : Block} {id : InstId} {inst : Inst} (under : Under m outer block)
      (found : m.block block = .ok b) (member : id ∈ b.insts) (held : m.inst id = .ok inst)
      (owned : inner ∈ inst.kind.children) : Under m outer inner

theorem Under.trans {first third : BlockId} (upper : m.Under first second) (lower : m.Under second third) :
    m.Under first third := by
  induction lower with
  | refl => exact upper
  | child _ found member held owned ih => exact .child ih found member held owned

/-- The block holds the construct, which owns the other block. -/
structure Holds (m : Module) (outer : BlockId) (id : InstId) (inner : BlockId) : Prop where
  inst : id ∈ m.instsOf outer
  block : inner ∈ m.blocksOf id

theorem Holds.under (holds : m.Holds outer id inner) : m.Under outer inner := by
  obtain ⟨b, found, member⟩ := exists_of_mem_instsOf holds.inst
  obtain ⟨inst, held, owned⟩ := exists_of_mem_blocksOf holds.block
  exact .child .refl found member held owned

/-- A block under another one is that one or is owned by a construct in a block under it. -/
theorem Under.last (under : m.Under outer inner) :
    inner = outer ∨ ∃ block id, m.Under outer block ∧ m.Holds block id inner := by
  cases under with
  | refl => exact .inl rfl
  | @child block _ b id inst above found member held owned =>
    exact .inr ⟨block, id, above, by rwa [instsOf_eq found], by rwa [blocksOf_eq held]⟩

/-- A block under another one is that one or is under a block that one of its constructs owns. -/
theorem Under.first (under : m.Under outer inner) : inner = outer ∨
    ∃ b id inst child, m.block outer = .ok b ∧ id ∈ b.insts ∧ m.inst id = .ok inst ∧
      child ∈ inst.kind.children ∧ m.Under child inner := by
  induction under with
  | refl => exact .inl rfl
  | @child block inner b id inst above found member held owned ih =>
    rcases ih with rfl | ⟨b', id', inst', child, found', member', held', owned', below⟩
    · exact .inr ⟨b, id, inst, inner, found, member, held, owned, .refl⟩
    · exact .inr ⟨b', id', inst', child, found', member', held', owned', .child below found member held owned⟩

/-- Every block that is met on the way down is visited. -/
theorem visited_of_under {depth : Nat} {block inner : BlockId}
    (collects : m.collectWithin visit depth block = .ok collected)
    (under : m.Under block inner) : ∃ found, visit inner = .ok found := by
  induction depth generalizing block collected with
  | zero => cases collects
  | succ depth ih =>
    obtain ⟨b, found, nested, held, visited, each, rfl⟩ := collectWithin_succ.mp collects
    rcases under.first with rfl | ⟨b', id, inst, child, held', isInst, known, owned, under⟩
    · exact ⟨found, visited⟩
    · cases held.symm.trans held'
      obtain ⟨list, listed, inst', lists, known', children, rfl⟩ := forall₂_mem_right each.flip isInst
      cases known.symm.trans known'
      obtain ⟨part, -, below⟩ := forall₂_mem_right children.flip owned
      exact ih below under

/-- What is collected is what is found in the blocks that are met on the way down. -/
theorem mem_collectWithin {depth : Nat} {block : BlockId} {a : α}
    (collects : m.collectWithin visit depth block = .ok collected) :
    a ∈ collected ↔ ∃ inner found, m.Under block inner ∧ visit inner = .ok found ∧ a ∈ found := by
  induction depth generalizing block collected with
  | zero => cases collects
  | succ depth ih =>
    obtain ⟨b, found, nested, held, visited, each, rfl⟩ := collectWithin_succ.mp collects
    rw [mem_append, mem_flatten]
    constructor
    · rintro (here | ⟨list, listed, member⟩)
      · exact ⟨block, found, .refl, visited, here⟩
      · obtain ⟨id, isInst, inst, lists, known, children, rfl⟩ := forall₂_mem_right each listed
        obtain ⟨part, isPart, member⟩ := mem_flatten.mp member
        obtain ⟨child, owned, below⟩ := forall₂_mem_right children isPart
        obtain ⟨inner, among, under, visits, member⟩ := (ih below).mp member
        exact ⟨inner, among, .trans (.child .refl held isInst known owned) under, visits, member⟩
    · rintro ⟨inner, among, under, visits, member⟩
      rcases under.first with rfl | ⟨b', id, inst, child, held', isInst, known, owned, under⟩
      · cases visited.symm.trans visits
        exact .inl member
      · cases held.symm.trans held'
        obtain ⟨list, listed, inst', lists, known', children, rfl⟩ := forall₂_mem_right each.flip isInst
        cases known.symm.trans known'
        obtain ⟨part, isPart, below⟩ := forall₂_mem_right children.flip owned
        have among := (ih below).mpr ⟨inner, among, under, visits, member⟩
        exact .inr ⟨_, listed, mem_flatten.mpr ⟨part, isPart, among⟩⟩

/-- The walk from a block whose constructs nest less than `depth` deep. -/
def Walks (m : Module) (depth : Nat) (block : BlockId) (walked : List BlockId) : Prop :=
  m.collectWithin (fun block => return [block]) depth block = .ok walked

variable {depth : Nat} {block : BlockId} {walked : List BlockId}

theorem walks_succ : m.Walks (depth + 1) block walked ↔ ∃ b nested, m.block block = .ok b ∧
    Forall₂ (fun id list => ∃ inst lists, m.inst id = .ok inst ∧
      Forall₂ (m.Walks depth) inst.kind.children lists ∧ list = lists.flatten) b.insts nested ∧
    walked = block :: nested.flatten := by
  rw [Walks, collectWithin_succ]
  constructor
  · rintro ⟨b, _, nested, found, ⟨⟩, each, rfl⟩
    exact ⟨b, nested, found, each, rfl⟩
  · rintro ⟨b, nested, found, each, rfl⟩
    exact ⟨b, [block], nested, found, rfl, each, rfl⟩

/-- After its start the walk lists the blocks that are owned by constructs of listed blocks. -/
theorem Walks.perm (walks : m.Walks depth block walked) : ∃ below, walked = block :: below ∧
    (walked.flatMap fun outer => (m.instsOf outer).flatMap m.blocksOf).Perm below := by
  induction depth generalizing block walked with
  | zero => cases walks
  | succ depth ih =>
    obtain ⟨b, nested, found, each, rfl⟩ := walks_succ.mp walks
    refine ⟨_, rfl, ?_⟩
    rw [flatMap_cons, instsOf_eq found]
    refine perm_flatten_of_each (each.imp fun id list inner => ?_)
    obtain ⟨inst, lists, held, children, rfl⟩ := inner
    have one : Forall₂ (fun child list => ([child] ++ list.flatMap fun outer =>
        (m.instsOf outer).flatMap m.blocksOf).Perm list) inst.kind.children lists := by
      refine children.imp fun child list walks => ?_
      obtain ⟨below, same, perm⟩ := ih walks
      have longer := perm.cons child
      rwa [← same] at longer
    have all := perm_flatten_of_each one
    rwa [flatMap_singleton', ← blocksOf_eq held] at all

theorem Walks.mem_iff (walks : m.Walks depth block walked) : inner ∈ walked ↔ m.Under block inner := by
  rw [mem_collectWithin walks]
  constructor
  · rintro ⟨_, _, under, visits, member⟩
    cases visits
    rwa [mem_singleton.mp member]
  · exact fun under => ⟨inner, [inner], under, rfl, mem_singleton_self inner⟩

/-- What is met on the walk exists. -/
theorem Walks.found (walks : m.Walks depth block walked) (under : m.Under block inner) :
    ∃ b, m.block inner = .ok b ∧ ∀ id ∈ b.insts, ∃ inst, m.inst id = .ok inst := by
  rw [← walks.mem_iff] at under
  induction depth generalizing block walked with
  | zero => cases walks
  | succ depth ih =>
    obtain ⟨b, nested, found, each, rfl⟩ := walks_succ.mp walks
    rcases mem_cons.mp under with rfl | member
    · refine ⟨b, found, fun id member => ?_⟩
      obtain ⟨list, -, inst, lists, held, -⟩ := forall₂_mem_right each.flip member
      exact ⟨inst, held⟩
    · obtain ⟨list, listed, member⟩ := mem_flatten.mp member
      obtain ⟨id, -, inst, lists, -, children, rfl⟩ := forall₂_mem_right each listed
      obtain ⟨list, listed, member⟩ := mem_flatten.mp member
      obtain ⟨child, -, walks⟩ := forall₂_mem_right children listed
      exact ih walks member

/-- The blocks under the first one are nested in each other, and neither they nor their instructions are
owned twice. -/
structure Nested (m : Module) (entry : BlockId) (walked : List BlockId) : Prop where
  walk : m.blocksUnder entry = .ok walked
  blocks : walked.Nodup
  insts : (walked.flatMap m.instsOf).Nodup

namespace Nested

variable {entry : BlockId} (nested : m.Nested entry walked)

include nested

theorem walks : m.Walks (m.blocks.size + 1) entry walked := nested.walk

theorem mem_iff : inner ∈ walked ↔ m.Under entry inner := nested.walks.mem_iff

/-- The blocks that constructs own, each as often as it is owned. -/
theorem owned_nodup : entry ∉ walked.flatMap (fun outer => (m.instsOf outer).flatMap m.blocksOf) ∧
    (walked.flatMap fun outer => (m.instsOf outer).flatMap m.blocksOf).Nodup := by
  obtain ⟨below, rfl, perm⟩ := nested.walks.perm
  have once := nested.blocks
  rw [nodup_cons] at once
  exact ⟨fun member => once.1 (perm.subset member), perm.nodup_iff.mpr once.2⟩

/-- The first block is owned by no construct. -/
theorem entry_free (under : m.Under entry outer) : ¬ m.Holds outer id entry := by
  intro holds
  refine nested.owned_nodup.1 (mem_flatMap.mpr ⟨outer, nested.mem_iff.mpr under, ?_⟩)
  exact mem_flatMap.mpr ⟨id, holds.inst, holds.block⟩

/-- An instruction is in one block. -/
theorem block_unique {first : BlockId} (upper : m.Under entry first) (upper' : m.Under entry second)
    (one : id ∈ m.instsOf first) (two : id ∈ m.instsOf second) : first = second :=
  eq_of_mem_flatMap nested.insts (nested.mem_iff.mpr upper) (nested.mem_iff.mpr upper') one two

/-- A construct owns a block once. -/
theorem children_nodup (under : m.Under entry outer) (member : id ∈ m.instsOf outer) : (m.blocksOf id).Nodup := by
  have each := (nodup_flatMap.mp nested.owned_nodup.2).1 outer (nested.mem_iff.mpr under)
  exact (nodup_flatMap.mp each).1 id member

/-- A block has one owner. -/
theorem owner_unique {first : BlockId} {other : InstId} (upper : m.Under entry first) (upper' : m.Under entry second)
    (one : m.Holds first id inner) (two : m.Holds second other inner) : first = second ∧ id = other := by
  have owned := nested.owned_nodup.2
  have pairs : ((walked.flatMap m.instsOf).flatMap m.blocksOf).Nodup := by rwa [flatMap_assoc]
  have here : id ∈ walked.flatMap m.instsOf :=
    mem_flatMap.mpr ⟨first, nested.mem_iff.mpr upper, one.inst⟩
  have there : other ∈ walked.flatMap m.instsOf :=
    mem_flatMap.mpr ⟨second, nested.mem_iff.mpr upper', two.inst⟩
  obtain rfl : id = other := eq_of_mem_flatMap pairs here there one.block two.block
  exact ⟨nested.block_unique upper upper' one.inst two.inst, rfl⟩

end Nested
end Module
end Shader
