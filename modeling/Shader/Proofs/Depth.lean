import Mathlib.Logic.Relation
import Shader.Proofs.Pool
import Shader.Proofs.Walk

/-!
How deep definitions refer to each other.

A way along references leaves every node but the last by a reference that it holds, so the nodes are those of a table.
If no node is met on a way from itself, none is met twice, and the way ends before it has passed as many nodes as
there are. A walk that may go one node further is therefore never cut short. Blocks refer to the blocks that their
constructs own, structs to those in the types of their members, and constants to their elements.
-/
namespace Shader

open List Relation

variable {depth : Nat} {outer inner : BlockId}

section
variable {α : Type} {refers : α → α → Prop}

/-- No node is met on a way from itself. -/
def Acyclic (refers : α → α → Prop) : Prop := ∀ a, ¬ TransGen refers a a

theorem acyclic_of_lt {β : Type} [Preorder β] {rank : α → β} (up : ∀ a b, refers a b → rank a < rank b) :
    Acyclic refers := by
  intro a circle
  have lifted := circle.lift rank up
  rw [transGen_eq_self] at lifted
  exact lt_irrefl _ lifted

/-- Every way from a node passes fewer than `depth` nodes. -/
def Shallow (refers : α → α → Prop) : (depth : Nat) → α → Prop
  | 0, _ => False
  | depth + 1, a => ∀ b, refers a b → Shallow refers depth b

/-- A node that refers to others has a place of its own in a table of a given size. -/
structure Tabled (refers : α → α → Prop) (index : α → Nat) (size : Nat) : Prop where
  injective : Function.Injective index
  lt : ∀ {a b}, refers a b → index a < size

variable {index : α → Nat} {size : Nat}

theorem Tabled.length_le (tabled : Tabled refers index size) {path : List α} (once : path.Nodup)
    (known : ∀ a ∈ path, index a < size) : path.length ≤ size := by
  have within : path.map index ⊆ range size := by
    intro position member
    obtain ⟨a, listed, rfl⟩ := mem_map.mp member
    exact mem_range.mpr (known a listed)
  simpa using (subperm_of_subset (once.map tabled.injective) within).length_le

/-- `path` lists the nodes that were passed on the way to `a`, by induction on how many can still come. -/
theorem Tabled.shallow_below (tabled : Tabled refers index size) (acyclic : Acyclic refers) {path : List α}
    {a : α} (once : path.Nodup) (passed : ∀ b ∈ path, index b < size ∧ TransGen refers b a)
    (room : size < depth + path.length) : Shallow refers depth a := by
  induction depth generalizing path a with
  | zero => exact absurd (tabled.length_le once fun b member => (passed b member).1) (by omega)
  | succ depth ih =>
    intro b reference
    have longer : (a :: path).Nodup := nodup_cons.mpr ⟨fun member => acyclic a (passed a member).2, once⟩
    refine ih longer (fun outer member => ?_) ?_
    · rcases mem_cons.mp member with rfl | above
      · exact ⟨tabled.lt reference, .single reference⟩
      · exact ⟨(passed outer above).1, (passed outer above).2.tail reference⟩
    · rw [length_cons]
      omega

/-- Nodes that are not met on a way from themselves refer to each other at most as deep as there are nodes. -/
theorem Tabled.shallow (tabled : Tabled refers index size) (acyclic : Acyclic refers) (a : α) :
    Shallow refers (size + 1) a :=
  tabled.shallow_below acyclic nodup_nil (by simp) (by simp)

end

/-- The structs that a type is built from. -/
def Ty.structs : Ty → List StructId
  | .struct id => [id]
  | .vector elem _ | .matrix elem _ _ | .array elem _ _ | .atomic elem | .pointer _ elem _ | .sampledTexture _ elem
  | .multisampledTexture _ elem | .storageTexture _ _ _ elem | .inputAttachment elem | .sampledImage elem =>
    elem.structs
  | _ => []

/-- The constants that a constant is built from. -/
def Constant.parts : Constant → List ConstId
  | .scalar _ => []
  | .composite _ elements => elements
  | .splat _ element _ => [element]

/-- Both spellings of a constant are built from the same ones. -/
theorem Constant.mem_parts_canonical {constant : Constant} {id : ConstId} :
    id ∈ constant.canonical.parts ↔ id ∈ constant.parts := by
  unfold canonical
  split
  · rename_i first rest
    split
    · rename_i equal
      simp only [all_eq_true, decide_eq_true_eq] at equal
      rw [parts, parts, mem_singleton, mem_cons]
      exact ⟨.inl, fun member => member.elim (·) (equal id)⟩
    · rfl
  · rfl

/-- The one constant is built from the other. -/
def Pool.Contains (pool : Pool) (outer inner : ConstId) : Prop :=
  ∃ stored, pool.get outer = .ok stored ∧ inner ∈ stored.parts

theorem Pool.tabled_contains {pool : Pool} : Tabled pool.Contains ConstId.index pool.size where
  injective _ _ same := congrArg ConstId.mk same
  lt := fun ⟨_, found, _⟩ => (Array.getElem?_eq_some_iff.mp (get_eq_ok.mp found)).1

/-- Constants that are built from earlier ones. -/
theorem Pool.acyclic_of_earlier {pool : Pool}
    (earlier : ∀ position (bound : position < pool.items.size), ∀ part ∈ pool.items[position].parts,
      part.index < position) :
    Acyclic pool.Contains := by
  refine acyclic_of_lt fun (outer inner : ConstId) contains =>
    (?_ : OrderDual.toDual outer.index < OrderDual.toDual inner.index)
  obtain ⟨stored, found, part⟩ := contains
  obtain ⟨bound, rfl⟩ := Array.getElem?_eq_some_iff.mp (get_eq_ok.mp found)
  exact earlier outer.index bound inner part

namespace Module

variable {m : Module}

/-- A construct of the one block owns the other. -/
def Encloses (m : Module) (outer inner : BlockId) : Prop := ∃ id, m.Holds outer id inner

/-- No block is met on the way down from itself. -/
def Acyclic (m : Module) : Prop := ∀ block, ¬ TransGen m.Encloses block block

/-- A block that holds something is there. -/
theorem tabled_encloses : Tabled m.Encloses BlockId.index m.blocks.size where
  injective _ _ same := congrArg BlockId.mk same
  lt {outer inner} encloses := by
    obtain ⟨id, member, -⟩ := encloses
    obtain ⟨b, found, -⟩ := exists_of_mem_instsOf member
    exact (Array.getElem?_eq_some_iff.mp (block_eq_ok.mp found)).1

theorem encloses_of_mem {b : Block} {id : InstId} {inst : Inst} (found : m.block outer = .ok b)
    (member : id ∈ b.insts) (held : m.inst id = .ok inst) (owned : inner ∈ inst.kind.children) :
    m.Encloses outer inner :=
  ⟨id, by rwa [instsOf_eq found], by rwa [blocksOf_eq held]⟩

/-- Blocks that do not contain themselves nest at most as deep as there are blocks. -/
theorem Acyclic.shallow (acyclic : m.Acyclic) (block : BlockId) : Shallow m.Encloses (m.blocks.size + 1) block :=
  tabled_encloses.shallow acyclic block

/-- The type of a member of the one struct is built from the other. -/
def Includes (m : Module) (outer inner : StructId) : Prop :=
  ∃ definition, m.structDef outer = .ok definition ∧ ∃ member ∈ definition.members, inner ∈ member.ty.structs

theorem tabled_includes : Tabled m.Includes StructId.index m.structs.size where
  injective _ _ same := congrArg StructId.mk same
  lt := fun ⟨_, found, _⟩ => (Array.getElem?_eq_some_iff.mp (structDef_eq_ok.mp found)).1

/-- Structs that are built from earlier ones. -/
theorem acyclic_of_earlier (earlier : ∀ position (bound : position < m.structs.size),
      ∀ member ∈ m.structs[position].members, ∀ part ∈ member.ty.structs, part.index < position) :
    Shader.Acyclic m.Includes := by
  refine acyclic_of_lt fun (outer inner : StructId) includes =>
    (?_ : OrderDual.toDual outer.index < OrderDual.toDual inner.index)
  obtain ⟨definition, found, member, listed, part⟩ := includes
  obtain ⟨bound, rfl⟩ := Array.getElem?_eq_some_iff.mp (structDef_eq_ok.mp found)
  exact earlier outer.index bound member listed inner part

/-- What blocks list and constructs own is in the tables. -/
structure Closed (m : Module) : Prop where
  insts : ∀ {block id}, id ∈ m.instsOf block → ∃ inst, m.inst id = .ok inst
  blocks : ∀ {id inst}, m.inst id = .ok inst → ∀ block ∈ inst.kind.children, ∃ b, m.block block = .ok b

theorem exists_forall₂ {α β : Type} {related : α → β → Prop} {as : List α} (each : ∀ a ∈ as, ∃ b, related a b) :
    ∃ bs, Forall₂ related as bs := by
  induction as with
  | nil => exact ⟨[], .nil⟩
  | cons a as ih =>
    obtain ⟨b, head⟩ := each a mem_cons_self
    obtain ⟨bs, tail⟩ := ih fun a member => each a (mem_cons_of_mem _ member)
    exact ⟨b :: bs, .cons head tail⟩

/-- The walk from a block comes to its end. -/
theorem Closed.walks (closed : m.Closed) {block : BlockId} {b : Block} (found : m.block block = .ok b)
    (shallow : Shallow m.Encloses depth block) : ∃ walked, m.Walks depth block walked := by
  induction depth generalizing block b with
  | zero => cases shallow
  | succ depth ih =>
    have below : ∀ id ∈ b.insts, ∃ list inst lists, m.inst id = .ok inst ∧
        Forall₂ (m.Walks depth) inst.kind.children lists ∧ list = lists.flatten := by
      intro id member
      obtain ⟨inst, held⟩ := closed.insts (show id ∈ m.instsOf block by rwa [instsOf_eq found])
      have walks : ∀ child ∈ inst.kind.children, ∃ walked, m.Walks depth child walked := by
        intro child owned
        obtain ⟨c, known⟩ := closed.blocks held child owned
        exact ih known (shallow child (encloses_of_mem found member held owned))
      obtain ⟨lists, children⟩ := exists_forall₂ walks
      exact ⟨_, inst, lists, held, children, rfl⟩
    obtain ⟨nested, each⟩ := exists_forall₂ below
    exact ⟨_, walks_succ.mpr ⟨b, nested, found, each, rfl⟩⟩

/-- A walk that ends has come to the end of the walks further down with less depth. -/
theorem Walks.below {walked : List BlockId}
    (walks : m.Walks depth outer walked) (below : TransGen m.Encloses outer inner) :
    ∃ less walked, less < depth ∧ m.Walks less inner walked := by
  have step {depth : Nat} {outer inner : BlockId} {walked : List BlockId} (walks : m.Walks depth outer walked)
      (encloses : m.Encloses outer inner) : ∃ less walked, less < depth ∧ m.Walks less inner walked := by
    cases depth with
    | zero => cases walks
    | succ depth =>
      obtain ⟨b, nested, found, each, rfl⟩ := walks_succ.mp walks
      obtain ⟨id, member, owned⟩ := encloses
      rw [instsOf_eq found] at member
      obtain ⟨list, -, inst, lists, held, children, rfl⟩ := forall₂_mem_right each.flip member
      rw [blocksOf_eq held] at owned
      obtain ⟨list, -, walks⟩ := forall₂_mem_right children.flip owned
      exact ⟨depth, list, depth.lt_succ_self, walks⟩
  induction below with
  | single encloses => exact step walks encloses
  | tail _ encloses ih =>
    obtain ⟨less, _, lt, walks⟩ := ih
    obtain ⟨least, walked, lt', walks⟩ := step walks encloses
    exact ⟨least, walked, lt'.trans lt, walks⟩

/-- No walk over a block that contains itself comes to its end, and every other one does. -/
theorem acyclic_iff_walks (closed : m.Closed) : m.Acyclic ↔
    ∀ block : BlockId, block.index < m.blocks.size → ∃ walked, m.blocksUnder block = .ok walked := by
  constructor
  · intro acyclic block known
    exact closed.walks (block_eq_ok.mpr (Array.getElem?_eq_getElem known)) (acyclic.shallow block)
  · intro ends block below
    have known : block.index < m.blocks.size := by
      obtain ⟨inner, encloses, -⟩ := TransGen.head'_iff.mp below
      exact tabled_encloses.lt encloses
    have never (depth : Nat) (walked : List BlockId) : ¬ m.Walks depth block walked := by
      induction depth using Nat.strong_induction_on generalizing walked with
      | _ depth ih =>
        intro walks
        obtain ⟨less, list, lt, walks⟩ := walks.below below
        exact ih less lt list walks
    obtain ⟨walked, walks⟩ := ends block known
    exact never _ walked walks

end Module
end Shader
