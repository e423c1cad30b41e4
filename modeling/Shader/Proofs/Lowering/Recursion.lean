import Shader.Lower.Constructs
import Shader.Proofs.Depth

/-!
Lowering the blocks of a block, and the blocks of those.

The lowering of a block asks for nothing but the lowering of the blocks that its constructs own. Where no block contains
itself this is a recursion: one function, and only one, lowers every block in terms of itself, and it is the one that is
cut off at a depth, which is never reached.
-/
namespace Shader.Lower

open Binary

variable {m : Module} {options : Options} {body body' : Scopes → BlockId → Lower Unit}
variable {scopes : Scopes} {block : BlockId} {id : InstId} {inst : Inst}

/-- Lower the instructions of a block; `body` lowers the blocks that they own. -/
def emitInsts (m : Module) (options : Options) (body : Scopes → BlockId → Lower Unit) (scopes : Scopes)
    (block : BlockId) : Lower Unit := do
  let b ← check (m.block block)
  b.insts.forM (emitInst m options body scopes)
  if b.insts.isEmpty then
    emit .unreachable []

theorem emitBodyWithin_succ (depth : Nat) :
    emitBodyWithin m options (depth + 1) = emitInsts m options (emitBodyWithin m options depth) := rfl

/-- What follows a reading of the module matters only for what is read. -/
theorem check_bind_congr {α β : Type} {read : Except Fault α} {next next' : α → Lower β}
    (same : ∀ a, read = .ok a → next a = next' a) : (check read >>= next) = (check read >>= next') := by
  cases read with
  | error fault => rfl
  | ok a => exact same a rfl

/-- Two ways to lower the instructions of a block come to the same there, wherever the block is. -/
def SameAt (body body' : Scopes → BlockId → Lower Unit) (block : BlockId) : Prop :=
  ∀ scopes, body scopes block = body' scopes block

theorem emitBlock_congr (same : SameAt body body' block) :
    emitBlock m body scopes block = emitBlock m body' scopes block := by
  simp only [emitBlock, same scopes]

theorem emitConditional_congr {c : Conditional} (whenTrue : SameAt body body' c.whenTrue)
    (whenFalse : SameAt body body' c.whenFalse) :
    emitConditional m body scopes id inst c = emitConditional m body' scopes id inst c := by
  simp only [emitConditional, emitBlock_congr whenTrue, emitBlock_congr whenFalse]

theorem emitLoop_congr {l : Loop} (initializer : ∀ block ∈ l.initializer, SameAt body body' block)
    (inside : SameAt body body' l.body) (continuing : SameAt body body' l.continuing) :
    emitLoop m body scopes id inst l = emitLoop m body' scopes id inst l := by
  have inside (scopes : Scopes) : body scopes l.body = body' scopes l.body := inside scopes
  simp only [emitLoop, emitBlock_congr continuing, inside]
  refine bind_congr fun label => ?_
  cases first : l.initializer with
  | none => rfl
  | some block =>
    cases label with
    | none => rfl
    | some label => simp only [emitBlock_congr (initializer block first)]

theorem forM_congr {α : Type} {list : List α} {step step' : α → Lower Unit} (same : ∀ a ∈ list, step a = step' a) :
    list.forM step = list.forM step' := by
  induction list with
  | nil => rfl
  | cons a list ih =>
    rw [List.forM, List.forM, same a List.mem_cons_self, ih fun b member => same b (List.mem_cons_of_mem _ member)]

theorem emitSwitch_congr {s : Switch} (cases : ∀ case ∈ s.cases, SameAt body body' case.block) :
    emitSwitch m body scopes id inst s = emitSwitch m body' scopes id inst s := by
  have each (scopes : Scopes) : s.cases.forM (fun case => emitBlock m body scopes case.block) =
      s.cases.forM fun case => emitBlock m body' scopes case.block :=
    forM_congr fun case member => emitBlock_congr (cases case member)
  simp only [emitSwitch, each]

/-- The lowering of an instruction depends on the lowering of the blocks it owns. -/
theorem emitKind_congr (same : ∀ block ∈ inst.kind.children, SameAt body body' block) :
    emitKind m options body scopes id inst = emitKind m options body' scopes id inst := by
  unfold emitKind
  cases kind : inst.kind with
  | conditional c =>
    rw [kind] at same
    exact emitConditional_congr (same _ (by simp [Kind.children])) (same _ (by simp [Kind.children]))
  | loop l =>
    rw [kind] at same
    exact emitLoop_congr (fun block first => same block (by simp_all [Kind.children]))
      (same _ (by simp [Kind.children])) (same _ (by simp [Kind.children]))
  | switch s =>
    rw [kind] at same
    exact emitSwitch_congr fun case member => same _ (List.mem_map_of_mem member)
  | _ => rfl

theorem emitInst_congr (same : ∀ block ∈ m.blocksOf id, SameAt body body' block) :
    emitInst m options body scopes id = emitInst m options body' scopes id := by
  refine check_bind_congr fun inst held => ?_
  rw [Module.blocksOf_eq held] at same
  rw [emitKind_congr same]

theorem emitInsts_congr (same : ∀ inner, m.Encloses block inner → SameAt body body' inner) :
    emitInsts m options body scopes block = emitInsts m options body' scopes block := by
  refine check_bind_congr fun b found => ?_
  have each : b.insts.forM (emitInst m options body scopes) = b.insts.forM (emitInst m options body' scopes) := by
    refine forM_congr fun id member => emitInst_congr fun inner owned => same inner ⟨id, ?_, owned⟩
    rwa [Module.instsOf_eq found]
  rw [each]

/-- A function lowers every block in terms of itself. -/
def LowersBlocks (m : Module) (options : Options) (body : Scopes → BlockId → Lower Unit) : Prop :=
  ∀ block, SameAt body (emitInsts m options body) block

/-- What is cut off below the last block on the way down does not matter. -/
theorem sameAt_emitBodyWithin {depth : Nat} (shallow : Shallow m.Encloses depth block) :
    SameAt (emitBodyWithin m options depth) (emitBodyWithin m options (depth + 1)) block := by
  induction depth generalizing block with
  | zero => cases shallow
  | succ depth ih =>
    intro scopes
    rw [emitBodyWithin_succ, emitBodyWithin_succ (depth + 1)]
    exact emitInsts_congr fun inner encloses => ih (shallow inner encloses)

theorem LowersBlocks.sameAt (lowers : LowersBlocks m options body) {depth : Nat}
    (shallow : Shallow m.Encloses depth block) :
    SameAt body (emitBodyWithin m options depth) block := by
  induction depth generalizing block with
  | zero => cases shallow
  | succ depth ih =>
    intro scopes
    rw [lowers block scopes, emitBodyWithin_succ]
    exact emitInsts_congr fun inner encloses => ih (shallow inner encloses)

/-- Lowering is the one function that lowers every block in terms of itself. -/
theorem lowersBlocks_iff (acyclic : m.Acyclic) :
    LowersBlocks m options body ↔ body = emitBodyWithin m options (m.blocks.size + 1) := by
  constructor
  · intro lowers
    funext scopes block
    exact lowers.sameAt (acyclic.shallow block) scopes
  · rintro rfl block scopes
    rw [sameAt_emitBodyWithin (acyclic.shallow block) scopes, emitBodyWithin_succ (m.blocks.size + 1)]

end Shader.Lower
