import Shader.Proofs.Lowering.EmptyBlocks
import Shader.Proofs.Lowering.MirrorConstructs

/-!
Which blocks are lowered where their construct stands.

A branch of a conditional that does nothing but leave the conditional needs no block, and a loop whose continuing
block does not end branches back from an empty one. All other blocks are kept, with every instruction they have,
whether or not they end.
-/
namespace Shader.Module

/-- A branch of a conditional has a block of its own: it brings a result, it has instructions besides the last one,
or it ends other than by leaving the conditional. -/
def NeedsBranch (m : Module) (inst : Inst) (block : BlockId) : Prop :=
  inst.results ≠ [] ∨ (∃ b, m.block block = .ok b ∧ 1 < b.insts.length) ∨
    ∃ id last, m.terminator? block = .ok (some id) ∧ m.inst id = .ok last ∧
      ∀ target args, last.kind ≠ .exitIf target args

/-- A branch of a conditional that does nothing but leave the conditional. -/
def IdleBranch (m : Module) (inst : Inst) (block : BlockId) : Prop :=
  inst.results = [] ∧ ∃ b, m.block block = .ok b ∧ (b.insts = [] ∨
    ∃ only last target args, b.insts = [only] ∧ m.inst only = .ok last ∧ last.kind = .exitIf target args)

end Shader.Module

namespace Shader.Lower

open Binary Instruction List Kind

variable {m : Module} {L : Ledger}
variable {inst : Inst} {block : BlockId} {id : InstId} {code : List Instruction}

theorem needsBlock_eq_true (needed : needsBlock m (!inst.results.isEmpty) block = .ok true) :
    m.NeedsBranch inst block := by
  obtain ⟨b, found, rest⟩ := bind_eq_ok.mp needed
  obtain ⟨ending, ends, rest⟩ := bind_eq_ok.mp rest
  by_cases busy : 1 < b.insts.length ∨ inst.results ≠ []
  · exact busy.elim (fun long => .inr (.inl ⟨b, found, long⟩)) .inl
  · obtain ⟨short, silent⟩ := not_or.mp busy
    cases ending with
    | none => simp_all [pure, Except.pure]
    | some id =>
      obtain ⟨last, held, outward⟩ := bind_eq_ok.mp rest
      refine .inr (.inr ⟨id, last, ends, held, fun target args kind => ?_⟩)
      simp_all [pure, Except.pure]

theorem needsBlock_of_needsBranch {needs : Bool} (decided : needsBlock m (!inst.results.isEmpty) block = .ok needs)
    (needed : m.NeedsBranch inst block) : needs = true := by
  cases needs with
  | true => rfl
  | false =>
    obtain ⟨silent, b, found, short, leaves⟩ := needsBlock_eq_false decided
    rcases needed with results | ⟨b', found', long⟩ | ⟨id, last, ends, held, outward⟩
    · simp [results] at silent
    · cases found.symm.trans found'
      omega
    · obtain ⟨last', target, args, held', kind⟩ := leaves id ends
      cases held.symm.trans held'
      exact absurd kind (outward target args)

theorem not_needsBranch_of_idle (idle : m.IdleBranch inst block) : ¬m.NeedsBranch inst block := by
  obtain ⟨silent, b, found, shape⟩ := idle
  rintro (results | ⟨b', found', long⟩ | ⟨id, last, ends, held, outward⟩)
  · exact results silent
  · cases found.symm.trans found'
    rcases shape with empty | ⟨only, -, -, -, single, -⟩
    · simp [empty] at long
    · simp [single] at long
  · obtain ⟨b', -, found', isLast, -⟩ := terminator?_eq_some ends
    cases found.symm.trans found'
    rcases shape with empty | ⟨only, last', target, args, single, held', kind⟩
    · simp [empty] at isLast
    · rw [single, getLast?_singleton, Option.some.injEq] at isLast
      subst isLast
      cases held.symm.trans held'
      exact outward target args kind

/-- A conditional branches to the branches that need a block and past the ones that only leave it. -/
def Selects (m : Module) (L : Ledger) (id : InstId) (inst : Inst) (c : Conditional) (code : List Instruction) : Prop :=
  ∃ merge condition whenTrue whenFalse, (Key.merge id, merge) ∈ L.state.bindings ∧
    [mergeAt merge, branchOn condition whenTrue whenFalse] <:+: code ∧
    ∀ target ∈ [(c.whenTrue, whenTrue), (c.whenFalse, whenFalse)],
      (m.NeedsBranch inst target.1 → m.Opens inst target.1 ∧ (Key.label target.1, target.2) ∈ L.state.bindings) ∧
        (m.IdleBranch inst target.1 → target.2 = merge)

section
variable {described : Scopes → BlockId → List Instruction → Prop} {scopes : Scopes}

theorem InstCode.selects {c : Conditional} (laid : InstCode m L described scopes id inst code)
    (kind : inst.kind = .conditional c) : Selects m L id inst c code := by
  have leads : ∀ {scopes : Scopes} {merge label : Word} {block : BlockId} {needs : Bool} {code : List Instruction},
      block = c.whenTrue ∨ block = c.whenFalse → needsBlock m (!inst.results.isEmpty) block = .ok needs →
      BranchCode m L described scopes merge block needs label code →
      (m.NeedsBranch inst block → m.Opens inst block ∧ (Key.label block, label) ∈ L.state.bindings) ∧
        (m.IdleBranch inst block → label = merge) := by
    intro scopes merge label block needs code either decided laid
    cases laid with
    | elided => exact ⟨fun needed => absurd (needsBlock_of_needsBranch decided needed) (by decide), fun _ => rfl⟩
    | laid bound =>
      refine ⟨fun _ => ⟨.branch kind either decided, bound⟩, fun idle => ?_⟩
      exact absurd (needsBlock_eq_true decided) (not_needsBranch_of_idle idle)
  cases laid with
  | @conditional c' merge condition whenTrue whenFalse _ _ trueCode falseCode phis kind' merges _ trueNeeds falseNeeds
      trueLaid falseLaid _ =>
    cases kind.symm.trans kind'
    refine ⟨merge, condition, whenTrue, whenFalse, merges,
      ⟨[], trueCode ++ (falseCode ++ labelled merge :: phis), by simp⟩, ?_⟩
    intro target member
    rcases mem_pair.mp member with rfl | rfl
    · exact leads (.inl rfl) trueNeeds trueLaid
    · exact leads (.inr rfl) falseNeeds falseLaid
  | plain _ whole => simp [kind, isControl] at whole
  | terminator ends => simp [kind, isTerminator] at ends
  | loop kind' | switch kind' => cases kind.symm.trans kind'

theorem BlockCode.body_of_inhabited {b : Block} (laid : BlockCode m L described scopes block code)
    (found : m.block block = .ok b) (inhabited : b.insts ≠ []) :
    ∃ body, described scopes block body ∧ body <:+: code := by
  cases laid with
  | @full _ label phis body _ _ _ _ laid =>
    exact ⟨body, laid, (suffix_append (labelled label :: phis) body).isInfix⟩
  | onward found' empty | stuck found' empty =>
    cases found.symm.trans found'
    exact absurd empty inhabited

/-- What is lowered with a construct is part of its code. -/
theorem InstCode.opens (laid : InstCode m L described scopes id inst code) {b : Block} (opens : m.Opens inst block)
    (found : m.block block = .ok b) (inhabited : b.insts ≠ []) :
    ∃ scopes body, described scopes block body ∧ body <:+: code := by
  have inner : ∀ {scopes : Scopes} {code' : List Instruction}, BlockCode m L described scopes block code' →
      code' <:+: code → ∃ scopes body, described scopes block body ∧ body <:+: code := by
    intro scopes code' laid within
    obtain ⟨body, described, inside⟩ := laid.body_of_inhabited found inhabited
    exact ⟨scopes, body, described, inside.trans within⟩
  have branch : ∀ {scopes : Scopes} {merge label : Word} {needs : Bool} {code' : List Instruction},
      needsBlock m (!inst.results.isEmpty) block = .ok needs → needsBlock m (!inst.results.isEmpty) block = .ok true →
      BranchCode m L described scopes merge block needs label code' → code' <:+: code →
      ∃ scopes body, described scopes block body ∧ body <:+: code := by
    intro scopes merge label needs code' decided needed laid within
    cases decided.symm.trans needed
    cases laid with
    | laid _ laid => exact inner laid within
  cases laid with
  | plain open_ whole ordinary realised => cases opens <;> simp_all [isControl]
  | terminator ends laid => cases opens <;> simp_all [isTerminator]
  | @conditional c merge condition whenTrue whenFalse needTrue needFalse trueCode falseCode phis kind merges decides
      trueNeeds falseNeeds trueLaid falseLaid joins =>
    cases opens with
    | branch kind' either needed =>
      cases kind.symm.trans kind'
      rcases either with rfl | rfl
      · exact branch trueNeeds needed trueLaid
          ⟨[mergeAt merge, branchOn condition whenTrue whenFalse], falseCode ++ labelled merge :: phis, by simp⟩
      · exact branch falseNeeds needed falseLaid
          ⟨mergeAt merge :: branchOn condition whenTrue whenFalse :: trueCode, labelled merge :: phis, by simp⟩
    | _ => simp_all
  | @loop l merge header bodyLabel continuing entry headPhis bodyCode back phis kind merges fresh bodyBound
      continuingBound enters headJoins bodyLaid returns joins =>
    cases opens with
    | initializer kind' first =>
      cases kind.symm.trans kind'
      rw [first] at enters
      cases enters with
      | @through _ label code' _ laid =>
        exact inner laid ((suffix_cons (branchTo label) code').isInfix.trans (prefix_append _ _).isInfix)
    | body kind' =>
      cases kind.symm.trans kind'
      refine ⟨_, bodyCode, bodyLaid, entry ++ labelled header :: (headPhis ++ [loopAt merge continuing,
        branchTo bodyLabel, labelled bodyLabel]), back ++ labelled merge :: phis, by simp⟩
    | continuing kind' ends =>
      cases kind.symm.trans kind'
      cases returns with
      | finished _ laid =>
        refine inner laid ⟨entry ++ labelled header :: (headPhis ++ loopAt merge continuing ::
          branchTo bodyLabel :: labelled bodyLabel :: bodyCode), labelled merge :: phis, by simp⟩
      | unfinished opened => cases opened.symm.trans ends
    | _ => simp_all
  | @switch s merge selector otherwise default targets blocks phis kind merges selects defaults defaultBound cases
      laid joins =>
    cases opens with
    | case kind' member =>
      cases kind.symm.trans kind'
      obtain ⟨code, isCode, laid⟩ := forall₂_mem_right laid.flip member
      have within : code <:+: blocks.flatten := infix_of_mem_flatten isCode
      exact inner laid (within.trans ⟨[mergeAt merge, selectOn selector otherwise targets.flatten],
        labelled merge :: phis, by simp⟩)
    | _ => simp_all

end

end Shader.Lower
