import Shader.Proofs.Lowering.Program

/-!
The ids of a finished lowering.

Every key that a lowering counts belongs to one place of the module, so in a module that owns everything
once no key is defined twice.
-/
namespace Shader.Lower

open Binary List LowerState Shader.Module
open Multiset (coe_add cons_coe cons_le_cons nodup_add ofList singleton_add)

variable {block : BlockId} {lists : List (List Part)}

/-- What a part of a module may need an id for. -/
def partKey : Part → Key
  | .block id => .label id
  | .inst id => .merge id
  | .value id => .value id

theorem partKey_injective : Function.Injective partKey := by
  intro first second same
  cases first <;> cases second <;> cases same <;> rfl

variable {m : Module}

/-- The label and the parameters of a block. -/
def headKeys (m : Module) (block : BlockId) : List Key :=
  match m.block block with
  | .ok b => .label block :: b.params.map .value
  | .error _ => []

theorem headKeys_eq {b : Block} (found : m.block block = .ok b) :
    headKeys m block = .label block :: b.params.map .value := by
  simp only [headKeys, found]

/-- The block and its instructions are there. -/
def Present (m : Module) (block : BlockId) : Prop :=
  ∃ b, m.block block = .ok b ∧ ∀ id ∈ b.insts, ∃ inst, m.inst id = .ok inst

theorem Present.needsBlock (present : Present m block) (hasResults : Bool) :
    ∃ need, Lower.needsBlock m hasResults block = .ok need := by
  obtain ⟨b, found, insts⟩ := present
  simp only [Lower.needsBlock, terminator?, found, bind, Except.bind]
  cases last : b.insts.getLast? with
  | none => exact ⟨_, rfl⟩
  | some id =>
    obtain ⟨inst, held⟩ := insts id (mem_of_getLast? last)
    simp only [held]
    by_cases ends : inst.kind.isTerminator = true
    · simp only [ends, if_true, pure, Except.pure]
      rw [held]
      dsimp only
      split <;> exact ⟨_, rfl⟩
    · simp only [ends, pure, Except.pure]
      exact ⟨_, rfl⟩

theorem Present.blockKeys (present : Present m block) :
    ∃ own, Lower.blockKeys m block = .ok own ∧ ofList own ≤ ↑(headKeys m block) := by
  obtain ⟨b, found, -⟩ := present
  refine ⟨_, by rw [Lower.blockKeys, found]; rfl, ?_⟩
  rw [headKeys_eq found]
  split
  · simp
  · exact le_rfl

theorem Present.branchKeys (present : Present m block) (inst : Inst) :
    ∃ own, Lower.branchKeys m inst block = .ok own ∧ ofList own ≤ ↑(headKeys m block) := by
  obtain ⟨need, needs⟩ := present.needsBlock (!inst.results.isEmpty)
  obtain ⟨own, found, within⟩ := present.blockKeys
  cases need with
  | false => exact ⟨[], by rw [Lower.branchKeys, needs]; rfl, Multiset.zero_le _⟩
  | true => exact ⟨own, by rw [Lower.branchKeys, needs]; exact found, within⟩

theorem mapM_within {α : Type} {f : α → Except Fault (List Key)} {g : α → List Key} (list : List α)
    (each : ∀ a ∈ list, ∃ own, f a = .ok own ∧ ofList own ≤ ↑(g a)) :
    ∃ owns, list.mapM f = .ok owns ∧ ofList owns.flatten ≤ ↑(list.flatMap g) := by
  induction list with
  | nil => exact ⟨[], rfl, le_rfl⟩
  | cons a rest ih =>
    obtain ⟨own, found, within⟩ := each a mem_cons_self
    obtain ⟨owns, founds, withins⟩ := ih fun a member => each a (mem_cons_of_mem _ member)
    refine ⟨own :: owns, ?_, ?_⟩
    · rw [mapM_cons, found, founds]
      rfl
    · simp only [flatten_cons, flatMap_cons, ← coe_add]
      exact add_le_add within withins

/-- The keys of a construct are the labels and parameters of the blocks it owns and its own. -/
theorem constructKeys_within (id : InstId) {inst : Inst} (present : ∀ block ∈ inst.kind.children, Present m block) :
    ∃ keys, constructKeys m id inst = .ok keys ∧
      ofList keys ≤ ↑(Key.merge id :: inst.kind.children.flatMap (headKeys m)) := by
  cases kind : inst.kind with
  | conditional c =>
    obtain ⟨owns, found, within⟩ := mapM_within [c.whenTrue, c.whenFalse]
      fun block member => (present block (by rw [kind]; exact member)).branchKeys inst
    refine ⟨_, by simp only [constructKeys, kind, found]; rfl, ?_⟩
    exact cons_le_cons _ within
  | loop l =>
    have listed : ∀ block, block ∈ l.initializer.toList ++ [l.continuing] → block ∈ inst.kind.children := by
      intro block member
      rw [kind]
      simp only [Kind.children, mem_append, mem_cons, not_mem_nil, or_false] at member ⊢
      exact member.imp_right .inr
    obtain ⟨b, body, -⟩ := present l.body (by rw [kind]; simp [Kind.children])
    obtain ⟨owns, found, within⟩ := mapM_within (l.initializer.toList ++ [l.continuing])
      fun block member => (present block (listed block member)).blockKeys
    refine ⟨.merge id :: .label l.body :: (b.params.map .value ++ owns.flatten), ?_, ?_⟩
    · simp only [constructKeys, kind, body, found]
      rfl
    · rw [← cons_coe, ← cons_coe (Key.merge id)]
      refine cons_le_cons _ ?_
      rw [← cons_append, ← headKeys_eq body, ← coe_add]
      refine (add_le_add_right within _).trans (le_of_eq ?_)
      simp only [Kind.children, flatMap_append, flatMap_cons, flatMap_nil, append_nil,
        ← coe_add]
      abel
  | switch s =>
    obtain ⟨owns, found, within⟩ := mapM_within s.cases fun case member =>
      (present case.block (by rw [kind]; exact mem_map_of_mem member)).blockKeys
    refine ⟨_, by simp only [constructKeys, kind, found]; rfl, ?_⟩
    rw [← cons_coe, ← cons_coe]
    refine cons_le_cons _ (within.trans (le_of_eq ?_))
    rw [Kind.children, flatMap_map]
  | _ => exact ⟨[], by simp only [constructKeys, kind]; rfl, Multiset.zero_le _⟩

theorem ownKeys_within (id : InstId) {inst : Inst} (present : ∀ block ∈ inst.kind.children, Present m block) :
    ∃ own, ownKeys m id inst = .ok own ∧ ofList own ≤
      ↑(.merge id :: inst.results.map Key.value) + ↑(inst.kind.children.flatMap (headKeys m)) := by
  obtain ⟨keys, found, within⟩ := constructKeys_within id present
  refine ⟨keys ++ inst.results.map .value, by rw [ownKeys, found]; rfl, ?_⟩
  rw [← coe_add]
  refine (add_le_add_left within _).trans (le_of_eq ?_)
  simp only [← cons_coe, ← singleton_add]
  abel

/-- All that is held in a block and under it bounds what a lowering of the block defines. -/
def Bounded (m : Module) (depth : Nat) : Prop :=
  ∀ block parts, m.collectWithin m.heldIn depth block = .ok parts → Present m block ∧
    ∃ below, m.collectWithin (definedIn m) depth block = .ok below ∧
      ofList (headKeys m block ++ below) ≤ ↑(parts.map partKey)

variable {depth : Nat}

theorem Bounded.children (bounded : Bounded m depth) {children : List BlockId}
    (collected : Forall₂ (fun child list => m.collectWithin m.heldIn depth child = .ok list) children lists) :
    (∀ child ∈ children, Present m child) ∧ ∃ belows,
      Forall₂ (fun child list => m.collectWithin (definedIn m) depth child = .ok list) children belows ∧
      ofList (children.flatMap (headKeys m) ++ belows.flatten) ≤ ↑(lists.flatten.map partKey) := by
  induction collected with
  | nil => exact ⟨by simp, [], .nil, le_rfl⟩
  | cons head _ ih =>
    obtain ⟨present, below, defined, within⟩ := bounded _ _ head
    obtain ⟨presents, belows, defines, withins⟩ := ih
    refine ⟨by simpa using ⟨present, presents⟩, below :: belows, .cons defined defines, ?_⟩
    have both := add_le_add within withins
    simp only [flatMap_cons, flatten_cons, map_append, ← coe_add] at both ⊢
    refine le_of_eq_of_le ?_ both
    abel

theorem Bounded.insts (bounded : Bounded m depth) {insts : List InstId} {owns nested : List (List Part)}
    (own : Forall₂ (fun id list => ∃ inst, m.inst id = .ok inst ∧ list = instParts id inst) insts owns)
    (collected : Forall₂ (m.CollectedUnder m.heldIn depth) insts nested) :
    ∃ keys belows, Forall₂ (fun id own => (do ownKeys m id (← m.inst id)) = Except.ok own) insts keys ∧
      Forall₂ (m.CollectedUnder (definedIn m) depth) insts belows ∧
      ofList (keys.flatten ++ belows.flatten) ≤ ↑((owns.flatten ++ nested.flatten).map partKey) := by
  induction own generalizing nested with
  | nil =>
    cases collected
    exact ⟨[], [], .nil, .nil, le_rfl⟩
  | @cons id _ _ _ head _ ih =>
    obtain ⟨inst, held, rfl⟩ := head
    cases collected with
    | cons under rest =>
      obtain ⟨_, lists, same, collected, rfl⟩ := under
      cases held.symm.trans same
      obtain ⟨present, belows, defined, within⟩ := bounded.children collected
      obtain ⟨own, owned, ownWithin⟩ := ownKeys_within id present
      obtain ⟨keys, rests, ownRest, definedRest, withins⟩ := ih rest
      refine ⟨own :: keys, belows.flatten :: rests, .cons (by rw [held]; exact owned) ownRest,
        .cons ⟨inst, belows, held, defined, rfl⟩ definedRest, ?_⟩
      have parts : ofList ((instParts id inst).map partKey) = ↑(.merge id :: inst.results.map Key.value) := by
        simp [instParts, partKey, Function.comp_def]
      simp only [flatten_cons, map_append, ← coe_add] at within withins ⊢
      rw [parts]
      calc (↑own + ↑keys.flatten + (↑belows.flatten + ↑rests.flatten) : Multiset Key)
          ≤ ↑(.merge id :: inst.results.map Key.value) + ↑(inst.kind.children.flatMap (headKeys m)) +
              ↑keys.flatten + (↑belows.flatten + ↑rests.flatten) := by gcongr
        _ = ↑(.merge id :: inst.results.map Key.value) +
              (↑(inst.kind.children.flatMap (headKeys m)) + ↑belows.flatten) +
              (↑keys.flatten + ↑rests.flatten) := by abel
        _ ≤ ↑(.merge id :: inst.results.map Key.value) + ↑(lists.flatten.map partKey) +
              (↑(map partKey _) + ↑(map partKey _)) := by gcongr
        _ = _ := by abel

/-- By induction on how deep the constructs of a block nest. -/
theorem bounded (m : Module) (depth : Nat) : Bounded m depth := by
  induction depth with
  | zero => exact fun block parts collected => by cases collected
  | succ depth ih =>
    intro block parts collected
    obtain ⟨b, found, nested, held, visited, under, rfl⟩ := collectWithin_succ.mp collected
    obtain ⟨_, lists, same, own, rfl⟩ := parts_of_heldIn visited
    cases held.symm.trans same
    obtain ⟨keys, belows, owned, defined, within⟩ := ih.insts own under
    refine ⟨⟨b, held, fun id member => ?_⟩, keys.flatten ++ belows.flatten, ?_, ?_⟩
    · obtain ⟨-, -, inst, present, -⟩ := forall₂_mem_right own.flip member
      exact ⟨inst, present⟩
    · exact collectWithin_succ.mpr ⟨b, _, belows, held, definedIn_eq_ok.mpr ⟨b, keys, held, owned, rfl⟩, defined, rfl⟩
    · have parts : (Part.block block :: b.params.map Part.value).map partKey = headKeys m block := by
        simp [headKeys_eq held, partKey, Function.comp_def]
      rw [← cons_append, append_assoc, map_append, parts, ← coe_add, ← coe_add]
      exact add_le_add_right within _

theorem functionTotals_of_held {indices : List Nat}
    (held : Forall₂ (fun index list => ∃ function, m.function ⟨index⟩ = .ok function ∧
      FunctionHeld m function list) indices lists) :
    ∃ totals, Forall₂ (fun index total => FunctionTotal m ⟨index⟩ total) indices totals ∧
      totals.sum ≤ ↑(indices.map fun index => Key.function ⟨index⟩) + ↑(lists.flatten.map partKey) := by
  induction held with
  | nil => exact ⟨[], .nil, le_rfl⟩
  | @cons index _ indices lists head _ ih =>
    obtain ⟨function, declared, below, collected, rfl⟩ := head
    obtain ⟨totals, counted, within⟩ := ih
    obtain ⟨⟨b, entry, -⟩, keys, defined, inside⟩ := bounded m _ _ _ collected
    refine ⟨(↑(functionKeys ⟨index⟩ function) + ↑keys) :: totals,
      .cons ⟨function, ↑keys, declared, ⟨keys, defined, rfl⟩, rfl⟩ counted, ?_⟩
    have starts : (ofList (functionKeys ⟨index⟩ function)) ≤
        {Key.function ⟨index⟩} + ↑(function.params.map Key.value) + ↑(headKeys m function.entry) := by
      rw [headKeys_eq entry, functionKeys]
      simp only [← cons_coe, ← singleton_add]
      exact Multiset.le_iff_exists_add.mpr ⟨↑(b.params.map Key.value), by abel⟩
    have params : (function.params.map Part.value).map partKey = function.params.map Key.value := by
      simp [partKey, Function.comp_def]
    simp only [sum_cons, map_cons, flatten_cons, map_append, params,
      ← coe_add, ← cons_coe, ← singleton_add] at inside within ⊢
    calc (↑(functionKeys ⟨index⟩ function) + ↑keys + totals.sum : Multiset Key)
        ≤ {Key.function ⟨index⟩} + ↑(function.params.map Key.value) + ↑(headKeys m function.entry) + ↑keys +
            totals.sum := by gcongr
      _ = {Key.function ⟨index⟩} + ↑(function.params.map Key.value) +
            (↑(headKeys m function.entry) + ↑keys) + totals.sum := by abel
      _ ≤ {Key.function ⟨index⟩} + ↑(function.params.map Key.value) + ↑(below.map partKey) +
            (↑(indices.map fun index => Key.function ⟨index⟩) + ↑(lists.flatten.map partKey)) := by gcongr
      _ = _ := by abel

theorem results_of_held {insts : List InstId}
    (own : Forall₂ (fun id list => ∃ inst, m.inst id = .ok inst ∧ list = instParts id inst) insts lists) :
    ∃ found, insts.mapM m.inst = .ok found ∧
      ofList (found.flatMap fun inst => inst.results.map Key.value) ≤ ↑(lists.flatten.map partKey) := by
  induction own with
  | nil => exact ⟨[], rfl, le_rfl⟩
  | @cons id _ _ _ head _ ih =>
    obtain ⟨inst, present, rfl⟩ := head
    obtain ⟨found, presents, withins⟩ := ih
    refine ⟨inst :: found, by rw [mapM_cons, present, presents]; rfl, ?_⟩
    have within : ofList (inst.results.map Key.value) ≤ ↑((instParts id inst).map partKey) := by
      simp [instParts, partKey, Function.comp_def, ← cons_coe, Multiset.le_cons_self]
    simp only [flatMap_cons, flatten_cons, map_append, ← coe_add]
    exact add_le_add within withins

/-- The keys that are counted are among the functions and what they and the root hold. -/
theorem moduleTotal_of_held {parts : List Part} (held : m.held = .ok parts) : ∃ keys, ModuleTotal m keys ∧ keys ≤
      ↑((range m.functions.size).map fun index => Key.function ⟨index⟩) + ↑(parts.map partKey) := by
  obtain ⟨root, lists, rootHeld, functions, rfl⟩ := parts_of_held held
  obtain ⟨b, insts, found, own, rfl⟩ := parts_of_heldIn rootHeld
  obtain ⟨totals, counted, within⟩ := functionTotals_of_held (forall₂_comp (forall₂_function m) functions)
  obtain ⟨rootInsts, present, rootWithin⟩ := results_of_held own
  refine ⟨_, ⟨_, totals, ⟨b, rootInsts, found, present, rfl⟩, counted, rfl⟩, ?_⟩
  refine (add_le_add rootWithin within).trans (Multiset.le_iff_exists_add.mpr
    ⟨↑((Part.block .root :: b.params.map Part.value).map partKey), ?_⟩)
  simp only [← cons_append, map_append, ← coe_add]
  abel

theorem moduleTotal_nodup {parts : List Part} (held : m.held = .ok parts) (once : parts.Nodup) :
    ∃ keys, ModuleTotal m keys ∧ keys.Nodup := by
  obtain ⟨keys, total, within⟩ := moduleTotal_of_held held
  refine ⟨keys, total, Multiset.nodup_of_le within ?_⟩
  rw [coe_add, Multiset.coe_nodup, nodup_append']
  refine ⟨nodup_range.map fun _ _ same => by cases same; rfl, once.map partKey_injective, ?_⟩
  intro key isFunction isPart
  obtain ⟨index, -, rfl⟩ := mem_map.mp isFunction
  obtain ⟨part, -, same⟩ := mem_map.mp isPart
  cases part <;> cases same

theorem Effect.taken_words (e : Effect) : ofList (e.taken.map Prod.snd) = e.loose + e.keyed.map Prod.snd := by
  simp only [Effect.loose, Effect.keyed, Multiset.map_coe]
  induction e.taken with
  | nil => rfl
  | cons entry rest ih =>
    obtain ⟨key, word⟩ := entry
    cases key with
    | none => simpa [← cons_coe] using ih
    | some key => simpa [← cons_coe] using ih

/-- Two entries of one key are the same. -/
theorem eq_of_mem_bindings {s : LowerState} (sound : s.Sound) {key : Key} {first second : Word}
    (one : (key, first) ∈ s.bindings) (two : (key, second) ∈ s.bindings) : first = second := by
  have same := Multiset.inj_on_of_nodup_map sound.unique _ one _ two rfl
  exact congrArg Prod.snd same

theorem results_eq_zero {insts : List Instruction} (silent : ∀ inst ∈ insts, inst.result = none) :
    results insts = 0 := by
  refine Multiset.eq_zero_of_forall_notMem fun id member => ?_
  obtain ⟨inst, listed, same⟩ := mem_results.mp member
  rw [silent inst listed] at same
  cases same

theorem results_made {α : Type} {op : Opcode} {operands : α → List Operand} {list : List α}
    {insts : List Instruction} (hasType : op.grammar.resultType = false)
    (hasResult : op.grammar.result = false)
    (made : list.mapM (fun a => Instruction.make op (operands a)) = .ok insts) : results insts = 0 := by
  refine results_eq_zero fun inst member => ?_
  obtain ⟨a, -, one⟩ := forall₂_mem_right (mapM_eq_ok.mp made) member
  rw [Instruction.make_plain hasType hasResult one]

namespace Lowering

variable {state : LowerState} {e : Effect} {keys : Multiset Key}

section
variable (lowering : Lowering m state e)
include lowering

theorem taken_nodup : (e.taken.map Prod.snd).Nodup := by
  have numbers : (e.taken.map fun entry => entry.2.toNat).Nodup := by
    rw [lowering.ids]
    exact nodup_range'
  rw [← Function.comp_def UInt32.toNat, ← map_map] at numbers
  exact numbers.of_map

theorem mem_taken (word : Word) :
    word ∈ e.taken.map Prod.snd ↔ 1 ≤ word.toNat ∧ word.toNat < state.out.ids.next.toNat := by
  have listed : word ∈ e.taken.map Prod.snd ↔ word.toNat ∈ e.taken.map fun entry => entry.2.toNat := by
    simp only [mem_map, UInt32.toNat_inj]
  rw [listed, lowering.ids, lowering.next, mem_range'_1]

/-- What is defined apart from the ids that are taken for no key: ids of keys, each once, and all of
them if all their keys are counted. -/
theorem results_defined (fits : Fits m m.Reached) (total : ModuleTotal m keys) (once : keys.Nodup) :
    ∃ defined ≤ e.keyed, e.results = e.loose + defined.map Prod.snd ∧
      ((∀ entry ∈ e.keyed, entry.1 ∈ keys) → defined = e.keyed) := by
  obtain ⟨-, defined, bound, results, counted⟩ := lowering.builds.accounts keys ⟨fits, total⟩
  rw [add_zero] at results
  rw [← counted] at once
  have keyed : (e.keyed.map Prod.fst + e.shared.map Prod.fst).Nodup := by
    have unique := lowering.sound.unique
    rwa [lowering.bindings, Multiset.map_add] at unique
  have apart := (nodup_add.mp once).2.2
  have member : ∀ entry ∈ defined, entry ∈ e.keyed := by
    intro entry held
    have inside := bound entry held
    rw [lowering.bindings, Multiset.mem_add] at inside
    refine inside.resolve_right fun shared => ?_
    exact Multiset.disjoint_left.mp apart (Multiset.mem_map_of_mem Prod.fst held)
      (Multiset.mem_map_of_mem Prod.fst shared)
  have definedOnce : defined.Nodup := (nodup_add.mp once).1.of_map
  have within : defined ≤ e.keyed := (Multiset.le_iff_subset definedOnce).mpr member
  refine ⟨defined, within, results, fun all => le_antisymm within ?_⟩
  have keyedOnce := (nodup_add.mp keyed).1
  refine (Multiset.le_iff_subset keyedOnce.of_map).mpr fun entry held => ?_
  have counts := all entry held
  rw [← counted, Multiset.mem_add] at counts
  rcases counts with isDefined | isShared
  · obtain ⟨other, found, same⟩ := Multiset.mem_map.mp isDefined
    have agree := Multiset.inj_on_of_nodup_map keyedOnce _ (member other found) _ held same
    exact agree ▸ found
  · exact absurd isShared (Multiset.disjoint_left.mp (nodup_add.mp keyed).2.2
      (Multiset.mem_map_of_mem Prod.fst held))

theorem results_taken (fits : Fits m m.Reached)
    (total : ModuleTotal m keys) (once : keys.Nodup) (all : ∀ entry ∈ e.keyed, entry.1 ∈ keys) :
    e.results = ofList (e.taken.map Prod.snd) := by
  obtain ⟨defined, -, results, same⟩ := lowering.results_defined fits total once
  rw [results, same all, Effect.taken_words]

/-- The instructions of the finished module define what the effect does. -/
theorem results_instructions {insts : List Instruction}
    (listed : state.out.instructions = .ok insts) : results insts = e.results := by
  obtain ⟨capabilities, capable, rest⟩ := bind_eq_ok.mp listed
  obtain ⟨extensions, extended, same⟩ := bind_eq_ok.mp rest
  cases same
  have silent := results_eq_zero lowering.sound.silent
  simp only [results_append] at silent
  have quiet : results state.out.memoryModel.toList = 0 := results_eq_zero lowering.memoryModel
  simp only [results_append, results_made rfl rfl capable, results_made rfl rfl extended, quiet,
    lowering.globals, lowering.imports, lowering.functions, Effect.results, lowering.code, results_nil]
  calc _ = results e.globals + results e.imports + results (e.functions.flatMap FunctionCode.instructions) +
        (results state.out.entryPoints.toList + results state.out.executionModes.toList +
          results state.out.names.toList + results state.out.annotations.toList) := by abel
    _ = _ := by
      rw [silent]
      abel

end

end Lowering
end Shader.Lower
