import Shader.Proofs.Builder.Shape

/-!
Every module that is built is well built.

Blocks and their owners agree, and so do branches and the places where they are registered. Together with the lists of
instructions and values this holds of an empty module and is kept by every edit, so it holds of every module under
construction, whatever the steps were and however many of them were refused.
-/
namespace Shader

open List Option Kind Shader.Module

variable {kind : Kind} {target : InstId}
variable {found : ConstructKind × List InstId}

/-- A branch that leaves a construct names it. -/
theorem Kind.target?_of_leaves? {expected : ConstructKind} (leaves : kind.leaves? = some (expected, target)) :
    kind.target? = some target := by
  cases kind <;> simp_all [leaves?, target?]

/-- A construct is no branch. -/
theorem Kind.target?_of_construct? (construct : kind.construct? = some found) : kind.target? = none := by
  cases kind <;> simp_all [construct?, target?]

theorem Kind.loopBlocks?_of_target? (names : kind.target? = some target) : kind.loopBlocks? = none := by
  cases kind <;> simp_all [loopBlocks?, target?]

namespace Module

variable {inward stray : Prop} {m m' : Module}
variable {block : BlockId} {β : Type} {view : Kind → β}

namespace OwnsBlocks

/-- Blocks keep what they say about their owner, and every construct has the blocks it had. -/
theorem congr (owns : m.OwnsBlocks)
    (parents : ∀ block parent, m.parent? block = some parent → m'.parent? block = some parent)
    (entries : m'.entries = m.entries)
    (children : ∀ id, (m'.kind? id).map Kind.children = (m.kind? id).map Kind.children) : m'.OwnsBlocks := by
  have before {id : InstId} {kind : Kind} (held : m'.kind? id = some kind) :
      ∃ old, m.kind? id = some old ∧ old.children = kind.children := by
    have same := children id
    rw [held] at same
    obtain ⟨old, found, children⟩ := map_eq_some_iff.mp same.symm
    exact ⟨old, found, children⟩
  constructor
  · exact parents _ _ owns.root
  · intro entry member
    rw [entries] at member
    obtain ⟨apart, parent⟩ := owns.entries entry member
    exact ⟨apart, parents _ _ parent⟩
  · rw [entries]
    exact owns.entriesOnce
  · intro id kind held block member
    obtain ⟨old, found, same⟩ := before held
    exact parents _ _ (owns.children found block (same ▸ member))
  · intro id kind held
    obtain ⟨old, found, same⟩ := before held
    exact same ▸ owns.childrenOnce found

theorem parent?_addBlock_of_some {parent other : Option InstId}
    (held : m.parent? block = some other) : (m.addBlock parent).parent? block = some other := by
  rw [parent?_addBlock, if_neg (lt_of_parent? held).ne, held]

section
variable (owns : m.OwnsBlocks)
include owns

theorem addBlock (parent : Option InstId) : (m.addBlock parent).OwnsBlocks :=
  owns.congr (fun _ _ => parent?_addBlock_of_some) rfl fun _ => rfl

/-- An instruction is added whose blocks name it already. -/
theorem addInst (home : BlockId) (types : List Ty) (once : kind.children.Nodup)
    (parents : ∀ block ∈ kind.children, m.parent? block = some (some ⟨m.insts.size⟩)) :
    (m.addInst home kind types).OwnsBlocks := by
  constructor
  · rw [parent?_addInst]
    exact owns.root
  · intro entry member
    rw [parent?_addInst]
    exact owns.entries entry member
  · exact owns.entriesOnce
  · intro id found held block member
    rw [parent?_addInst]
    rw [kind?_addInst] at held
    split at held
    · obtain ⟨index⟩ := id
      rename_i same
      cases same
      cases held
      exact parents block member
    · exact owns.children held block member
  · intro id found held
    rw [kind?_addInst] at held
    split at held
    · cases held
      exact once
    · exact owns.childrenOnce held

theorem addExit (exit : InstId) (left : Option (ConstructKind × InstId)) : (m.addExit exit left).OwnsBlocks := by
  cases left with
  | none => exact owns
  | some left =>
    obtain ⟨expected, target⟩ := left
    refine owns.congr (fun _ _ held => held) rfl fun id => ?_
    rw [Module.addExit, kind?_changeKind]
    split
    · rw [Option.map_map]
      exact congrArg (Option.map · (m.kind? id)) (funext fun kind => children_withExit ..)
    · rfl

theorem addInbound (branch : InstId) (block : Option BlockId) : (m.addInbound branch block).OwnsBlocks := by
  cases block with
  | none => exact owns
  | some block =>
    refine owns.congr (fun other parent held => ?_) rfl fun _ => rfl
    rw [← held]
    simp [parent?, Module.addInbound, getElem?_map_modify]

/-- A construct gets one more block, in the place of none or of another one. -/
theorem child {old new : Kind} (held : m.kind? target = some old) (once : new.children.Nodup)
    (children : ∀ block ∈ new.children, block = ⟨m.blocks.size⟩ ∨ block ∈ old.children) :
    ((m.addBlock (some target)).changeKind target fun _ => new).OwnsBlocks := by
  have kinds {id : InstId} {kind : Kind}
      (found : ((m.addBlock (some target)).changeKind target fun _ => new).kind? id = some kind) :
      id = target ∧ kind = new ∨ m.kind? id = some kind := by
    rw [kind?_changeKind] at found
    split at found
    · obtain ⟨-, -, rfl⟩ := map_eq_some_iff.mp found
      exact .inl ⟨‹_›, rfl⟩
    · exact .inr found
  have base := owns.addBlock (some target)
  refine ⟨base.root, base.entries, base.entriesOnce, fun {id kind} found block member => ?_, fun {id kind} found => ?_⟩
  · rcases kinds found with ⟨rfl, rfl⟩ | found
    · rcases children block member with rfl | old
      · exact (parent?_addBlock ..).trans (if_pos rfl)
      · exact parent?_addBlock_of_some (owns.children held block old)
    · exact base.children found block member
  · rcases kinds found with ⟨rfl, rfl⟩ | found
    · exact once
    · exact base.childrenOnce found

/-- A block that does not exist is owned by no construct. -/
theorem not_mem_children {id : InstId} (held : m.kind? id = some kind) :
    (⟨m.blocks.size⟩ : BlockId) ∉ kind.children := fun member =>
  absurd (lt_of_parent? (owns.children held _ member)) (lt_irrefl _)

end

end OwnsBlocks

/-- Every edit keeps blocks and their owners in step. -/
theorem Edit.ownsBlocks (edit : Edit inward stray m m') (owns : m.OwnsBlocks) : m'.OwnsBlocks := by
  have blocks : m.addBlocks.OwnsBlocks := (owns.addBlock _).addBlock _
  have construct {kind : Kind} (block : BlockId) (types : List Ty)
      (children : kind.children = [⟨m.blocks.size⟩, ⟨m.blocks.size + 1⟩]) :
      (m.addBlocks.addInst block kind types).OwnsBlocks := by
    refine blocks.addInst _ _ (by simp [children]) fun block member => ?_
    have second : (m.addBlock (some ⟨m.insts.size⟩)).blocks.size = m.blocks.size + 1 := Array.size_push ..
    rw [children] at member
    rw [addBlocks, parent?_addBlock, parent?_addBlock, second]
    rcases mem_pair.mp member with rfl | rfl <;> simp [addBlock]
  cases edit with
  | relabel _ _ entries =>
    refine owns.congr (fun _ _ held => held) ?_ fun _ => rfl
    rw [Module.entries, Module.entries, ← Array.toList_map, entries, Array.toList_map]
  | block parent => exact owns.addBlock parent
  | @function f entry =>
    have base := owns.addBlock none
    have fresh : (⟨m.blocks.size⟩ : BlockId) ∉ m.entries := fun member =>
      absurd (lt_of_parent? (owns.entries _ member).2) (lt_irrefl _)
    have entries : m.entries ++ [f.entry] =
        entries { m.addBlock none with functions := m.functions.push f } := by simp [entries]
    refine ⟨base.root, fun other member => ?_, ?_, base.children, base.childrenOnce⟩
    · rw [← entries, mem_append, mem_singleton] at member
      rcases member with old | rfl
      · exact base.entries other old
      · rw [entry]
        refine ⟨fun same => ?_, (parent?_addBlock ..).trans (if_pos rfl)⟩
        have bound := lt_of_parent? owns.root
        rw [← same] at bound
        exact lt_irrefl _ bound
    · rw [← entries, entry]
      exact nodup_append.mpr ⟨owns.entriesOnce, nodup_singleton _, fun old member new isNew same =>
        fresh (mem_singleton.mp isNew ▸ same ▸ member)⟩
  | param =>
    refine owns.congr (fun _ _ held => held) ?_ fun _ => rfl
    dsimp only [entries]
    rw [← Array.toList_map, map_modify_of_eq fun _ => by rfl, Array.toList_map]
  | blockParam =>
    refine owns.congr (fun other parent held => ?_) rfl fun _ => rfl
    rw [← held]
    simp [parent?, getElem?_map_modify]
  | inst opened childless =>
    exact ((owns.addInst _ _ (by simp [childless]) (by simp [childless])).addExit _ _).addInbound _ _
  | conditional opened => exact construct _ _ rfl
  | loop opened => exact construct _ _ rfl
  | @initializer target l held =>
    have found := loop?_eq_some.mp held
    have once := owns.childrenOnce found
    have absent := owns.not_mem_children found
    simp only [children] at once absent
    refine owns.child found ?_ fun block member => ?_
    · exact nodup_cons.mpr ⟨fun member => absent (mem_append_right _ member), once.of_append_right⟩
    · rcases mem_cons.mp member with rfl | member
      · exact .inl rfl
      · exact .inr (mem_append_right _ member)
  | @case target s selectors held =>
    have once := owns.childrenOnce held
    have absent := owns.not_mem_children held
    simp only [children] at once absent
    refine owns.child held ?_ fun block member => ?_
    · simp only [children, map_append, map_singleton]
      exact nodup_append.mpr ⟨once, nodup_singleton _, fun old member new isNew same =>
        absent (mem_singleton.mp isNew ▸ same ▸ member)⟩
    · simp only [children, map_append, map_singleton, mem_append, mem_singleton] at member
      exact member.symm

section select

variable {chosen chosen' : Kind → Bool}

theorem select_congr (size : m'.insts.size = m.insts.size)
    (same : ∀ id, (m'.kind? id).any chosen' = (m.kind? id).any chosen) : m'.select chosen' = m.select chosen := by
  rw [select, select, size]
  exact filter_congr fun id _ => same id

/-- One more instruction comes last, if it is chosen. -/
theorem select_push (size : m'.insts.size = m.insts.size + 1)
    (same : ∀ id : InstId, id.index < m.insts.size → (m'.kind? id).any chosen' = (m.kind? id).any chosen) :
    m'.select chosen' = m.select chosen ++ if (m'.kind? ⟨m.insts.size⟩).any chosen' then [⟨m.insts.size⟩] else [] := by
  rw [select, select, size, range_succ, map_append, filter_append]
  congr 1
  · refine filter_congr fun id member => same id ?_
    obtain ⟨index, bound, rfl⟩ := mem_map.mp member
    exact mem_range.mp bound
  · rw [map_singleton, filter_singleton, Bool.cond_eq_ite]

theorem select_eq_nil (none : ∀ id kind, m.kind? id = some kind → chosen kind = false) : m.select chosen = [] := by
  rw [select, filter_eq_nil_iff]
  intro id _
  cases held : m.kind? id with
  | none => simp
  | some kind => simp [none id kind held]

end select

section branches

/-- Where a branch goes depends on the loop it names. -/
theorem goesTo?_congr
    (same : ∀ target ∈ kind.target?, (m'.kind? target).bind loopBlocks? = (m.kind? target).bind loopBlocks?) :
    m'.goesTo? kind = m.goesTo? kind := by
  have body (m : Module) (id : InstId) :
      (m.loop? id).map Loop.body = ((m.kind? id).bind loopBlocks?).map Prod.fst := by
    rw [loop?]
    rcases m.kind? id with _ | (_ | _) <;> rfl
  have continuing (m : Module) (id : InstId) :
      (m.loop? id).map Loop.continuing = ((m.kind? id).bind loopBlocks?).map Prod.snd := by
    rw [loop?]
    rcases m.kind? id with _ | (_ | _) <;> rfl
  cases kind with
  | breakIf | nextIteration => rw [goesTo?, goesTo?, body, body, same _ rfl]
  | continueTo => rw [goesTo?, goesTo?, continuing, continuing, same _ rfl]
  | _ => rfl

theorem goesTo?_eq_none (names : kind.target? = none) : m.goesTo? kind = none := by
  cases kind <;> simp_all [goesTo?, target?]

/-- A branch goes to a block of a loop. -/
theorem OwnsBlocks.lt_of_goesTo? (owns : m.OwnsBlocks) (goes : m.goesTo? kind = some block) :
    block.index < m.blocks.size := by
  have bound {target : InstId} {l : Loop} (held : m.loop? target = some l) :
      l.body.index < m.blocks.size ∧ l.continuing.index < m.blocks.size := by
    have parent := owns.children (loop?_eq_some.mp held)
    exact ⟨lt_of_parent? (parent _ (by simp [Kind.children])), lt_of_parent? (parent _ (by simp [Kind.children]))⟩
  unfold goesTo? at goes
  split at goes
  · obtain ⟨l, held, rfl⟩ := map_eq_some_iff.mp goes
    exact (bound held).1
  · obtain ⟨l, held, rfl⟩ := map_eq_some_iff.mp goes
    exact (bound held).1
  · obtain ⟨l, held, rfl⟩ := map_eq_some_iff.mp goes
    exact (bound held).2
  · cases goes

end branches

/-- What an instruction does once a branch has been registered. -/
def registered (exit : InstId) (left : Option (ConstructKind × InstId)) (id : InstId) (kind : Kind) : Kind :=
  match left with
  | some (expected, target) => if id = target then (Build.withExit expected exit kind).getD kind else kind
  | none => kind

section registered

variable (exit : InstId) (left : Option (ConstructKind × InstId)) (id : InstId) (kind : Kind)

theorem kind?_addExit : (m.addExit exit left).kind? id = (m.kind? id).map (registered exit left id) := by
  unfold registered
  cases left with
  | none => simp [addExit]
  | some left =>
    obtain ⟨expected, target⟩ := left
    rw [addExit, kind?_changeKind]
    split <;> simp [*]

/-- A branch that is registered changes nothing but the list it is registered in. -/
theorem registered_eq (kept : ∀ expected, view ((Build.withExit expected exit kind).getD kind) = view kind) :
    view (registered exit left id kind) = view kind := by
  unfold registered
  split
  · split
    · exact kept _
    · rfl
  · rfl

theorem construct?_registered : (registered exit left id kind).construct? =
    kind.construct?.map fun found => if left = some (found.1, id) then (found.1, found.2 ++ [exit]) else found := by
  unfold registered
  split
  · rename_i expected target
    by_cases same : id = target
    · rw [if_pos same, construct?_withExit]
      congr 1
      funext found
      simp [same, eq_comm]
    · simp [same, Ne.symm same]
  · simp

end registered

section append

variable (home : BlockId) (kind : Kind) (types : List Ty)

theorem size_append : (m.append home kind types).insts.size = m.insts.size + 1 := by
  rw [append]
  cases kind.leaves? <;> cases m.goesTo? kind <;> simp [addExit, addInbound, changeKind, addInst]

/-- An instruction that is no branch is registered nowhere. -/
theorem append_eq_addInst {kind : Kind} (names : kind.target? = none) :
    m.append home kind types = m.addInst home kind types := by
  have stays : kind.leaves? = none := by
    cases leaves : kind.leaves? with
    | none => rfl
    | some left => cases names.symm.trans (target?_of_leaves? leaves)
  rw [append, goesTo?_eq_none names, stays]
  rfl

theorem kind?_append (id : InstId) : (m.append home kind types).kind? id =
    (if id.index = m.insts.size then some kind else m.kind? id).map (registered ⟨m.insts.size⟩ kind.leaves? id) := by
  rw [append, ← kind?_addInst home kind types, ← kind?_addExit]
  cases m.goesTo? kind <;> rfl

theorem inbound?_append (block : BlockId) : (m.append home kind types).inbound? block =
    (m.inbound? block).map fun listed =>
      if m.goesTo? kind = some block then listed ++ [⟨m.insts.size⟩] else listed := by
  have exit : ((m.addInst home kind types).addExit ⟨m.insts.size⟩ kind.leaves?).inbound? block = m.inbound? block := by
    refine Eq.trans ?_ (inbound?_addInst home kind types block)
    cases kind.leaves? <;> rfl
  rw [← exit, append]
  cases m.goesTo? kind with
  | none => simp [addInbound]
  | some goal =>
    obtain ⟨index⟩ := block
    obtain ⟨other⟩ := goal
    rw [inbound?, addInbound, Array.getElem?_modify]
    by_cases same : other = index
    · simp [same, inbound?, Function.comp_def]
    · simp [same, inbound?, Function.comp_def]

/-- The instructions that were chosen before, and the new one if it is chosen. -/
theorem select_append {chosen chosen' : Kind → Bool}
    (kept : ∀ expected exit kind, chosen' ((Build.withExit expected exit kind).getD kind) = chosen' kind)
    (same : ∀ id old, m.kind? id = some old → chosen' old = chosen old) :
    (m.append home kind types).select chosen' = m.select chosen ++ if chosen' kind then [⟨m.insts.size⟩] else [] := by
  have kept (exit : InstId) (left : Option (ConstructKind × InstId)) (id : InstId) (kind : Kind) :
      chosen' (registered exit left id kind) = chosen' kind :=
    registered_eq exit left id kind fun expected => kept expected exit kind
  have before (id : InstId) (bound : id.index < m.insts.size) :
      ((m.append home kind types).kind? id).any chosen' = (m.kind? id).any chosen := by
    rw [kind?_append, if_neg bound.ne]
    cases held : m.kind? id with
    | none => rfl
    | some old => simp [kept, same id old held]
  rw [select_push (size_append ..) before]
  simp [kind?_append, kept]

end append

namespace RegistersBranches

theorem addBlock (registers : m.RegistersBranches) (owns : m.OwnsBlocks) (parent : Option InstId) :
    (m.addBlock parent).RegistersBranches where
  targets := registers.targets
  exits := registers.exits
  inbound {block inbound} held := by
    rw [inbound?_addBlock] at held
    split at held
    · cases held
      refine (select_eq_nil fun id kind _ => decide_eq_false fun goes => ?_).symm
      exact absurd (owns.lt_of_goesTo? goes) (by omega)
    · exact registers.inbound held

/-- A branch is registered where it goes when it is added. -/
theorem append (registers : m.RegistersBranches) (home : BlockId) (types : List Ty)
    (bare : ∀ found ∈ kind.construct?, found.2 = []) (known : ∀ target ∈ kind.target?, target.index ≤ m.insts.size) :
    (m.append home kind types).RegistersBranches := by
  have kinds {id : InstId} {new : Kind} (held : (m.append home kind types).kind? id = some new) :
      ∃ old, (if id.index = m.insts.size then some kind else m.kind? id) = some old ∧
        registered ⟨m.insts.size⟩ kind.leaves? id old = new := by
    rw [kind?_append] at held
    exact map_eq_some_iff.mp held
  have loops (id : InstId) : ((m.append home kind types).kind? id).bind loopBlocks? =
      (if id.index = m.insts.size then some kind else m.kind? id).bind loopBlocks? := by
    rw [kind?_append, bind_map]
    congr 1
    exact funext fun old => registered_eq _ _ _ _ fun _ => loopBlocks?_withExit ..
  refine ⟨?targets, ?exits, ?inbound⟩
  case targets =>
    intro id new held target named
    obtain ⟨old, found, rfl⟩ := kinds held
    rw [registered_eq _ _ _ _ fun _ => target?_withExit ..] at named
    rw [size_append]
    split at found
    · cases found
      exact Nat.lt_succ_of_le (known target named)
    · exact Nat.lt_succ_of_lt (registers.targets found target named)
  case exits =>
    intro id new held listed member
    obtain ⟨old, found, rfl⟩ := kinds held
    rw [construct?_registered] at member
    obtain ⟨before, construct, rfl⟩ := map_eq_some_iff.mp member
    have name : (if kind.leaves? = some (before.1, id) then (before.1, before.2 ++ [⟨m.insts.size⟩]) else before).1 =
        before.1 := by split <;> rfl
    rw [name, select_append home kind types (fun _ _ _ => by rw [leaves?_withExit]) fun _ _ _ => rfl]
    split at found
    -- Nothing names the new instruction yet, and it leaves no construct if it is one itself.
    · cases found
      have apart : kind.leaves? ≠ some (before.1, id) := fun leaves => by
        cases (target?_of_construct? construct).symm.trans (target?_of_leaves? leaves)
      rw [select_eq_nil fun other kind held => decide_eq_false fun leaves => ?_]
      · simp [apart, bare before construct]
      · exact absurd (registers.targets held _ (target?_of_leaves? leaves)) (by omega)
    · have listed := registers.exits found before construct
      by_cases leaves : kind.leaves? = some (before.1, id)
      · simpa [leaves] using listed
      · simpa [leaves] using listed
  case inbound =>
    intro block listed held
    rw [inbound?_append] at held
    obtain ⟨before, found, rfl⟩ := map_eq_some_iff.mp held
    have old (id : InstId) (old : Kind) (held : m.kind? id = some old) :
        (m.append home kind types).goesTo? old = m.goesTo? old :=
      goesTo?_congr fun target named => by rw [loops, if_neg (registers.targets held target named).ne]
    have new : (m.append home kind types).goesTo? kind = m.goesTo? kind := by
      refine goesTo?_congr fun target named => ?_
      rw [loops]
      split
      · rw [kind?_of_size ‹_›]
        exact loopBlocks?_of_target? named
      · rfl
    rw [select_append home kind types (fun _ _ _ => by rw [goesTo?_withExit])
      fun id kind held => by rw [old id kind held], new, ← registers.inbound found]
    split <;> simp [*]

/-- A construct changes, but neither its list nor where branches go on in it. -/
theorem changeKind (registers : m.RegistersBranches) {old new : Kind}
    (held : m.kind? target = some old) (before : old.construct? = some found) (after : new.construct? = some found)
    (loops : new.loopBlocks? = old.loopBlocks?) : (m.changeKind target fun _ => new).RegistersBranches := by
  have oldNames := target?_of_construct? before
  have newNames := target?_of_construct? after
  have size : (m.changeKind target fun _ => new).insts.size = m.insts.size := Array.size_modify
  have kinds (id : InstId) : (m.changeKind target fun _ => new).kind? id = m.kind? id ∨
      m.kind? id = some old ∧ (m.changeKind target fun _ => new).kind? id = some new := by
    rw [kind?_changeKind]
    split
    · rename_i here
      subst here
      exact .inr ⟨held, by rw [held]; rfl⟩
    · exact .inl rfl
  have goes (kind : Kind) : (m.changeKind target fun _ => new).goesTo? kind = m.goesTo? kind := by
    refine goesTo?_congr fun target _ => ?_
    rcases kinds target with same | ⟨was, is⟩
    · rw [same]
    · rw [was, is]
      exact loops
  have selected {chosen : Kind → Bool} (quiet : ∀ kind, kind.target? = none → chosen kind = false) :
      (m.changeKind target fun _ => new).select chosen = m.select chosen := by
    refine select_congr size fun id => ?_
    rcases kinds id with same | ⟨was, is⟩
    · rw [same]
    · simp [was, is, quiet old oldNames, quiet new newNames]
  refine ⟨?targets, ?exits, ?inbound⟩
  case targets =>
    intro id kind held target named
    rw [size]
    rcases kinds id with same | ⟨-, is⟩
    · exact registers.targets (same ▸ held) target named
    · cases is.symm.trans held
      cases newNames.symm.trans named
  case exits =>
    intro id kind held listed member
    rw [selected fun kind names => decide_eq_false fun leaves => by
      cases names.symm.trans (target?_of_leaves? leaves)]
    rcases kinds id with same | ⟨was, is⟩
    · exact registers.exits (same ▸ held) listed member
    · cases is.symm.trans held
      cases after.symm.trans member
      exact registers.exits was found before
  case inbound =>
    intro block listed held
    simp only [goes]
    rw [selected fun kind names => decide_eq_false fun leads => by cases (goesTo?_eq_none names).symm.trans leads]
    exact registers.inbound held

end RegistersBranches

/-- Every edit keeps the branches registered. -/
theorem Edit.registersBranches (edit : Edit inward stray m m') (owns : m.OwnsBlocks) (registers : m.RegistersBranches) :
    m'.RegistersBranches := by
  have blocks : m.addBlocks.RegistersBranches := (registers.addBlock owns _).addBlock (owns.addBlock _) _
  cases edit with
  | relabel | param => exact ⟨registers.targets, registers.exits, registers.inbound⟩
  | block parent => exact registers.addBlock owns parent
  | function =>
    have base := registers.addBlock owns none
    exact ⟨base.targets, base.exits, base.inbound⟩
  | blockParam =>
    refine ⟨registers.targets, registers.exits, fun {block inbound} held => registers.inbound (Eq.trans ?_ held)⟩
    simp [inbound?, getElem?_map_modify]
  | inst _ _ bare known => exact registers.append _ _ bare known
  | conditional | loop =>
    rw [addConstruct, ← append_eq_addInst _ _ rfl]
    exact blocks.append _ _ (by simp [construct?]) (by simp [target?])
  | initializer held =>
    exact (registers.addBlock owns _).changeKind (loop?_eq_some.mp held) rfl rfl rfl
  | case held => exact (registers.addBlock owns _).changeKind held rfl rfl rfl

/-- What holds of a module that was built step by step. -/
structure WellBuilt (m : Module) : Prop where
  /-- An instruction is listed once, by the block it is in. -/
  insts : ∀ id block, (m.instsOf block).count id = if m.home? id = some block then 1 else 0
  /-- Nothing follows an instruction that ends its block. -/
  ended : ∀ {id block}, id ∈ (m.instsOf block).dropLast → (m.kind? id).map isTerminator = some false
  /-- A value is defined once, by what it originates from. -/
  values : ∀ value origin, (m.definedBy origin).count value = if m.origin? value = some origin then 1 else 0
  /-- A block is the root, where one function starts, or one of the blocks of one construct. -/
  blocks : (BlockId.root :: m.entries ++ m.insts.toList.flatMap fun inst => inst.kind.children).Nodup
  /-- A block of a construct names the construct. -/
  parents : ∀ {id kind}, m.kind? id = some kind → ∀ block ∈ kind.children, m.parent? block = some (some id)
  /-- A construct lists the branches that leave it, in the order they were made. -/
  exits : ∀ {id kind}, m.kind? id = some kind → ∀ found ∈ kind.construct?,
    found.2 = m.select fun kind => kind.leaves? = some (found.1, id)
  /-- A block lists the branches that go on in it, in the order they were made. -/
  inbound : ∀ {block inbound}, m.inbound? block = some inbound →
    inbound = m.select fun kind => m.goesTo? kind = some block

/-- The four parts of the shape of a module. -/
structure Shaped (m : Module) : Prop where
  lists : m.ListsInsts
  defines : m.DefinesValues
  owns : m.OwnsBlocks
  registers : m.RegistersBranches

theorem shaped_empty : empty.Shaped := by
  have kinds (id : InstId) : empty.kind? id = none := by simp [kind?, empty]
  have homes (id : InstId) : empty.home? id = none := by simp [home?, empty]
  have origins (value : ValueId) : empty.origin? value = none := by simp [origin?, empty]
  have insts (block : BlockId) : empty.instsOf block = [] := by
    obtain ⟨_ | index⟩ := block <;> simp [instsOf_eq_getD, empty]
  have defined (origin : Origin) : empty.definedBy origin = [] := by
    rcases origin with id | id | ⟨_ | index⟩ <;> simp [definedBy, empty]
  constructor
  · exact ⟨by simp [insts, homes], by simp [insts], by simp [insts]⟩
  · exact ⟨by simp [defined, origins], by simp [defined]⟩
  · exact ⟨rfl, by simp [entries, empty], by simp [entries, empty], by simp [kinds], by simp [kinds]⟩
  · refine ⟨by simp [kinds], by simp [kinds], fun {block inbound} held => ?_⟩
    rw [select_eq_nil (by simp [kinds])]
    obtain ⟨_ | index⟩ := block
    · exact (some.inj held).symm
    · simp [inbound?, empty] at held

/-- Edits change an instruction that is there in its exits, its initializer and its cases only. -/
theorem Edit.view_eq {id : InstId} (edit : Edit inward stray m m')
    (exits : ∀ expected exit kind, view ((Build.withExit expected exit kind).getD kind) = view kind)
    (loops : ∀ l initializer, view (.loop { l with initializer }) = view (.loop l))
    (switches : ∀ s cases, view (.switch { s with cases }) = view (.switch s)) (held : m.kind? id = some kind) :
    (m'.kind? id).map view = some (view kind) := by
  have old := (lt_of_kind? held).ne
  have changed {target : InstId} {before after : Kind} (parent : Option InstId) (known : m.kind? target = some before)
      (same : view after = view before) :
      (((m.addBlock parent).changeKind target fun _ => after).kind? id).map view = some (view kind) := by
    rw [kind?_changeKind, show (m.addBlock parent).kind? id = m.kind? id from rfl, held]
    split
    · rename_i here
      subst here
      cases held.symm.trans known
      exact congrArg some same
    · rfl
  have kept : (m.kind? id).map view = some (view kind) := congrArg (Option.map view) held
  cases edit with
  | relabel | block | function | param | blockParam => exact kept
  | inst =>
    rw [kind?_append, if_neg old, held]
    exact congrArg some (registered_eq _ _ _ _ fun _ => exits ..)
  | conditional | loop =>
    rw [addConstruct, kind?_addInst]
    exact (congrArg _ (if_neg old)).trans kept
  | initializer known => exact changed _ (loop?_eq_some.mp known) (loops ..)
  | case known => exact changed _ known (switches ..)

theorem Edit.shaped (edit : Edit inward stray m m') (shaped : m.Shaped) : m'.Shaped :=
  ⟨edit.listsInsts shaped.lists, edit.definesValues shaped.defines, edit.ownsBlocks shaped.owns,
    edit.registersBranches shaped.owns shaped.registers⟩

theorem EditsTo.shaped (edits : m.EditsTo inward stray m') (shaped : m.Shaped) : m'.Shaped := by
  induction edits with
  | refl => exact shaped
  | tail _ edit ih => exact edit.shaped ih

/-- No block has two owners: it names the one it has. -/
theorem OwnsBlocks.nodup (owns : m.OwnsBlocks) :
    (BlockId.root :: m.entries ++ m.insts.toList.flatMap fun inst => inst.kind.children).Nodup := by
  have held {i : Nat} (bound : i < m.insts.toList.length) : m.kind? ⟨i⟩ = some m.insts.toList[i].kind := by
    simp only [Array.length_toList] at bound
    simp [kind?, bound]
  have owned {block : BlockId} (member : block ∈ m.insts.toList.flatMap fun inst => inst.kind.children) :
      ∃ id, m.parent? block = some (some id) := by
    obtain ⟨inst, listed, child⟩ := mem_flatMap.mp member
    obtain ⟨i, bound, rfl⟩ := mem_iff_getElem.mp listed
    exact ⟨_, owns.children (held bound) block child⟩
  refine nodup_append.mpr ⟨nodup_cons.mpr ⟨fun member => ?_, owns.entriesOnce⟩, ?_, ?_⟩
  · exact (owns.entries _ member).1 rfl
  · refine nodup_flatMap.mpr ⟨fun inst listed => ?_, pairwise_iff_getElem.mpr ?_⟩
    · obtain ⟨i, bound, rfl⟩ := mem_iff_getElem.mp listed
      exact owns.childrenOnce (held bound)
    · intro i j iBound jBound before block left right
      have same := (owns.children (held iBound) block left).symm.trans (owns.children (held jBound) block right)
      simp only [some.injEq, InstId.mk.injEq] at same
      omega
  · rintro block start _ child rfl
    obtain ⟨id, parent⟩ := owned child
    have orphan : m.parent? block = some none := by
      rcases mem_cons.mp start with rfl | entry
      · exact owns.root
      · exact (owns.entries _ entry).2
    cases orphan.symm.trans parent

theorem Shaped.wellBuilt (shaped : m.Shaped) : m.WellBuilt where
  insts id block := by
    rw [Nodup.count (shaped.lists.once block)]
    simp [shaped.lists.listed]
  ended := shaped.lists.ended
  values value origin := by
    rw [Nodup.count (shaped.defines.once origin)]
    simp [shaped.defines.defined]
  blocks := shaped.owns.nodup
  parents := shaped.owns.children
  exits := shaped.registers.exits
  inbound := shaped.registers.inbound

end Module

/-- Whatever the building steps are, and even if some were refused, the module they leave is well built. -/
theorem Builder.replay_wellBuilt {calls : List Call} {b : Builder}
    (ran : (Builder.start .empty).replay calls = some b) : b.module.WellBuilt :=
  ((Builder.edits_of_replay ran).shaped shaped_empty).wellBuilt

/-- A loop around a conditional. Two steps are refused: the second exit names the loop as if it were the conditional,
and the binding comes after the end of its block. -/
def Builder.tangled : List Call :=
  [.function "main" .void .none, .switchToBlock ⟨1⟩, .loop [.bool], .loopInitializer ⟨0⟩, .blockParam ⟨2⟩ .bool,
    .switchToBlock ⟨2⟩, .conditional (.ssa ⟨1⟩) [], .switchToBlock ⟨5⟩, .exitIf ⟨1⟩ [], .switchToBlock ⟨6⟩,
    .exitIf ⟨0⟩ [], .switchToBlock ⟨2⟩, .breakIf ⟨0⟩ (.ssa ⟨1⟩) [.ssa ⟨1⟩] [.ssa ⟨1⟩], .bind (.ssa ⟨1⟩),
    .switchToBlock ⟨3⟩, .nextIteration ⟨0⟩ [.ssa ⟨1⟩]]

theorem Builder.tangled_wellBuilt : ∃ b, (Builder.start .empty).replay Builder.tangled = some b ∧
    b.module.insts.size = 6 ∧ b.module.WellBuilt := by
  have made : ((Builder.start .empty).replay Builder.tangled).map (·.module.insts.size) = some 6 := by decide +kernel
  obtain ⟨b, ran, size⟩ := map_eq_some_iff.mp made
  exact ⟨b, ran, size, Builder.replay_wellBuilt ran⟩

end Shader
