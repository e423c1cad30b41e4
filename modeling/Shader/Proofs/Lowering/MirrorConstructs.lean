import Mathlib.Data.List.Sort
import Shader.Proofs.Lowering.Coverage
import Shader.Proofs.Lowering.MirrorSteps

/-!
Constructs of a renumbered module.

The phi of a result lists the branches out of a construct by their labels, and not in the order in which the construct
lists them. So the order does not matter where the branches leave from different places and those places have their
labels by then, as they do once the blocks of the construct are lowered. What is lowered with a block is said by
`LoweredFrom`, and `MirrorsFrom` relates two lowerings where some of the labels are known to be there.
-/
namespace Shader

open List

namespace Module

/-- The block is lowered with the construct. -/
inductive Opens (m : Module) (inst : Inst) : BlockId → Prop where
  | branch {c : Conditional} {block : BlockId} (kind : inst.kind = .conditional c)
      (either : block = c.whenTrue ∨ block = c.whenFalse)
      (needed : Lower.needsBlock m (!inst.results.isEmpty) block = .ok true) : Opens m inst block
  | initializer {l : Loop} {block : BlockId} (kind : inst.kind = .loop l) (first : l.initializer = some block) :
      Opens m inst block
  | body {l : Loop} (kind : inst.kind = .loop l) : Opens m inst l.body
  | continuing {l : Loop} {terminator : InstId} (kind : inst.kind = .loop l)
      (ended : m.terminator? l.continuing = .ok (some terminator)) : Opens m inst l.continuing
  | case {s : Switch} {case : Case} (kind : inst.kind = .switch s) (member : case ∈ s.cases) : Opens m inst case.block

/-- The other block is lowered with the block. -/
inductive LoweredFrom (m : Module) : BlockId → BlockId → Prop where
  | refl {block : BlockId} : LoweredFrom m block block
  | inside {outer child inner : BlockId} {b : Block} {id : InstId} {inst : Inst} (found : m.block outer = .ok b)
      (member : id ∈ b.insts) (held : m.inst id = .ok inst) (opens : m.Opens inst child)
      (rest : LoweredFrom m child inner) : LoweredFrom m outer inner

/-- The branches out of a construct are in different blocks, which are lowered with the construct. -/
structure ExitsSpread (m : Module) (inst : Inst) : Prop where
  lowered : ∀ exit ∈ inst.kind.exits, ∀ branch, m.inst exit = .ok branch →
    ∃ block, m.Opens inst block ∧ m.LoweredFrom block branch.block
  blocks : ∀ exit ∈ inst.kind.exits, ∀ exit' ∈ inst.kind.exits, ∀ branch branch', m.inst exit = .ok branch →
    m.inst exit' = .ok branch' → branch.block = branch'.block → exit = exit'

/-- Besides, no two of them leave from the place after one construct. -/
structure ExitsApart (m : Module) (inst : Inst) : Prop extends m.ExitsSpread inst where
  constructs : ∀ exit ∈ inst.kind.exits, ∀ exit' ∈ inst.kind.exits, ∀ construct,
    Lower.leavingKey m exit = .ok (.merge construct) → Lower.leavingKey m exit' = .ok (.merge construct) → exit = exit'

end Module

namespace Lower

open Binary Renumbering

variable {ρ : Renumbering}

section
variable {m other : Module} [alike : Renumbered ρ m other] {block : BlockId} {id : InstId}

theorem follows_terminator? (block : BlockId) : Follows (fun a b => b = a.map ρ.inst) (m.terminator? block)
    (other.terminator? (ρ.block block)) := by
  refine (alike.block block).bind fun b _ same => ?_
  subst same
  simp only [blockDef, getLast?_map]
  cases b.insts.getLast? with
  | none => exact .pure rfl
  | some last =>
    refine (alike.inst last).bind fun inst _ same => .pure ?_
    rw [same.isTerminator]
    split <;> rfl

omit alike in
theorem before?_map (insts : List InstId) (id : InstId) :
    before? (insts.map ρ.inst) (ρ.inst id) = (before? insts id).map (map ρ.inst) := by
  have listed : (insts.map ρ.inst).contains (ρ.inst id) = insts.contains id := by
    simp [contains_eq_mem, inst_injective.eq_iff]
  unfold before?
  rw [listed, takeWhile_map]
  simp only [Function.comp_def, ne_eq, inst_injective.eq_iff]
  split <;> rfl

theorem follows_lastControl? (insts : List InstId) : Follows (fun a b => b = a.map ρ.inst) (lastControl? m insts)
    (lastControl? other (insts.map ρ.inst)) := by
  induction insts with
  | nil => exact .pure rfl
  | cons id rest ih =>
    refine ih.bind fun last _ same => ?_
    subst same
    cases last with
    | some found => exact .pure rfl
    | none =>
      refine (alike.inst id).bind fun inst _ same => .pure ?_
      rw [same.isControl]
      split <;> rfl

theorem follows_needsBlock (hasResults : Bool) (block : BlockId) :
    Follows Eq (needsBlock m hasResults block) (needsBlock other hasResults (ρ.block block)) := by
  refine (alike.block block).bind fun b _ same => ?_
  subst same
  refine (follows_terminator? block).bind fun terminator _ same => ?_
  subst same
  simp only [blockDef, length_map]
  cases terminator with
  | none => exact .pure rfl
  | some last =>
    refine (alike.inst last).bind fun inst _ same => ?_
    obtain ⟨exits, -, rfl⟩ := same
    cases inst.kind <;> exact .pure rfl

omit alike in
theorem follows_defaultBlock (id : InstId) (s : Switch) : Follows (fun a b => b = ρ.block a) (defaultBlock id s)
    (defaultBlock (ρ.inst id) (ρ.switch s)) := by
  have default (case : Case) : (ρ.case case).isDefault = case.isDefault := by
    have same (selector : Selector) : ρ.selector selector = .otherwise ↔ selector = .otherwise := by
      cases selector <;> simp [Renumbering.selector]
    simp [Case.isDefault, Renumbering.case, same]
  have kept : (s.cases.map ρ.case).filter Case.isDefault = (s.cases.filter Case.isDefault).map ρ.case := by
    rw [filter_map]
    congr 2
    funext case
    exact default case
  unfold defaultBlock
  rw [switch, kept]
  rcases s.cases.filter Case.isDefault with _ | ⟨first, _ | ⟨second, rest⟩⟩
  · exact .error
  · exact .pure rfl
  · exact .error

theorem mirrors_inst (id : InstId) : Mirrors ρ ρ.SameInst (check (m.inst id)) (check (other.inst (ρ.inst id))) :=
  .check (alike.inst id)

theorem mirrors_block (block : BlockId) :
    Mirrors ρ (fun a b => b = ρ.blockDef a) (check (m.block block)) (check (other.block (ρ.block block))) :=
  .check (alike.block block)

instance mirrors_leavingLabel : Mirrors ρ Eq (leavingLabel m id) (leavingLabel other (ρ.inst id)) := by
  refine (mirrors_inst id).next fun branch _ same => ?_
  rw [same.block]
  refine (mirrors_block branch.block).onto fun b => ?_
  dsimp only [blockDef]
  rw [before?_map]
  cases before? b.insts id with
  | none => exact .fail
  | some earlier =>
    refine (Mirrors.check (follows_lastControl? earlier)).onto fun last => ?_
    cases last with
    | some construct => exact mirrors_mergeId
    | none => exact mirrors_labelId

instance {index : Nat} :
    Mirrors ρ Eq (incoming m block index id) (incoming other (ρ.block block) index (ρ.inst id)) := by
  refine (mirrors_inst id).next fun branch _ same => ?_
  rw [same.branchArgs, getElem?_map]
  cases branch.kind.branchArgs[index]? with
  | none => exact .fail
  | some arg =>
    dsimp only [Option.map]
    infer_instance

instance mirrors_emitIncomingPhis :
    Mirrors ρ Eq (emitIncomingPhis m block) (emitIncomingPhis other (ρ.block block)) := by
  refine (mirrors_block block).onto fun b => ?_
  simp only [blockDef, zipIdx_map]
  refine .forM fun entry _ => ?_
  obtain ⟨param, index⟩ := entry
  refine (mirrors_value param).onto fun found => ?_
  simp only [valueDef, Prod.map, id_eq]
  infer_instance

theorem mirrors_outgoing (construct exit : InstId) (index : Nat) :
    Mirrors ρ (fun a b => b = a.map (fun label => label) ρ.operand) (outgoing m construct index exit)
      (outgoing other (ρ.inst construct) index (ρ.inst exit)) := by
  refine (mirrors_inst exit).next fun branch _ same => ?_
  rw [same.exitArgs, getElem?_map]
  cases branch.kind.exitArgs[index]? with
  | none => exact .fail
  | some arg => exact mirrors_leavingLabel.next fun _ _ same => .returning (by rw [same]; rfl)

instance mirrors_emptyLabels {blocks : List BlockId} :
    Mirrors ρ Eq (emptyLabels m blocks) (emptyLabels other (blocks.map ρ.block)) := by
  have each (block : BlockId) : Mirrors ρ Eq (do
      if (← check (m.block block)).insts.isEmpty then return [← labelId block] else return []) (do
      if (← check (other.block (ρ.block block))).insts.isEmpty then return [← labelId (ρ.block block)]
      else return []) := by
    refine (mirrors_block block).onto fun b => ?_
    simp only [blockDef, isEmpty_map]
    infer_instance
  unfold emptyLabels
  infer_instance

omit alike in
instance {label : Option Word} {kind kind' : Kind} {id id' : InstId} :
    Mirrors ρ Eq (targetLabel label kind id) (targetLabel label kind' id') := by
  cases label with
  | none => exact .fail
  | some label => exact .pure

instance mirrors_emitTerminator {scopes : Scopes} {kind : Kind} :
    Mirrors ρ Eq (emitTerminator m scopes id kind) (emitTerminator other scopes (ρ.inst id) (ρ.kind kind)) := by
  cases kind
  case ret value => cases value <;> (dsimp only [emitTerminator, Renumbering.kind, Option.map]; infer_instance)
  case continueTo target args =>
    refine (mirrors_inst target).next fun inst _ same => ?_
    obtain ⟨exits, -, rfl⟩ := same
    dsimp only [instDef]
    cases inst.kind
    case loop l =>
      dsimp only [Kind.withExits, Renumbering.kind, loop]
      infer_instance
    all_goals exact .fail
  all_goals
    dsimp only [emitTerminator, Renumbering.kind]
    infer_instance

end

/-! ### Places that have their labels -/

end Lower

namespace LowerState

open Binary Lower

variable {s t : LowerState} {key key' : Key} {label : Word}

/-- The place has the label. -/
def Sites (s : LowerState) : Key → Word → Prop
  | .label block, label => (block, label) ∈ s.labels.entries
  | .merge construct, label => (construct, label) ∈ s.merges.entries
  | _, _ => False

/-- The place has a label. -/
def Sited (s : LowerState) (key : Key) : Prop := ∃ label, s.Sites key label

theorem Later.sites (later : s.Later t) (sites : s.Sites key label) : t.Sites key label := by
  cases key with
  | label => exact later.1 sites
  | merge => exact later.2 sites
  | value | function => exact sites

/-- No two places have one label. -/
theorem Apart.eq_of_sites (apart : s.Apart) (first : s.Sites key label) (second : s.Sites key' label) : key = key' := by
  obtain ⟨labels, merges, disjoint⟩ := nodup_append.mp apart.1
  have mixed {block : BlockId} {construct : InstId} (one : (block, label) ∈ s.labels.entries)
      (two : (construct, label) ∈ s.merges.entries) : False :=
    disjoint label (mem_map_of_mem one) label (mem_map_of_mem two) rfl
  cases key with
  | value | function => cases first
  | label block =>
    cases key' with
    | value | function => cases second
    | label block' => exact congrArg (fun entry => Key.label entry.1) (inj_on_of_nodup_map labels first second rfl)
    | merge construct => exact (mixed first second).elim
  | merge construct =>
    cases key' with
    | value | function => cases second
    | label block => exact (mixed second first).elim
    | merge construct' =>
      exact congrArg (fun entry => Key.merge entry.1) (inj_on_of_nodup_map merges first second rfl)

end LowerState

namespace Lower

open Binary Renumbering LowerState

variable {key : Key} {options : Options}

section
variable {m : Module} {s u : LowerState} {block : BlockId} {id : InstId} {label : Word}

/-- A key that has an id keeps it. -/
theorem remember_sites {κ : Type} [DecidableEq κ] {register : Register κ} {key : κ}
    (reads : ∀ s table, register.read (register.write table s) = table)
    (ran : (remember register key fresh).run s = .ok (label, u)) : (key, label) ∈ (register.read u).entries ∧
      ((∃ known, (key, known) ∈ (register.read s).entries) → u = s) := by
  rcases remember_run ran with ⟨found, rfl⟩ | ⟨absent, middle, -, rfl⟩
  · exact ⟨mem_of_find? found, fun _ => rfl⟩
  · rw [reads]
    exact ⟨mem_cons_self, fun ⟨known, sited⟩ => absurd sited (not_mem_of_find? absent known)⟩

theorem labelId_sites (ran : (labelId block).run s = .ok (label, u)) :
    u.Sites (.label block) label ∧ (s.Sited (.label block) → u = s) := remember_sites (fun _ _ => rfl) ran

theorem mergeId_sites (ran : (mergeId id).run s = .ok (label, u)) :
    u.Sites (.merge id) label ∧ (s.Sited (.merge id) → u = s) := remember_sites (fun _ _ => rfl) ran

theorem check_bind_run {α β : Type} {outcome : Except Fault α} {next : α → Lower β} {done : β × LowerState}
    (ran : (check outcome >>= next).run s = .ok done) : ∃ a, outcome = .ok a ∧ (next a).run s = .ok done := by
  cases outcome with
  | error fault => cases ran
  | ok a => exact ⟨a, rfl, ran⟩

/-- Control leaves from a place that has the label, and nothing changes if it had one. -/
theorem leavingLabel_sites (ran : (leavingLabel m id).run s = .ok (label, u)) :
    ∃ key, leavingKey m id = .ok key ∧ u.Sites key label ∧ (s.Sited key → u = s) := by
  rcases leavingLabel_cases m id with ⟨fault, stuck⟩ | ⟨_, leaves, ⟨block, rfl, same⟩ | ⟨construct, rfl, same⟩⟩
  · rw [stuck] at ran
    cases ran
  · rw [same] at ran
    exact ⟨_, leaves, labelId_sites ran⟩
  · rw [same] at ran
    exact ⟨_, leaves, mergeId_sites ran⟩

variable (m)

/-- The block and the places after its constructs have their labels. -/
def Placed (s : LowerState) (block : BlockId) : Prop :=
  s.Sited (.label block) ∧ ∀ id ∈ m.instsOf block, ∀ inst, m.inst id = .ok inst → inst.kind.isControl = true →
    s.Sited (.merge id)

/-- So do all blocks that are lowered with it. -/
def Settled (s : LowerState) (block : BlockId) : Prop := ∀ inner, m.LoweredFrom block inner → Placed m s inner

/-- The blocks of the construct are settled. -/
def Constructed (s : LowerState) (inst : Inst) : Prop := ∀ child, m.Opens inst child → Settled m s child

/-- The instruction is settled. -/
def InstSettled (s : LowerState) (id : InstId) : Prop :=
  ∀ inst, m.inst id = .ok inst → (inst.kind.isControl = true → s.Sited (.merge id)) ∧ Constructed m s inst

variable {m}

theorem settled_of_insts (sited : s.Sited (.label block)) (insts : ∀ id ∈ m.instsOf block, InstSettled m s id) :
    Settled m s block := by
  rintro inner (_ | ⟨found, member, held, opens, rest⟩)
  · exact ⟨sited, fun id member inst held => (insts id member inst held).1⟩
  · exact (insts _ (by rwa [Module.instsOf_eq found]) _ held).2 _ opens inner rest

/-- The place that control leaves from has its label if the block of the branch is placed. -/
theorem Placed.sited {branch : Inst} (placed : Placed m s branch.block) (held : m.inst id = .ok branch)
    (leaves : leavingKey m id = .ok key) : s.Sited key := by
  obtain ⟨_, b, same, found, which⟩ := leavingKey_cases leaves
  cases held.symm.trans same
  rcases which with rfl | ⟨construct, other, rfl, inside, present, control⟩
  · exact placed.1
  · exact placed.2 construct (by rwa [Module.instsOf_eq found]) other present control

end

/-- What is still so in later states. -/
class Lasting (known : LowerState → Prop) : Prop where
  later : ∀ {s t}, s.Later t → known s → known t

namespace Lasting

instance true : Lasting fun _ => True := ⟨fun _ _ => trivial⟩

instance and {known more : LowerState → Prop} [first : Lasting known] [second : Lasting more] :
    Lasting fun s => known s ∧ more s :=
  ⟨fun later both => ⟨first.later later both.1, second.later later both.2⟩⟩

instance all {ι : Type} {known : ι → LowerState → Prop} [each : ∀ i, Lasting (known i)] :
    Lasting fun s => ∀ i, known i s :=
  ⟨fun later all i => (each i).later later (all i)⟩

instance given {condition : Prop} {known : LowerState → Prop} [made : Lasting known] :
    Lasting fun s => condition → known s :=
  ⟨fun later holds condition => made.later later (holds condition)⟩

instance sited : Lasting fun s => s.Sited key := ⟨fun later ⟨label, sites⟩ => ⟨label, later.sites sites⟩⟩

variable {m : Module}

instance placed {block : BlockId} : Lasting fun s => Placed m s block := by
  unfold Placed
  infer_instance

instance settled {block : BlockId} : Lasting fun s => Settled m s block := by
  unfold Settled
  infer_instance

instance constructed {inst : Inst} : Lasting fun s => Constructed m s inst := by
  unfold Constructed
  infer_instance

instance {id : InstId} : Lasting fun s => InstSettled m s id := by
  unfold InstSettled
  infer_instance

end Lasting

/-- As `Mirrors`, where something is known of the first state and something of the last one. -/
structure MirrorsFrom {α β : Type} (ρ : Renumbering) (known gives : LowerState → Prop) (agree : α → β → Prop)
    (step : Lower α) (other : Lower β) : Prop where
  run : ∀ {s t a u}, known s → ρ.Mirrored s t → step.run s = .ok (a, u) →
    s.Later u ∧ gives u ∧ ∃ b v, other.run t = .ok (b, v) ∧ ρ.Mirrored u v ∧ agree a b

namespace MirrorsFrom

variable {α β γ δ : Type} {agree : α → β → Prop} {last : γ → δ → Prop} {known more gives : LowerState → Prop}
  {step : Lower α} {other : Lower β} {rest : α → Lower γ} {others : β → Lower δ}
variable {κ ι : Type} {change : κ → ι} {list : List κ}

theorem mirrors (from_ : MirrorsFrom ρ (fun _ => True) gives agree step other) : Mirrors ρ agree step other :=
  ⟨fun mirrored ran =>
    have ⟨later, _, followed⟩ := from_.run trivial mirrored ran
    ⟨later, followed⟩⟩

theorem of [lasting : Lasting known] (mirrors : Mirrors ρ agree step other) :
    MirrorsFrom ρ known known agree step other :=
  ⟨fun knows mirrored ran =>
    have ⟨later, followed⟩ := mirrors.run mirrored ran
    ⟨later, lasting.later later knows, followed⟩⟩

theorem imp {known' gives' : LowerState → Prop} (from_ : MirrorsFrom ρ known gives agree step other)
    (before : ∀ s, known' s → known s) (after : ∀ s, gives s → gives' s) :
    MirrorsFrom ρ known' gives' agree step other :=
  ⟨fun knows mirrored ran =>
    have ⟨later, given, followed⟩ := from_.run (before _ knows) mirrored ran
    ⟨later, after _ given, followed⟩⟩

theorem yields (from_ : MirrorsFrom ρ known gives agree step other) (after : ∀ s, gives s → more s) :
    MirrorsFrom ρ known more agree step other :=
  from_.imp (fun _ known => known) after

/-- What needs nothing to be known. -/
theorem always (from_ : MirrorsFrom ρ (fun _ => True) gives agree step other) :
    MirrorsFrom ρ known gives agree step other :=
  from_.imp (fun _ _ => trivial) fun _ given => given

theorem keeping [lasting : Lasting known] (from_ : MirrorsFrom ρ known gives agree step other) :
    MirrorsFrom ρ known (fun s => known s ∧ gives s) agree step other :=
  ⟨fun knows mirrored ran =>
    have ⟨later, given, followed⟩ := from_.run knows mirrored ran
    ⟨later, ⟨lasting.later later knows, given⟩, followed⟩⟩

/-- Two steps in a row, the first of which makes more known. -/
theorem gain [lasting : Lasting known] (first : MirrorsFrom ρ known more agree step other)
    (second : ∀ a b, agree a b → MirrorsFrom ρ (fun s => known s ∧ more s) gives last (rest a) (others b)) :
    MirrorsFrom ρ known gives last (step >>= rest) (other >>= others) := by
  refine ⟨fun {s t c u} knows mirrored ran => ?_⟩
  obtain ⟨a, middle, ran, done⟩ := run_bind_eq_ok.mp ran
  obtain ⟨later, given, b, reached, followed, related, same⟩ := first.run knows mirrored ran
  obtain ⟨latest, final, d, v, finished, ended, agrees⟩ :=
    (second a b same).run ⟨lasting.later later knows, given⟩ related done
  refine ⟨later.trans latest, final, d, v, ?_, ended, agrees⟩
  rw [StateT.run_bind]
  exact bind_eq_ok.mpr ⟨_, followed, finished⟩

theorem next [Lasting known] (first : Mirrors ρ agree step other)
    (second : ∀ a b, agree a b → MirrorsFrom ρ known gives last (rest a) (others b)) :
    MirrorsFrom ρ known gives last (step >>= rest) (other >>= others) :=
  gain (.of first) fun a b same => (second a b same).imp (fun _ both => both.1) fun _ given => given

theorem forM {step : κ → Lower Unit} {other : ι → Lower Unit}
    {gives : κ → LowerState → Prop} [∀ key, Lasting (gives key)] [Lasting known]
    (each : ∀ key ∈ list, MirrorsFrom ρ known (gives key) Eq (step key) (other (change key))) :
    MirrorsFrom ρ known (fun s => ∀ key ∈ list, gives key s) Eq (list.forM step) ((list.map change).forM other) := by
  induction list with
  | nil => exact ⟨fun _ mirrored ran => by
      cases ran
      exact ⟨.refl _, by simp, (), _, rfl, mirrored, rfl⟩⟩
  | cons key rest ih =>
    refine gain (each key mem_cons_self) fun _ _ _ => ?_
    have later := ih fun key member => each key (mem_cons_of_mem _ member)
    refine ⟨fun {s t a u} knows mirrored ran => ?_⟩
    obtain ⟨after, given, followed⟩ := later.run knows.1 mirrored ran
    refine ⟨after, ?_, followed⟩
    intro other member
    rcases mem_cons.mp member with rfl | member
    · exact Lasting.later after knows.2
    · exact given other member

/-- Steps for which something stays known, one after the other. -/
theorem forM_known {step : κ → Lower Unit} {other : ι → Lower Unit} [Lasting known]
    (each : ∀ key ∈ list, MirrorsFrom ρ known (fun _ => True) Eq (step key) (other (change key))) :
    MirrorsFrom ρ known known Eq (list.forM step) ((list.map change).forM other) :=
  (forM each).keeping.yields fun _ both => both.1

end MirrorsFrom

/-! ### The phis of a construct -/

theorem sortByLabel_eq (branches : List (Word × Value)) :
    sortByLabel branches = branches.insertionSort fun one two => one.1 ≤ two.1 := by
  have inserts (branch : Word × Value) (list : List (Word × Value)) :
      insertByLabel branch list = list.orderedInsert (fun one two => one.1 ≤ two.1) branch := by
    induction list with
    | nil => rfl
    | cons first rest ih => simp only [insertByLabel, orderedInsert, ih]
  induction branches with
  | nil => rfl
  | cons branch rest ih =>
    rw [insertionSort_cons, ← ih, ← inserts]
    rfl

theorem sortByLabel_map (f : Value → Value) (branches : List (Word × Value)) :
    sortByLabel (branches.map (Prod.map (fun label => label) f)) =
      (sortByLabel branches).map (Prod.map (fun label => label) f) := by
  rw [sortByLabel_eq, sortByLabel_eq]
  exact Eq.symm (map_insertionSort _ _ _ _ fun _ _ _ _ => Iff.rfl)

/-- The order is that of the labels where no two branches have one label. -/
theorem sortByLabel_eq_of_perm {branches listed : List (Word × Value)} (perm : listed.Perm branches)
    (apart : ∀ one ∈ branches, ∀ two ∈ branches, one.1 = two.1 → one = two) :
    sortByLabel listed = sortByLabel branches := by
  have sorted (list : List (Word × Value)) : (sortByLabel list).Pairwise fun one two => one.1 ≤ two.1 := by
    rw [sortByLabel_eq]
    have total : Std.Total fun one two : Word × Value => one.1 ≤ two.1 := ⟨fun one two => UInt32.le_total one.1 two.1⟩
    have trans : IsTrans (Word × Value) fun one two => one.1 ≤ two.1 :=
      ⟨fun _ _ _ first second => UInt32.le_trans first second⟩
    exact pairwise_insertionSort _ _
  have members {branch : Word × Value} {list : List (Word × Value)} (member : branch ∈ sortByLabel list) :
      branch ∈ list := (sortByLabel_perm list).mem_iff.mp member
  refine Perm.eq_of_pairwise (fun one two first second below above => ?_) (sorted listed) (sorted branches)
    (((sortByLabel_perm listed).trans perm).trans (sortByLabel_perm branches).symm)
  exact apart one (perm.mem_iff.mp (members first)) two (members second) (UInt32.le_antisymm below above)

section
variable {α κ : Type} {step : κ → Lower α} {list : List κ} {made : List α} {s u : LowerState}

/-- Steps that change nothing, one after the other. -/
theorem mapM_still (still : ∀ key ∈ list, ∀ a v, (step key).run s = .ok (a, v) → v = s)
    (ran : (list.mapM step).run s = .ok (made, u)) :
    u = s ∧ Forall₂ (fun key a => (step key).run s = .ok (a, s)) list made := by
  induction list generalizing made with
  | nil =>
    cases ran
    exact ⟨rfl, .nil⟩
  | cons key rest ih =>
    rw [mapM_cons, StateT.run_bind] at ran
    obtain ⟨⟨a, middle⟩, first, ran⟩ := bind_eq_ok.mp ran
    cases still key mem_cons_self a middle first
    obtain ⟨others, last, second, done⟩ := run_bind_eq_ok.mp ran
    cases done
    obtain ⟨rfl, each⟩ := ih (fun key member => still key (mem_cons_of_mem _ member)) second
    exact ⟨rfl, .cons first each⟩

theorem mapM_of_still (each : Forall₂ (fun key a => (step key).run s = .ok (a, s)) list made) :
    (list.mapM step).run s = .ok (made, s) := by
  induction each with
  | nil => rfl
  | cons first _ ih =>
    rw [mapM_cons, StateT.run_bind]
    refine bind_eq_ok.mpr ⟨_, first, ?_⟩
    rw [StateT.run_bind]
    exact bind_eq_ok.mpr ⟨_, ih, rfl⟩

end

section
variable {m other : Module} [alike : Renumbered ρ m other] {inst : Inst} {id : InstId} {exits : List InstId}

omit alike in
/-- Nothing changes while the branches out of a construct are looked at if its blocks are lowered. -/
theorem outgoing_still {s u : LowerState} (apart : m.ExitsApart inst) (constructed : Constructed m s inst)
    {exit : InstId} (member : exit ∈ inst.kind.exits) {index : Nat} {pair : Word × Value}
    (ran : (outgoing m id index exit).run s = .ok (pair, u)) :
    u = s ∧ ∃ branch key, m.inst exit = .ok branch ∧ leavingKey m exit = .ok key ∧ s.Sites key pair.1 := by
  obtain ⟨branch, held, ran⟩ := check_bind_run ran
  cases arg : branch.kind.exitArgs[index]? with
  | none =>
    rw [arg] at ran
    cases ran
  | some value =>
    rw [arg] at ran
    dsimp only at ran
    obtain ⟨label, middle, left, done⟩ := run_bind_eq_ok.mp ran
    cases done
    obtain ⟨key, leaves, sites, still⟩ := leavingLabel_sites left
    obtain ⟨block, opens, below⟩ := apart.lowered exit member branch held
    cases still ((constructed block opens _ below).sited held leaves)
    exact ⟨rfl, branch, key, held, leaves, sites⟩

omit alike in
/-- Branches that leave from one place are one branch. -/
theorem exit_eq_of_leaving (apart : m.ExitsApart inst) {exit exit' : InstId} {branch branch' : Inst}
    (member : exit ∈ inst.kind.exits) (member' : exit' ∈ inst.kind.exits) (held : m.inst exit = .ok branch)
    (held' : m.inst exit' = .ok branch') (leaves : leavingKey m exit = .ok key)
    (leaves' : leavingKey m exit' = .ok key) : exit = exit' := by
  obtain ⟨_, _, same, -, which⟩ := leavingKey_cases leaves
  obtain ⟨_, _, same', -, which'⟩ := leavingKey_cases leaves'
  cases held.symm.trans same
  cases held'.symm.trans same'
  rcases which with rfl | ⟨construct, -, rfl, -⟩
  · rcases which' with same | ⟨_, _, ⟨⟩, _⟩
    exact apart.blocks exit member exit' member' branch branch' held held' (Key.label.inj same)
  · exact apart.constructs exit member exit' member' construct leaves leaves'

/-- The branches are the same, in the order of their labels. -/
theorem mirrors_branches {index : Nat} (perm : exits.Perm inst.kind.exits)
    (ordered : exits = inst.kind.exits ∨ m.ExitsApart inst) :
    MirrorsFrom ρ (fun s => Constructed m s inst) (fun _ => True)
      (fun a b => sortByLabel b = (sortByLabel a).map (Prod.map (fun label => label) ρ.operand))
      (inst.kind.exits.mapM (outgoing m id index)) ((exits.map ρ.inst).mapM (outgoing other (ρ.inst id) index)) := by
  rcases ordered with rfl | apart
  · have each := Mirrors.mapM fun exit (_ : exit ∈ inst.kind.exits) => @mirrors_outgoing ρ m other alike id exit index
    refine (MirrorsFrom.of ⟨fun mirrored ran => ?_⟩).yields fun _ _ => trivial
    obtain ⟨later, b, v, followed, related, rfl⟩ := each.run mirrored ran
    exact ⟨later, _, v, followed, related, sortByLabel_map _ _⟩
  · refine ⟨fun {s t made u} constructed mirrored ran => ?_⟩
    obtain ⟨rfl, each⟩ := mapM_still (fun exit member pair v ran => (outgoing_still apart constructed member ran).1) ran
    obtain ⟨listed, eachListed, permuted⟩ := perm_comp_forall₂ perm each
    have followed : Forall₂ (fun exit pair => (outgoing other (ρ.inst id) index exit).run t = .ok (pair, t))
        (exits.map ρ.inst) (listed.map (Prod.map (fun label => label) ρ.operand)) := by
      rw [forall₂_map_left_iff, forall₂_map_right_iff]
      refine eachListed.imp fun exit pair ran => ?_
      obtain ⟨-, _, v, followed, related, rfl⟩ := (mirrors_outgoing id exit index).run mirrored ran
      cases mirrored.unique related
      exact followed
    refine ⟨.refl _, trivial, _, t, mapM_of_still followed, mirrored, ?_⟩
    rw [sortByLabel_map]
    refine congrArg _ (sortByLabel_eq_of_perm permuted fun one first two second same => ?_)
    obtain ⟨exit, member, ran⟩ := forall₂_mem_right each first
    obtain ⟨exit', member', ran'⟩ := forall₂_mem_right each second
    obtain ⟨-, branch, key, held, leaves, sites⟩ := outgoing_still apart constructed member ran
    obtain ⟨-, branch', key', held', leaves', sites'⟩ := outgoing_still apart constructed member' ran'
    cases mirrored.apart.eq_of_sites sites (same ▸ sites')
    cases exit_eq_of_leaving apart member member' held held' leaves leaves'
    cases ran.symm.trans ran'
    rfl

end

section
variable {m other : Module} [alike : Renumbered ρ m other] {inst new : Inst} {id : InstId} {exits listed : List InstId}
  {known : LowerState → Prop}

theorem mirrors_exitPhis [Lasting known] {implicit : List BlockId} (listing : inst.kind.exits = listed)
    (results : new.results = inst.results.map ρ.value) (perm : exits.Perm listed)
    (ordered : exits = listed ∨ m.ExitsApart inst) (constructed : ∀ s, known s → Constructed m s inst) :
    MirrorsFrom ρ known known Eq (emitExitPhis m id inst listed implicit)
      (emitExitPhis other (ρ.inst id) new (exits.map ρ.inst) (implicit.map ρ.block)) := by
  subst listing
  unfold emitExitPhis
  rw [results, zipIdx_map]
  refine .forM_known fun entry _ => ?_
  obtain ⟨result, index⟩ := entry
  refine .next (mirrors_value result) fun found _ same => ?_
  subst same
  refine .gain ((mirrors_branches perm ordered).imp constructed fun _ given => given) fun branches _ same => ?_
  dsimp only [valueDef]
  rw [same]
  refine (MirrorsFrom.of ?_).yields fun _ _ => trivial
  refine mirrors_emptyLabels.same fun empty => ?_
  refine mirrors_typeId.same fun typeWord => ?_
  refine mirrors_valueId_ssa.same fun id => ?_
  refine (@Mirrors.mapMSame ρ _ _ _ (Prod.map (fun label => label) ρ.operand) _ _ _ fun branch => ?_).next
    fun explicit _ same => ?_
  · exact mirrors_valueId.next fun _ _ same => same ▸ .pure
  · subst same
    infer_instance

end

section
variable {m other : Module} [alike : Renumbered ρ m other] {body body' : Scopes → BlockId → Lower Unit}
  {known : LowerState → Prop} {scopes : Scopes} {block : BlockId} {inst : Inst} {id : InstId} {exits : List InstId}

/-- The lowering of the instructions of a block is mirrored, and settles them. -/
def MirrorsBodies (ρ : Renumbering) (m : Module) (body body' : Scopes → BlockId → Lower Unit) : Prop :=
  ∀ known scopes block, MirrorsFrom ρ known (fun s => ∀ id ∈ m.instsOf block, InstSettled m s id) Eq
    (body scopes block) (body' scopes (ρ.block block))

omit alike in
theorem mirrors_label (block : BlockId) :
    MirrorsFrom ρ known (fun s => s.Sited (.label block)) Eq (labelId block) (labelId (ρ.block block)) :=
  ⟨fun _ mirrored ran =>
    have ⟨later, followed⟩ := mirrors_labelId.run mirrored ran
    ⟨later, ⟨_, (labelId_sites ran).1⟩, followed⟩⟩

omit alike in
theorem mirrors_merge (id : InstId) :
    MirrorsFrom ρ known (fun s => s.Sited (.merge id)) Eq (mergeId id) (mergeId (ρ.inst id)) :=
  ⟨fun _ mirrored ran =>
    have ⟨later, followed⟩ := mirrors_mergeId.run mirrored ran
    ⟨later, ⟨_, (mergeId_sites ran).1⟩, followed⟩⟩

theorem mirrors_emitBlock (bodies : MirrorsBodies ρ m body body') (block : BlockId) :
    MirrorsFrom ρ known (fun s => Settled m s block) Eq (emitBlock m body scopes block)
      (emitBlock other body' scopes (ρ.block block)) := by
  refine .always ?_
  refine .gain (mirrors_label block) fun label _ same => ?_
  subst same
  refine .next Mirrors.emit fun _ _ _ => ?_
  refine .next (Mirrors.check (alike.block block).seen) fun b _ seen => ?_
  obtain ⟨found, -, rfl⟩ := seen
  simp only [blockDef, isEmpty_map]
  by_cases empty : b.insts.isEmpty = true
  · simp only [if_pos empty]
    refine (MirrorsFrom.of ?_).yields fun s known => ?_
    · cases b.parent with
      | none => exact .emit
      | some parent =>
        refine (mirrors_inst parent).next fun inst _ same => ?_
        simp only [same.results, isEmpty_map]
        infer_instance
    · refine settled_of_insts known.2 ?_
      rw [Module.instsOf_eq found, isEmpty_iff.mp empty]
      simp
  · simp only [if_neg empty]
    have settled := (bodies (fun s => True ∧ s.Sited (.label block)) scopes block).keeping.yields
      fun s both => settled_of_insts both.1.2 both.2
    split
    · exact .next mirrors_emitIncomingPhis fun _ _ _ => settled
    · exact settled

theorem mirrors_emitBranch (bodies : MirrorsBodies ρ m body body') (block : BlockId) (need : Bool) :
    MirrorsFrom ρ known (fun s => need = true → Settled m s block) Eq (emitBranch m body scopes block need)
      (emitBranch other body' scopes (ρ.block block) need) := by
  cases need with
  | false => exact .always ((MirrorsFrom.of .pure).yields fun _ _ needed => by cases needed)
  | true => exact (mirrors_emitBlock bodies block).yields fun _ settled _ => settled

omit alike in
theorem mirrors_branchLabel (merge : Word) (block : BlockId) (need : Bool) :
    Mirrors ρ Eq (branchLabel merge block need) (branchLabel merge (ρ.block block) need) := Mirrors.branch

theorem mirrors_emitConditional (bodies : MirrorsBodies ρ m body body') {c : Conditional}
    (kind : inst.kind = .conditional c) (perm : exits.Perm c.exits) (ordered : exits = c.exits ∨ m.ExitsApart inst) :
    MirrorsFrom ρ (fun _ => True) (fun s => s.Sited (.merge id) ∧ Constructed m s inst) Eq
      (emitConditional m body scopes id inst c)
      (emitConditional other body' scopes (ρ.inst id) (ρ.instDef { inst with kind := .conditional { c with exits } })
        (ρ.conditional { c with exits })) := by
  have needs (block : BlockId) : Follows Eq (needsBlock m (!inst.results.isEmpty) block)
      (needsBlock other (!(inst.results.map ρ.value).isEmpty) (ρ.block block)) := by
    rw [isEmpty_map]
    exact follows_needsBlock _ block
  rw [emitConditional_eq, emitConditional_eq]
  refine .gain (mirrors_merge id) fun merge _ same => ?_
  subst same
  refine .next (Mirrors.check (needs c.whenTrue).seen) fun needTrue _ seen => ?_
  obtain ⟨trueNeeds, -, rfl⟩ := seen
  refine .next (Mirrors.check (needs c.whenFalse).seen) fun needFalse _ seen => ?_
  obtain ⟨falseNeeds, -, rfl⟩ := seen
  refine .next (mirrors_branchLabel merge c.whenTrue needTrue) fun trueLabel _ same => ?_
  subst same
  refine .next (mirrors_branchLabel merge c.whenFalse needFalse) fun falseLabel _ same => ?_
  subst same
  refine .next .emit fun _ _ _ => .next mirrors_valueId fun condition _ same => ?_
  subst same
  refine .next .emit fun _ _ _ => .gain (mirrors_emitBranch bodies c.whenTrue needTrue) fun _ _ _ =>
    .gain (mirrors_emitBranch bodies c.whenFalse needFalse) fun _ _ _ => .next .emit fun _ _ _ => ?_
  have constructed (s : LowerState) (whenTrue : needTrue = true → Settled m s c.whenTrue)
      (whenFalse : needFalse = true → Settled m s c.whenFalse) : Constructed m s inst := by
    intro child opens
    cases opens with
    | branch kind' either needed =>
      cases kind.symm.trans kind'
      rcases either with rfl | rfl
      · exact whenTrue (Except.ok.inj (trueNeeds.symm.trans needed))
      · exact whenFalse (Except.ok.inj (falseNeeds.symm.trans needed))
    | initializer kind' | body kind' | continuing kind' | case kind' => cases kind.symm.trans kind'
  exact (mirrors_exitPhis (by rw [kind]; rfl) rfl perm ordered fun s known => constructed s known.1.2 known.2).yields
    fun s known => ⟨known.1.1.2, constructed s known.1.2 known.2⟩

omit alike in
theorem mirrors_initializerLabel (initializer : Option BlockId) :
    Mirrors ρ (fun a b => b = a ∧ a.isSome = initializer.isSome) (initializer.mapM labelId)
      ((initializer.map ρ.block).mapM labelId) := by
  cases initializer with
  | none => exact .returning ⟨rfl, rfl⟩
  | some block => exact mirrors_labelId.map fun _ _ same => ⟨by rw [same], rfl⟩

theorem mirrors_enterLoop (bodies : MirrorsBodies ρ m body body') (header : Word) {initializer : Option BlockId}
    {label : Option Word} (labelled : label.isSome = initializer.isSome) :
    MirrorsFrom ρ known (fun s => ∀ block, initializer = some block → Settled m s block) Eq
      (enterLoop m body scopes header initializer label)
      (enterLoop other body' scopes header (initializer.map ρ.block) label) := by
  refine .always ?_
  cases initializer with
  | none => exact (MirrorsFrom.of .emit).yields fun _ _ _ none => by cases none
  | some block =>
    obtain ⟨label, rfl⟩ := Option.isSome_iff_exists.mp labelled
    refine .next .emit fun _ _ _ => (mirrors_emitBlock bodies block).yields ?_
    rintro s settled _ ⟨⟩
    exact settled

theorem mirrors_returnLoop (bodies : MirrorsBodies ρ m body body') (header continuing : Word) (block : BlockId) :
    MirrorsFrom ρ known (fun s => ∀ terminator, m.terminator? block = .ok (some terminator) → Settled m s block) Eq
      (returnLoop m body scopes header continuing block)
      (returnLoop other body' scopes header continuing (ρ.block block)) := by
  refine .always ?_
  refine .next (Mirrors.check (follows_terminator? block).seen) fun last _ seen => ?_
  obtain ⟨found, -, rfl⟩ := seen
  cases last with
  | some last => exact (mirrors_emitBlock bodies block).yields fun _ settled _ _ => settled
  | none =>
    refine (MirrorsFrom.of .bind).yields fun _ _ terminator ended => ?_
    cases found.symm.trans ended

theorem mirrors_emitLoop (bodies : MirrorsBodies ρ m body body') {l : Loop}
    (kind : inst.kind = .loop l) (perm : exits.Perm l.exits) (ordered : exits = l.exits ∨ m.ExitsApart inst) :
    MirrorsFrom ρ (fun _ => True) (fun s => s.Sited (.merge id) ∧ Constructed m s inst) Eq
      (emitLoop m body scopes id inst l)
      (emitLoop other body' scopes (ρ.inst id) (ρ.instDef { inst with kind := .loop { l with exits } })
        (ρ.loop { l with exits })) := by
  rw [emitLoop_eq, emitLoop_eq]
  refine .next (mirrors_initializerLabel l.initializer) fun initializerLabel _ same => ?_
  obtain ⟨rfl, labelled⟩ := same
  refine .gain (mirrors_label l.body) fun bodyLabel _ same => ?_
  subst same
  refine .next mirrors_labelId fun continuingLabel _ same => ?_
  subst same
  refine .next .fresh fun header _ same => ?_
  subst same
  refine .gain (mirrors_merge id) fun merge _ same => ?_
  subst same
  refine .gain (mirrors_enterLoop bodies header labelled) fun _ _ _ => .next .emit fun _ _ _ =>
    .next mirrors_emitIncomingPhis fun _ _ _ => .next .emit fun _ _ _ => .next .emit fun _ _ _ =>
    .next .emit fun _ _ _ => .gain (bodies _ _ l.body) fun _ _ _ =>
    .gain (mirrors_returnLoop bodies header continuingLabel l.continuing) fun _ _ _ => .next .emit fun _ _ _ => ?_
  have constructed (s : LowerState) (labelled : s.Sited (.label l.body))
      (initial : ∀ block, l.initializer = some block → Settled m s block)
      (insts : ∀ id ∈ m.instsOf l.body, InstSettled m s id)
      (last : ∀ terminator, m.terminator? l.continuing = .ok (some terminator) → Settled m s l.continuing) :
      Constructed m s inst := by
    intro child opens
    cases opens with
    | initializer kind' first =>
      cases kind.symm.trans kind'
      exact initial child first
    | body kind' =>
      cases kind.symm.trans kind'
      exact settled_of_insts labelled insts
    | continuing kind' ended =>
      cases kind.symm.trans kind'
      exact last _ ended
    | branch kind' | case kind' => cases kind.symm.trans kind'
  refine (mirrors_exitPhis (by rw [kind]; rfl) rfl perm ordered ?_).yields ?_
  · rintro s ⟨⟨⟨⟨⟨-, labelled⟩, -⟩, initial⟩, insts⟩, last⟩
    exact constructed s labelled initial insts last
  · rintro s ⟨⟨⟨⟨⟨-, labelled⟩, merged⟩, initial⟩, insts⟩, last⟩
    exact ⟨merged, constructed s labelled initial insts last⟩

omit alike in
instance {label : Word} {selector : Selector} :
    Mirrors ρ Eq (selectorOperands id label selector) (selectorOperands (ρ.inst id) label (ρ.selector selector)) := by
  cases selector with
  | otherwise => exact .pure
  | value constant =>
    refine (Mirrors.askPool fun same => same.word? constant).same fun word => ?_
    cases word with
    | none => exact .fail
    | some word => exact .pure

omit alike in
instance {case : Case} :
    Mirrors ρ Eq (caseOperands id case) (caseOperands (ρ.inst id) (ρ.case case)) := by
  dsimp only [caseOperands, Renumbering.case]
  infer_instance

theorem mirrors_emitSwitch (bodies : MirrorsBodies ρ m body body') {s : Switch}
    (kind : inst.kind = .switch s) (perm : exits.Perm s.exits) (ordered : exits = s.exits ∨ m.ExitsApart inst) :
    MirrorsFrom ρ (fun _ => True) (fun s => s.Sited (.merge id) ∧ Constructed m s inst) Eq
      (emitSwitch m body scopes id inst s)
      (emitSwitch other body' scopes (ρ.inst id) (ρ.instDef { inst with kind := .switch { s with exits } })
        (ρ.switch { s with exits })) := by
  refine .next (Mirrors.check (follows_defaultBlock id s)) fun default _ same => ?_
  subst same
  refine .next mirrors_labelId fun defaultLabel _ same => ?_
  subst same
  refine .next mirrors_valueId fun condition _ same => ?_
  subst same
  refine .next (Mirrors.mapMSame) fun cases _ same => ?_
  subst same
  refine .gain (mirrors_merge id) fun merge _ same => ?_
  subst same
  refine .next .emit fun _ _ _ => .next .emit fun _ _ _ => .gain (MirrorsFrom.forM fun case _ =>
    mirrors_emitBlock bodies case.block) fun _ _ _ => .next .emit fun _ _ _ => ?_
  have constructed (t : LowerState) (settled : ∀ case ∈ s.cases, Settled m t case.block) : Constructed m t inst := by
    intro child opens
    cases opens with
    | case kind' member =>
      cases kind.symm.trans kind'
      exact settled _ member
    | branch kind' | initializer kind' | body kind' | continuing kind' => cases kind.symm.trans kind'
  exact (mirrors_exitPhis (by rw [kind]; rfl) rfl perm ordered fun t known => constructed t known.2).yields
    fun t known => ⟨known.1.2, constructed t known.2⟩

/-- The branches out of every construct are listed in the same order, or their order does not matter. -/
def SameOrder (ρ : Renumbering) (m other : Module) : Prop :=
  ∀ id inst new, m.inst id = .ok inst → other.inst (ρ.inst id) = .ok new →
    new.kind.exits = inst.kind.exits.map ρ.inst ∨ m.ExitsApart inst

omit alike in
/-- An instruction that is no construct opens no block. -/
theorem instSettled_of_plain {s : LowerState} (held : m.inst id = .ok inst) (plain : inst.kind.isControl = false) :
    InstSettled m s id := by
  intro inst' held'
  cases held.symm.trans held'
  refine ⟨fun control => absurd control (plain ▸ Bool.false_ne_true), fun child opens => ?_⟩
  cases opens with
  | branch kind | initializer kind | body kind | continuing kind | case kind =>
    rw [kind] at plain
    cases plain

theorem mirrors_emitKind (bodies : MirrorsBodies ρ m body body')
    (held : m.inst id = .ok inst) (perm : exits.Perm inst.kind.exits)
    (ordered : exits = inst.kind.exits ∨ m.ExitsApart inst) :
    MirrorsFrom ρ (fun _ => True) (fun s => InstSettled m s id) Eq (emitKind m options body scopes id inst)
      (emitKind other options body' scopes (ρ.inst id)
        (ρ.instDef { inst with kind := inst.kind.withExits exits })) := by
  have plain {step step' : Lower Unit} (whole : inst.kind.isControl = false) (mirrors : Mirrors ρ Eq step step') :
      MirrorsFrom ρ (fun _ => True) (fun s => InstSettled m s id) Eq step step' :=
    (MirrorsFrom.of mirrors).yields fun _ _ => instSettled_of_plain held whole
  have built (s : LowerState) (settled : s.Sited (.merge id) ∧ Constructed m s inst) : InstSettled m s id := by
    intro inst' held'
    cases held.symm.trans held'
    exact ⟨fun _ => settled.1, settled.2⟩
  obtain ⟨kind, results, block⟩ := inst
  cases kind with
  | access => exact plain rfl mirrors_emitAccess
  | binary => exact plain rfl mirrors_emitBinary
  | unary => exact plain rfl mirrors_emitUnary
  | bitcast => exact plain rfl mirrors_emitBitcast
  | convert => exact plain rfl mirrors_emitConvert
  | construct => exact plain rfl mirrors_emitConstruct
  | swizzle => exact plain rfl mirrors_emitSwizzle
  | load => exact plain rfl mirrors_emitLoad
  | store => exact plain rfl mirrors_emitStore
  | loadElement => exact plain rfl mirrors_emitLoadElement
  | storeElement => exact plain rfl mirrors_emitStoreElement
  | var => exact plain rfl mirrors_declareVariable
  | bind => exact plain rfl mirrors_passThrough
  | builtin => exact plain rfl mirrors_emitBuiltin
  | targetCall => exact plain rfl mirrors_emitTargetCall
  | call => exact plain rfl mirrors_emitCall
  | conditional => exact (mirrors_emitConditional bodies rfl perm ordered).yields built
  | loop => exact (mirrors_emitLoop bodies rfl perm ordered).yields built
  | switch => exact (mirrors_emitSwitch bodies rfl perm ordered).yields built
  | _ =>
    refine plain rfl ?_
    dsimp only [emitKind, instDef, Kind.withExits, Renumbering.kind]
    exact mirrors_emitTerminator

theorem mirrors_emitInst (bodies : MirrorsBodies ρ m body body') (order : SameOrder ρ m other) :
    MirrorsFrom ρ (fun _ => True) (fun s => InstSettled m s id) Eq (emitInst m options body scopes id)
      (emitInst other options body' scopes (ρ.inst id)) := by
  refine .next (Mirrors.check (alike.inst id).seen) fun inst _ seen => ?_
  obtain ⟨held, found, exits, perm, rfl⟩ := seen
  have ordered : exits = inst.kind.exits ∨ m.ExitsApart inst := by
    refine (order id inst _ held found).imp_left fun same => ?_
    exact inst_injective.list_map ((SameInst.exits_withExits perm).symm.trans same)
  refine .gain (mirrors_emitKind bodies held perm ordered) fun _ _ _ => ?_
  refine (MirrorsFrom.of ?_).yields fun _ known => known.2
  obtain ⟨kind, results, block⟩ := inst
  cases kind
  case var => exact .pure
  all_goals exact mirrors_nameResults rfl

theorem mirrors_emitBodyWithin (order : SameOrder ρ m other) (options : Options) (depth : Nat) :
    MirrorsBodies ρ m (emitBodyWithin m options depth) (emitBodyWithin other options depth) := by
  induction depth with
  | zero => exact fun _ _ _ => ⟨fun _ _ ran => by cases ran⟩
  | succ depth ih =>
    intro known scopes block
    refine .always ?_
    refine .next (Mirrors.check (alike.block block).seen) fun b _ seen => ?_
    obtain ⟨found, -, rfl⟩ := seen
    rw [Module.instsOf_eq found]
    refine .gain (MirrorsFrom.forM fun id _ => mirrors_emitInst ih order) fun _ _ _ => ?_
    simp only [blockDef, isEmpty_map]
    exact (MirrorsFrom.of inferInstance).yields fun _ known => known.2

end

end Lower
end Shader
