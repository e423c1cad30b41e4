import Shader.Proofs.Lowering.Layout

/-!
The phis of block parameters and of results, and what a lowering refers to for the sake of an
instruction.
-/
namespace Shader.Lower

open Binary Instruction List LowerState Effect

variable {L : Ledger} {e e' : Effect} {extra : Multiset Word} {counted : Multiset Key → Prop}
  {described : List Instruction → Prop} {only : Instruction}
variable {counted' : Multiset Key → Prop} {described' : List Instruction → Prop} {α β : Type} {units : List Unit}
  {id : Word} {s : LowerState}

/-- A branch of a conditional that has no block of its own. -/
def Elided (m : Module) (inst : Inst) (block : BlockId) : Prop :=
  ∃ c, inst.kind = .conditional c ∧ needsBlock m (!inst.results.isEmpty) block = .ok false

theorem not_elided (other : ∀ c, inst.kind ≠ .conditional c) : ¬Elided m inst block :=
  fun ⟨c, kind, _⟩ => other c kind

/-- The block has phis for its parameters, which stand in the header if it is the body of a loop. -/
def Joined (m : Module) (inst : Inst) (block : BlockId) (b : Block) : Prop :=
  (b.insts ≠ [] ∧ ¬Elided m inst block) ∨ ∃ l, inst.kind = .loop l ∧ l.body = block

/-- A branch that carries arguments leaves from the label of the key. -/
def LeavesWith (m : Module) (args : Kind → List Value) (branch : InstId) (key : Key) : Prop :=
  ∃ inst, m.inst branch = .ok inst ∧ args inst.kind ≠ [] ∧ leavingKey m branch = .ok key

/-- What the lowering of an instruction refers to, the blocks it owns aside. -/
inductive Mentions (m : Module) (id : InstId) (inst : Inst) : Key → Prop where
  | operand {value : ValueId} (member : .ssa value ∈ inst.kind.operands) : Mentions m id inst (.value value)
  | result {value : ValueId} (member : value ∈ inst.results) : Mentions m id inst (.value value)
  | callee {function : FuncId} {args : List Value} (kind : inst.kind = .call function args) :
      Mentions m id inst (.function function)
  | merge (control : inst.kind.isControl = true) : Mentions m id inst (.merge id)
  | child {block : BlockId} (member : block ∈ inst.kind.children) (laid : ¬Elided m inst block) :
      Mentions m id inst (.label block)
  | continuing {target : InstId} {args : List Value} {construct : Inst} {l : Loop}
      (kind : inst.kind = .continueTo target args) (found : m.inst target = .ok construct)
      (loop : construct.kind = .loop l) : Mentions m id inst (.label l.continuing)
  | param {block : BlockId} {b : Block} {value : ValueId} (member : block ∈ inst.kind.children)
      (found : m.block block = .ok b) (joined : Joined m inst block b) (param : value ∈ b.params) :
      Mentions m id inst (.value value)
  | inboundArg {block : BlockId} {b : Block} {branch : InstId} {source : Inst} {value : ValueId}
      (member : block ∈ inst.kind.children) (found : m.block block = .ok b) (joined : Joined m inst block b)
      (params : b.params ≠ []) (listed : branch ∈ b.inbound) (held : m.inst branch = .ok source)
      (arg : .ssa value ∈ source.kind.branchArgs) : Mentions m id inst (.value value)
  | inboundLabel {block : BlockId} {b : Block} {branch : InstId} {key : Key}
      (member : block ∈ inst.kind.children) (found : m.block block = .ok b) (joined : Joined m inst block b)
      (params : b.params ≠ []) (listed : branch ∈ b.inbound)
      (leaves : LeavesWith m Kind.branchArgs branch key) : Mentions m id inst key
  | exitArg {branch : InstId} {source : Inst} {value : ValueId} (results : inst.results ≠ [])
      (listed : branch ∈ inst.kind.exits) (held : m.inst branch = .ok source)
      (arg : .ssa value ∈ source.kind.exitArgs) : Mentions m id inst (.value value)
  | exitLabel {branch : InstId} {key : Key} (results : inst.results ≠ [])
      (listed : branch ∈ inst.kind.exits) (leaves : LeavesWith m Kind.exitArgs branch key) :
      Mentions m id inst key
  | onward {block : BlockId} {b : Block} {parent : InstId} {owner : Inst}
      (member : block ∈ inst.kind.children) (found : m.block block = .ok b) (empty : b.insts = [])
      (owned : b.parent = some parent) (held : m.inst parent = .ok owner) (results : owner.results ≠ []) :
      Mentions m id inst (.merge parent)

/-- Blocks have a label, and so do constructs for the place after them. -/
def Key.isPlace : Key → Bool
  | .label _ | .merge _ => true
  | .value _ | .function _ => false

/-- The ids of the labels of some code. -/
def labelIds (code : List Instruction) : Multiset Word :=
  results (code.filter fun only => only.op = .label)

@[simp] theorem labelIds_nil : labelIds [] = 0 := rfl

@[simp] theorem labelIds_append (first second : List Instruction) :
    labelIds (first ++ second) = labelIds first + labelIds second := by
  simp [labelIds]

theorem labelIds_eq_zero {code : List Instruction} (none : ∀ only ∈ code, only.op ≠ .label) : labelIds code = 0 := by
  have empty : code.filter (fun only => only.op = .label) = [] := by simpa using none
  rw [labelIds, empty, results_nil]

/-- Every label of the code is that of a place or, as often as it stands there, one of the free ids. -/
def LabelsKnown (L : Ledger) (free : Multiset Word) (code : List Instruction) : Prop :=
  ∃ placed fresh, labelIds code = placed + fresh ∧
    (∀ id ∈ placed, ∃ key : Key, key.isPlace = true ∧ (key, id) ∈ L.state.bindings) ∧ fresh ≤ free

namespace LabelsKnown

variable {L : Ledger} {free free' : Multiset Word} {code code' : List Instruction}

theorem append (first : LabelsKnown L free code) (second : LabelsKnown L free' code') :
    LabelsKnown L (free + free') (code ++ code') := by
  obtain ⟨placed, fresh, ids, bound, within⟩ := first
  obtain ⟨placed', fresh', ids', bound', within'⟩ := second
  refine ⟨placed + placed', fresh + fresh', ?_, fun id member => ?_, add_le_add within within'⟩
  · rw [labelIds_append, ids, ids']
    abel
  · exact (Multiset.mem_add.mp member).elim (bound id) (bound' id)

theorem mono (known : LabelsKnown L free code) (more : free ≤ free') : LabelsKnown L free' code := by
  obtain ⟨placed, fresh, ids, bound, within⟩ := known
  exact ⟨placed, fresh, ids, bound, within.trans more⟩

theorem of_none (none : ∀ only ∈ code, only.op ≠ .label) : LabelsKnown L free code :=
  ⟨0, 0, labelIds_eq_zero none, by simp, Multiset.zero_le free⟩

end LabelsKnown

/-- Code of a function along with the declarations it needs. What `counted` holds of are the keys it
defines or lets share an id. -/
structure Lays (m : Module) (reached : InstId → Prop) (allowed : Key → Prop) (L : Ledger)
    (extra : Multiset Word) (counted : Multiset Key → Prop) (described : List Instruction → Prop)
    (e : Effect) : Prop where
  functions : e.functions = []
  passed : ∀ entry ∈ e.aliases, Passed m reached L entry.1 entry.2
  code : described e.code
  labels : LabelsKnown L (e.loose + extra) e.code
  accounts : ∀ keys, counted keys → Accounts allowed L extra keys e

variable {m : Module} {reached : InstId → Prop} {allowed : Key → Prop}

/-- Silent steps are laid out as nothing. -/
theorem Lays.of_silent (silent : Silent allowed e) : Lays m reached allowed L 0 (· = 0) (· = []) e where
  functions := silent.functions
  passed entry member := by simp [silent.aliases] at member
  code := silent.code
  labels := .of_none (by simp [silent.code])
  accounts keys same := same ▸ .of_silent silent

theorem Lays.append {extra' : Multiset Word} (first : Lays m reached allowed L extra counted described e)
    (second : Lays m reached allowed L extra' counted' described' e') :
    Lays m reached allowed L (extra + extra') (fun keys => ∃ a b, counted a ∧ counted' b ∧ keys = a + b)
      (fun code => ∃ a b, described a ∧ described' b ∧ code = a ++ b) (e ++ e') where
  functions := by simp [first.functions, second.functions]
  passed entry member := by
    rw [aliases_append, mem_append] at member
    exact member.elim (first.passed entry) (second.passed entry)
  code := ⟨_, _, first.code, second.code, rfl⟩
  labels := by
    refine (first.labels.append second.labels).mono (le_of_eq ?_)
    rw [loose_append]
    abel
  accounts := by
    rintro _ ⟨a, b, countedA, countedB, rfl⟩
    exact (first.accounts a countedA).append (second.accounts b countedB)

theorem Lays.mono
    (laid : Lays m reached allowed L extra counted described e) (counts : ∀ keys, counted' keys → counted keys)
    (describes : ∀ code, described code → described' code) : Lays m reached allowed L extra counted' described' e :=
  ⟨laid.functions, laid.passed, describes _ laid.code, laid.labels,
    fun keys held => laid.accounts keys (counts keys held)⟩

/-- Code laid out for each element of a list. -/
theorem Lays.of_each {counted : α → Multiset Key → Prop} {described : α → List Instruction → Prop} {list : List α}
    (each : Each (fun a (_ : Unit) e => Lays m reached allowed L 0 (counted a) (described a) e) list units e) :
    Lays m reached allowed L 0 (fun keys => ∃ parts, Forall₂ counted list parts ∧ keys = parts.sum)
      (fun code => ∃ codes, Forall₂ described list codes ∧ code = codes.flatten) e := by
  induction each with
  | nil =>
    refine (Lays.of_silent .empty).mono ?_ ?_
    · rintro _ ⟨parts, counted, rfl⟩
      cases counted
      rfl
    · rintro _ rfl
      exact ⟨[], .nil, rfl⟩
  | cons head tail ih =>
    have whole := head.append ih
    rw [add_zero] at whole
    refine whole.mono ?_ ?_
    · rintro _ ⟨parts, counted, rfl⟩
      cases counted with
      | cons first rest => exact ⟨_, _, first, ⟨_, rest, rfl⟩, rfl⟩
    · rintro _ ⟨first, _, described, ⟨rest, describedRest, rfl⟩, rfl⟩
      exact ⟨first :: rest, .cons described describedRest, rfl⟩

theorem lays_instruction {key : Key} (result : only.result = some id)
    (bound : (key, id) ∈ L.state.bindings) (placed : only.op = .label → key.isPlace = true) :
    Lays m reached allowed L 0 (· = {key}) (· = [only]) (.ofCode [only]) where
  functions := rfl
  passed entry member := by simp [ofCode] at member
  code := rfl
  labels := by
    by_cases isLabel : only.op = .label
    · refine ⟨{id}, 0, ?_, fun other member => ?_, Multiset.zero_le _⟩
      · simp [ofCode, labelIds, isLabel, results_cons, result]
      · cases Multiset.mem_singleton.mp member
        exact ⟨key, placed isLabel, bound⟩
    · exact .of_none (by simpa [ofCode] using isLabel)
  accounts keys same := same ▸ .ofCode result bound

theorem lays_nothing (result : only.result = none) :
    Lays m reached allowed L 0 (· = 0) (· = [only]) (.ofCode [only]) where
  functions := rfl
  passed entry member := by simp [ofCode] at member
  code := rfl
  labels := by
    refine ⟨0, 0, ?_, by simp, Multiset.zero_le _⟩
    by_cases isLabel : only.op = .label <;> simp [ofCode, labelIds, isLabel, results_cons, result]
  accounts keys same := same ▸ .ofCode_nothing result

theorem lays_extra (result : only.result = some id) :
    Lays m reached allowed L {id} (· = 0) (· = [only]) (.ofCode [only]) where
  functions := rfl
  passed entry member := by simp [ofCode] at member
  code := rfl
  labels := by
    by_cases isLabel : only.op = .label
    · refine ⟨0, {id}, ?_, by simp, Multiset.le_add_left ..⟩
      simp [ofCode, labelIds, isLabel, results_cons, result]
    · exact .of_none (by simpa [ofCode] using isLabel)
  accounts keys same := same ▸ .ofCode_extra result

theorem Lays.silent_append (silent : Silent allowed e') (laid : Lays m reached allowed L extra counted described e) :
    Lays m reached allowed L extra counted described (e' ++ e) := by
  have whole := (Lays.of_silent silent).append laid
  rw [zero_add] at whole
  refine whole.mono (fun keys counted => ⟨0, keys, rfl, counted, (zero_add keys).symm⟩) ?_
  rintro _ ⟨_, code, rfl, described, rfl⟩
  exact described

theorem Lays.append_silent (laid : Lays m reached allowed L extra counted described e) (silent : Silent allowed e') :
    Lays m reached allowed L extra counted described (e ++ e') := by
  have whole := laid.append (Lays.of_silent silent)
  rw [add_zero] at whole
  refine whole.mono (fun keys counted => ⟨keys, 0, counted, rfl, (add_zero keys).symm⟩) ?_
  rintro _ ⟨code, _, described, rfl, rfl⟩
  rw [append_nil]
  exact described

instance {extra : β → Multiset Word} {counted : β → Ledger → Multiset Key → Prop}
    {described : β → Ledger → List Instruction → Prop} :
    Absorbs allowed fun (b : β) L e =>
      Lays m reached allowed L (extra b) (counted b L) (described b L) e where
  before _ _ _ _ silent laid := laid.silent_append silent
  after _ _ _ _ silent laid := laid.append_silent silent

/-- A list of results that are each made from something related. -/
theorem forall₂_map_of_exists {γ : Type} {related : α → γ → Prop} {make : γ → β} {as : List α}
    {bs : List β} (each : Forall₂ (fun a b => ∃ c, related a c ∧ b = make c) as bs) :
    ∃ cs, Forall₂ related as cs ∧ bs = cs.map make := by
  induction each with
  | nil => exact ⟨[], .nil, rfl⟩
  | cons head _ ih =>
    obtain ⟨c, holds, rfl⟩ := head
    obtain ⟨cs, rest, rfl⟩ := ih
    exact ⟨c :: cs, .cons holds rest, rfl⟩

theorem classify_ids (pairs : List (Word × Word)) (position : Nat) :
    Repetition.ids.classify position (pairs.flatMap fun pair => [.id pair.1, .id pair.2]) =
      pairs.flatMap fun pair => [.id pair.1, .id pair.2] := by
  induction pairs generalizing position with
  | nil => rfl
  | cons pair rest ih =>
    simp only [flatMap_cons, cons_append, nil_append, Repetition.classify,
      Operand.classified, Operand.idWord?, ih]

theorem make_phi {ty : Word} {pairs : List (Word × Word)}
    (made : make .phi (.id ty :: .id id :: pairs.flatMap fun pair => [.id pair.1, .id pair.2]) = .ok only) :
    only = joining ty id pairs := by
  rw [make_typed rfl rfl made]
  have classified : classify (some .ids) [] (pairs.flatMap fun pair => [.id pair.1, .id pair.2]) =
        pairs.flatMap fun pair => [.id pair.1, .id pair.2] := by
    refine Eq.trans ?_ (classify_ids pairs 0)
    cases pairs <;> rfl
  unfold joining
  congr 1

theorem leavingKey_eq_ok {branch : InstId} {key : Key} (leaves : leavingKey m branch = .ok key) :
    ∃ inst b earlier last, m.inst branch = .ok inst ∧ m.block inst.block = .ok b ∧
      before? b.insts branch = some earlier ∧
      lastControl? m earlier = .ok last ∧ key = last.elim (.label inst.block) .merge := by
  obtain ⟨inst, held, rest⟩ := bind_eq_ok.mp leaves
  obtain ⟨b, found, rest⟩ := bind_eq_ok.mp rest
  cases earlier : before? b.insts branch with
  | none =>
    rw [earlier] at rest
    cases rest
  | some before =>
    rw [earlier] at rest
    obtain ⟨last, isLast, same⟩ := bind_eq_ok.mp rest
    cases last <;> cases same <;> exact ⟨inst, b, before, _, held, found, earlier, isLast, rfl⟩

/-- The label is that of a block or of the place after a construct. -/
theorem leavingLabel_cases (m : Module) (branch : InstId) : (∃ fault, leavingLabel m branch = fail fault) ∨
    ∃ key, leavingKey m branch = .ok key ∧ ((∃ block, key = .label block ∧ leavingLabel m branch = labelId block) ∨
      ∃ construct, key = .merge construct ∧ leavingLabel m branch = mergeId construct) := by
  have ok_bind {α β : Type} (a : α) (next : α → Except Fault β) : (Except.ok a >>= next) = next a := rfl
  unfold leavingLabel leavingKey
  cases m.inst branch with
  | error fault => exact .inl ⟨fault, rfl⟩
  | ok inst =>
    simp only [check, pure_bind, ok_bind]
    cases m.block inst.block with
    | error fault => exact .inl ⟨fault, rfl⟩
    | ok b =>
      simp only [pure_bind, ok_bind]
      cases before? b.insts branch with
      | none => exact .inl ⟨_, rfl⟩
      | some earlier =>
        dsimp only [standingKey]
        cases lastControl? m earlier with
        | error fault => exact .inl ⟨fault, rfl⟩
        | ok last =>
          simp only [pure_bind, ok_bind]
          cases last with
          | none => exact .inr ⟨_, rfl, .inl ⟨_, rfl, rfl⟩⟩
          | some construct => exact .inr ⟨_, rfl, .inr ⟨_, rfl, rfl⟩⟩

theorem gathers_leavingLabel (branch : InstId) (fits : ∀ key, leavingKey m branch = .ok key → allowed key) :
    Gathers allowed (leavingLabel m branch) fun label s => Leaving m s branch label := by
  rcases leavingLabel_cases m branch with ⟨fault, stuck⟩ | ⟨_, leaves, ⟨block, rfl, same⟩ | ⟨construct, rfl, same⟩⟩
  · rw [stuck]
    exact .fail _
  · rw [same]
    exact (gathers_labelId (fits _ leaves)).mono fun label s bound => ⟨_, leaves, bound⟩
  · rw [same]
    exact (gathers_mergeId (fits _ leaves)).mono fun label s bound => ⟨_, leaves, bound⟩

theorem gathers_incoming (block : BlockId) (index : Nat) (branch : InstId)
    (labels : ∀ key, LeavesWith m Kind.branchArgs branch key → allowed key)
    (args : ∀ inst value, m.inst branch = .ok inst → .ssa value ∈ inst.kind.branchArgs → allowed (.value value)) :
    Gathers allowed (incoming m block index branch) fun operands s =>
      ∃ pair : Word × Word, Brings m s Kind.branchArgs index branch pair ∧ operands = [.id pair.1, .id pair.2] := by
  unfold incoming
  refine .check_next fun inst found => ?_
  cases arg : inst.kind.branchArgs[index]? with
  | none => exact .fail _
  | some value =>
    have member := mem_of_getElem? arg
    refine (gathers_valueId m fun v same => args inst v found (same ▸ member)).bind fun id => ?_
    refine (gathers_leavingLabel branch fun key leaves =>
      labels key ⟨inst, found, ne_nil_of_mem member, leaves⟩).bind fun label => .pure ?_
    intro s leaves resolved
    exact ⟨(id, label), ⟨inst, value, found, arg, resolved, leaves⟩, rfl⟩

theorem sum_singletons (f : α → β) (list : List α) : (list.map fun a => ({f a} : Multiset β)).sum = ↑(list.map f) := by
  induction list with
  | nil => rfl
  | cons a rest ih => simp only [map_cons, sum_cons, ih, Multiset.singleton_add, Multiset.cons_coe]

/-- Phis, one for each value of a list, with what is described for each. -/
theorem lays_phis {values : List ValueId} {joined : ValueId × Nat → Instruction → Prop}
    (each : Each (fun (value : ValueId × Nat) (_ : Unit) e => Lays m reached allowed L 0
      (· = {Key.value value.1}) (fun code => ∃ phi, joined value phi ∧ code = [phi]) e)
      values.zipIdx units e) :
    Lays m reached allowed L 0 (· = ↑(values.map Key.value)) (Forall₂ joined values.zipIdx) e := by
  refine (Lays.of_each each).mono ?_ ?_
  · rintro _ rfl
    refine ⟨values.zipIdx.map fun value => {Key.value value.1}, ?_, ?_⟩
    · rw [forall₂_map_right_iff]
      exact forall₂_same.mpr fun _ _ => rfl
    · rw [sum_singletons, ← Function.comp_def Key.value, ← map_map, zipIdx_map_fst]
  · rintro _ ⟨codes, each, rfl⟩
    obtain ⟨phis, joins, rfl⟩ := forall₂_map_of_exists each
    rw [← flatMap_def, flatMap_singleton']
    exact joins

theorem ensures_incomingPhis {block : BlockId} {b : Block} (found : m.block block = .ok b)
    (params : ∀ value ∈ b.params, allowed (.value value))
    (labels : b.params ≠ [] → ∀ branch ∈ b.inbound, ∀ key, LeavesWith m Kind.branchArgs branch key → allowed key)
    (args : b.params ≠ [] → ∀ branch ∈ b.inbound, ∀ inst value, m.inst branch = .ok inst →
      .ssa value ∈ inst.kind.branchArgs → allowed (.value value)) :
    Ensures (emitIncomingPhis m block) fun _ L e =>
      Lays m reached allowed L 0 (· = ↑(b.params.map Key.value)) (IncomingPhis m L.state block) e := by
  unfold emitIncomingPhis
  simp only [found, check, pure_bind]
  suffices joined : ∀ param ∈ b.params.zipIdx, Ensures _ fun _ L e =>
        Lays m reached allowed L 0 (· = {Key.value param.1}) (fun code => ∃ phi,
          IncomingPhi m L.state b.inbound param phi ∧ code = [phi]) e from
    (Ensures.forM b.params.zipIdx joined).mono fun _ L e each =>
      (lays_phis each).mono (fun _ same => same) fun _ joins => ⟨b, found, joins⟩
  intro param member
  have held : param.1 ∈ b.params := fst_mem_of_mem_zipIdx member
  have inhabited : b.params ≠ [] := ne_nil_of_mem held
  refine .after (.check _) fun definition => .after (gathers_typeId m _) fun typeWord => ?_
  refine .after (gathers_valueId m fun v same => ?_) fun id => ?_
  · cases same
    exact params _ held
  refine .after (Gathers.mapM b.inbound fun branch listed => gathers_incoming block param.2 branch
    (labels inhabited branch listed) (args inhabited branch listed)) fun branches => ?_
  refine .emit fun L only made brought bound _ _ => ?_
  obtain ⟨pairs, brings, rfl⟩ := forall₂_map_of_exists brought
  have phi : only = joining typeWord id pairs := by
    apply make_phi
    rw [flatMap_def]
    exact made
  have result : only.result = some id := by rw [phi]; rfl
  refine (lays_instruction result bound (by simp [phi, joining])).mono (fun _ same => same) ?_
  rintro _ rfl
  exact ⟨only, ⟨typeWord, id, pairs, bound, brings, phi⟩, rfl⟩

theorem gathers_outgoing (construct : InstId) (index : Nat) (exit : InstId)
    (labels : ∀ key, LeavesWith m Kind.exitArgs exit key → allowed key) :
    Gathers allowed (outgoing m construct index exit) fun branch s =>
      ∃ inst, m.inst exit = .ok inst ∧ inst.kind.exitArgs[index]? = some branch.2 ∧
        Leaving m s exit branch.1 := by
  unfold outgoing
  refine .check_next fun inst found => ?_
  cases arg : inst.kind.exitArgs[index]? with
  | none => exact .fail _
  | some value =>
    have carries : inst.kind.exitArgs ≠ [] := ne_nil_of_mem (mem_of_getElem? arg)
    refine (gathers_leavingLabel exit fun key leaves => labels key ⟨inst, found, carries, leaves⟩).bind
      fun label => .pure fun s leaves => ?_
    exact ⟨inst, found, arg, leaves⟩

theorem insertByLabel_perm (branch : Word × Value) (branches : List (Word × Value)) :
    (insertByLabel branch branches).Perm (branch :: branches) := by
  induction branches with
  | nil => exact .refl _
  | cons first rest ih =>
    unfold insertByLabel
    split
    · exact .refl _
    · exact (ih.cons first).trans (.swap branch first rest)

theorem sortByLabel_perm (branches : List (Word × Value)) : (sortByLabel branches).Perm branches := by
  induction branches with
  | nil => exact .refl _
  | cons branch rest ih =>
    have inserted : sortByLabel (branch :: rest) = insertByLabel branch (sortByLabel rest) := rfl
    rw [inserted]
    exact (insertByLabel_perm _ _).trans (ih.cons branch)

/-- The label of a block if it is empty. -/
def LabelIfEmpty (m : Module) (s : LowerState) (block : BlockId) (words : List Word) : Prop :=
  (isEmptyBlock m block = true ∧ ∃ word, (Key.label block, word) ∈ s.bindings ∧ words = [word]) ∨
    (isEmptyBlock m block = false ∧ words = [])

theorem LabelIfEmpty.flatten {blocks : List BlockId} {found : List (List Word)}
    (each : Forall₂ (LabelIfEmpty m s) blocks found) :
    Forall₂ (fun block word => (Key.label block, word) ∈ s.bindings)
      (blocks.filter (isEmptyBlock m)) found.flatten := by
  induction each with
  | nil => exact .nil
  | cons head _ ih =>
    rcases head with ⟨empty, word, bound, rfl⟩ | ⟨inhabited, rfl⟩
    · rw [filter_cons_of_pos empty]
      exact .cons bound ih
    · rw [filter_cons_of_neg (ne_true_of_eq_false inhabited)]
      exact ih

theorem gathers_emptyLabels (blocks : List BlockId)
    (labels : ∀ block ∈ blocks, isEmptyBlock m block = true → allowed (.label block)) :
    Gathers allowed (emptyLabels m blocks) fun words s =>
      Forall₂ (fun block word => (Key.label block, word) ∈ s.bindings) (blocks.filter (isEmptyBlock m)) words := by
  refine (Gathers.mapM blocks fun block member => (?_ : Gathers allowed _ fun words s =>
    LabelIfEmpty m s block words)).bind fun found => .pure fun s labels => LabelIfEmpty.flatten labels
  · refine .check_next fun b held => ?_
    have same : isEmptyBlock m block = b.insts.isEmpty := by simp only [isEmptyBlock, held]
    refine .ite (fun empty => ?_) (fun inhabited => .pure fun s => ?_)
    · refine (gathers_labelId (labels block member (same.trans empty))).bind fun word => .pure ?_
      exact fun s bound => .inl ⟨same.trans empty, word, bound, rfl⟩
    · exact .inr ⟨same.trans (eq_false_of_ne_true inhabited), rfl⟩

/-- The values that branches out of a construct carry for a result, in the order of the labels. -/
theorem brings_of_sorted {index : Nat} {exits : List InstId}
    {branches : List (Word × Value)} {listed : List (Word × Word)}
    (leave : Forall₂ (fun exit branch => ∃ inst, m.inst exit = .ok inst ∧
      inst.kind.exitArgs[index]? = some (Prod.snd branch) ∧ Leaving m s exit (Prod.fst branch)) exits branches)
    (resolve : Forall₂ (fun branch pair => Resolves (Prod.snd branch) (Prod.fst pair) s ∧
      Prod.snd pair = Prod.fst branch) (sortByLabel branches) listed) :
    ∃ pairs, Forall₂ (Brings m s Kind.exitArgs index) exits pairs ∧ listed.Perm pairs := by
  obtain ⟨pairs, resolved, permuted⟩ :=
    perm_comp_forall₂ (sortByLabel_perm branches).symm resolve
  refine ⟨pairs, (forall₂_comp leave resolved).imp ?_, permuted.symm⟩
  rintro exit pair ⟨branch, ⟨inst, found, arg, leaves⟩, resolves, same⟩
  exact ⟨inst, branch.2, found, arg, resolves, same ▸ leaves⟩

theorem ensures_exitPhis (construct : InstId) (inst : Inst) (exits : List InstId) (implicit : List BlockId)
    (results : ∀ value ∈ inst.results, allowed (.value value))
    (labels : inst.results ≠ [] → ∀ exit ∈ exits, ∀ key, LeavesWith m Kind.exitArgs exit key → allowed key)
    (args : inst.results ≠ [] → ∀ exit ∈ exits, ∀ branch value, m.inst exit = .ok branch →
      .ssa value ∈ branch.kind.exitArgs → allowed (.value value))
    (empty : inst.results ≠ [] → ∀ block ∈ implicit, isEmptyBlock m block = true → allowed (.label block)) :
    Ensures (emitExitPhis m construct inst exits implicit) fun _ L e =>
      Lays m reached allowed L 0 (· = ↑(inst.results.map Key.value)) (ExitPhis m L.state inst exits implicit) e := by
  unfold emitExitPhis
  suffices joined : ∀ result ∈ inst.results.zipIdx, Ensures _ fun _ L e =>
        Lays m reached allowed L 0 (· = {Key.value result.1}) (fun code => ∃ phi,
          ExitPhi m L.state exits implicit result phi ∧ code = [phi]) e from
    (Ensures.forM inst.results.zipIdx joined).mono fun _ _ _ each => lays_phis each
  intro result member
  have held : result.1 ∈ inst.results := fst_mem_of_mem_zipIdx member
  have inhabited : inst.results ≠ [] := ne_nil_of_mem held
  refine .after (.check _) fun definition => ?_
  refine .after_fact (fun branches => ∀ branch ∈ branches, ∀ value, branch.2 = .ssa value →
    allowed (.value value)) (Gathers.mapM exits fun exit listed =>
    gathers_outgoing construct result.2 exit (labels inhabited exit listed)) ?_ fun branches fit => ?_
  · intro branches s leave branch listed value same
    obtain ⟨exit, isExit, source, found, arg, -⟩ := forall₂_mem_right leave listed
    exact args inhabited exit isExit source value found (same ▸ mem_of_getElem? arg)
  refine .after (gathers_emptyLabels implicit (empty inhabited)) fun words => ?_
  refine .after (gathers_typeId m _) fun typeWord => ?_
  refine .after (gathers_valueId m fun v same => ?_) fun id => ?_
  · cases same
    exact results _ held
  refine .after (Gathers.mapM _ fun branch listed => (?_ : Gathers allowed _ fun operands s => ∃ pair : Word × Word,
    (Resolves branch.2 pair.1 s ∧ pair.2 = branch.1) ∧ operands = [Operand.id pair.1, .id pair.2]))
      fun listedOperands => ?_
  · have original := (sortByLabel_perm branches).mem_iff.mp listed
    refine (gathers_valueId m fun v same => fit branch original v same).bind fun word => .pure ?_
    exact fun s resolved => ⟨(word, branch.1), ⟨resolved, rfl⟩, rfl⟩
  refine .after (Gathers.mapM _ fun word _ => (?_ : Gathers allowed _ fun operands _ => ∃ pair : Word × Word,
    pair.2 = word ∧ operands = [Operand.id pair.1, .id pair.2])) fun undefinedOperands => ?_
  · refine (gathers_undefId m _).bind fun undefined => .pure fun s _ => ?_
    exact ⟨(undefined, word), rfl, rfl⟩
  refine .emit fun L only made brought resolved bound _ empty leave _ => ?_
  obtain ⟨listed, resolves, rfl⟩ := forall₂_map_of_exists resolved
  obtain ⟨undefined, labelled, rfl⟩ := forall₂_map_of_exists brought
  obtain ⟨pairs, brings, permuted⟩ := brings_of_sorted leave resolves
  have phi : only = joining typeWord id (listed ++ undefined) := by
    apply make_phi
    rw [flatMap_def, map_append]
    exact made
  have result : only.result = some id := by rw [phi]; rfl
  refine (lays_instruction result bound (by simp [phi, joining])).mono (fun _ same => same) ?_
  rintro _ rfl
  refine ⟨only, ⟨typeWord, id, pairs, listed, undefined, bound, brings, permuted, ?_, phi⟩, rfl⟩
  refine (forall₂_comp empty labelled).imp ?_
  rintro block pair ⟨word, bound, same⟩
  exact same ▸ bound

end Shader.Lower
