import Shader.Proofs.Renumbering
import Shader.Proofs.Lowering.Throughout

/-!
Two lowerings side by side.

The lowering of a renumbered module runs through states that differ from those of the module only in what their
tables are keyed by. `Mirrored` relates such states, and `Mirrors` says that wherever a step succeeds, the other
one succeeds with a result that agrees and leads to a related state. What a step reads of a module is read through
a renumbering, so the relation passes from the steps to the whole.
-/
namespace Shader

open List Renumbering Lower

variable {op : Opcode} {operands : List Operand}
variable {s t u : LowerState}

/-- The table with other keys. -/
def Table.rename {κ ι : Type} (table : Table κ) (change : κ → ι) : Table ι := ⟨table.entries.map (Prod.map change id)⟩

namespace Table

variable {κ ι : Type} {table : Table κ} {change : κ → ι}

theorem find?_rename [DecidableEq κ] [DecidableEq ι] (injective : change.Injective) (key : κ) :
    (table.rename change).find? (change key) = table.find? key := by
  obtain ⟨entries⟩ := table
  simp only [find?, rename]
  induction entries with
  | nil => rfl
  | cons entry rest ih =>
    obtain ⟨first, id⟩ := entry
    by_cases same : key = first
    · simp [same]
    · have other : change key ≠ change first := fun equal => same (injective equal)
      simpa [lookup_cons, beq_false_of_ne same, beq_false_of_ne other] using ih

theorem insert_rename (key : κ) (id : Binary.Word) :
    (table.rename change).insert (change key) id = (table.insert key id).rename change := rfl

@[simp] theorem rename_id : table.rename id = table := by
  simp [rename]

end Table

namespace LowerState

/-- The labels of blocks and of the places after constructs. -/
def places (s : LowerState) : List Binary.Word := s.labels.entries.map Prod.snd ++ s.merges.entries.map Prod.snd

/-- No two places have one label, and no label is still to be handed out. -/
def Apart (s : LowerState) : Prop := s.places.Nodup ∧ ∀ id ∈ s.places, id.toNat < s.out.ids.next.toNat

/-- The places of a state keep their labels in a later one. -/
def Later (s t : LowerState) : Prop :=
  s.labels.entries ⊆ t.labels.entries ∧ s.merges.entries ⊆ t.merges.entries

theorem Later.refl (s : LowerState) : s.Later s := ⟨fun _ member => member, fun _ member => member⟩

theorem Later.trans (first : s.Later t) (second : t.Later u) : s.Later u :=
  ⟨fun _ member => second.1 (first.1 member), fun _ member => second.2 (first.2 member)⟩

end LowerState

namespace Renumbering

/-- The pools hold the same constants, each once. -/
structure SamePool (ρ : Renumbering) (pool other : Pool) : Prop where
  items : Permutes ρ.constants (fun entry new => new = ρ.stored entry) pool.items other.items
  once : pool.items.toList.Nodup

/-- The states of the lowerings of a module and of the renumbered module at the same point. -/
structure Mirrored (ρ : Renumbering) (s t : LowerState) : Prop where
  pool : ρ.SamePool s.pool t.pool
  out : t.out = s.out
  code : t.code = s.code
  types : t.types = s.types.rename ρ.ty
  signatures : t.signatures = s.signatures
  constants : t.constants = s.constants.rename ρ.constant
  nulls : t.nulls = s.nulls.rename ρ.ty
  undefs : t.undefs = s.undefs.rename ρ.ty
  values : t.values = s.values.rename ρ.value
  functions : t.functions = s.functions
  labels : t.labels = s.labels.rename ρ.block
  merges : t.merges = s.merges.rename ρ.inst
  imports : t.imports = s.imports
  apart : s.Apart

/-- More is assembled from both. -/
theorem Mirrored.output {ρ : Renumbering} (mirrored : ρ.Mirrored s t) {out : Binary.Assembly}
    {code : Option Binary.FunctionCode} (grown : s.out.ids.next.toNat ≤ out.ids.next.toNat) :
    ρ.Mirrored { s with out, code } { t with out, code } :=
  { mirrored with
    out := rfl
    code := rfl
    apart := ⟨mirrored.apart.1, fun id member => Nat.lt_of_lt_of_le (mirrored.apart.2 id member) grown⟩ }

/-- There is one renumbered state. -/
theorem Mirrored.unique {ρ : Renumbering} (first : ρ.Mirrored s t) (second : ρ.Mirrored s u) : t = u := by
  have pool : t.pool = u.pool := congrArg Pool.mk (first.pool.items.unique second.pool.items)
  cases t
  cases u
  rw [LowerState.mk.injEq]
  exact ⟨pool, first.out.trans second.out.symm, first.types.trans second.types.symm,
    first.signatures.trans second.signatures.symm, first.constants.trans second.constants.symm,
    first.nulls.trans second.nulls.symm, first.undefs.trans second.undefs.symm, first.values.trans second.values.symm,
    first.functions.trans second.functions.symm, first.labels.trans second.labels.symm,
    first.merges.trans second.merges.symm, first.imports.trans second.imports.symm, first.code.trans second.code.symm⟩

end Renumbering

namespace Lower

open Binary

variable {ρ : Renumbering} {α β γ δ : Type} {agree : α → β → Prop} {last : γ → δ → Prop}

/-- Where the step succeeds from a state, the other one succeeds from the related state. -/
class Mirrors (ρ : Renumbering) (agree : α → β → Prop) (step : Lower α) (other : Lower β) : Prop where
  run : ∀ {s t a u}, ρ.Mirrored s t → step.run s = .ok (a, u) →
    s.Later u ∧ ∃ b v, other.run t = .ok (b, v) ∧ ρ.Mirrored u v ∧ agree a b

namespace Mirrors

variable {other : Lower β} {step : Lower α} {rest : α → Lower γ} {others : β → Lower δ} {outcome : Except Fault α}
  {κ ι : Type} {change : κ → ι}

instance fail {fault : Fault} : Mirrors ρ agree (fail fault) other :=
  ⟨fun _ ran => by cases ran⟩

instance fail_bind {fault : Fault} {next : γ → Lower α} : Mirrors ρ agree (Lower.fail fault >>= next) other :=
  ⟨fun _ ran => by cases ran⟩

theorem returning {a : α} {b : β} (same : agree a b) : Mirrors ρ agree (pure a) (pure b) :=
  ⟨fun {s t _ _} mirrored ran => by cases ran; exact ⟨.refl s, b, t, rfl, mirrored, same⟩⟩

instance pure {a : α} : Mirrors ρ Eq (pure a) (pure a) := returning rfl

theorem next (first : Mirrors ρ agree step other) (second : ∀ a b, agree a b → Mirrors ρ last (rest a) (others b)) :
    Mirrors ρ last (step >>= rest) (other >>= others) := by
  refine ⟨fun {s t c u} mirrored ran => ?_⟩
  obtain ⟨a, middle, ran, done⟩ := run_bind_eq_ok.mp ran
  obtain ⟨later, b, reached, followed, related, same⟩ := first.run mirrored ran
  obtain ⟨latest, d, v, finished, ended, agrees⟩ := (second a b same).run related done
  refine ⟨later.trans latest, d, v, ?_, ended, agrees⟩
  rw [StateT.run_bind]
  exact bind_eq_ok.mpr ⟨_, followed, finished⟩

/-- As `next`, for results that are the same. -/
theorem same {other : Lower α} {others : α → Lower δ} (first : Mirrors ρ Eq step other)
    (second : ∀ a, Mirrors ρ last (rest a) (others a)) : Mirrors ρ last (step >>= rest) (other >>= others) :=
  first.next fun a _ same => same ▸ second a

/-- As `next`, for a result that is the other one renumbered. -/
theorem onto {change : α → β} (first : Mirrors ρ (fun a b => b = change a) step other)
    (second : ∀ a, Mirrors ρ last (rest a) (others (change a))) :
    Mirrors ρ last (step >>= rest) (other >>= others) :=
  first.next fun a _ same => same ▸ second a

instance bind {other : Lower α} {others : α → Lower δ} [first : Mirrors ρ Eq step other]
    [second : ∀ a, Mirrors ρ last (rest a) (others a)] : Mirrors ρ last (step >>= rest) (other >>= others) :=
  first.next fun a _ same => same ▸ second a

/-- A step that looks at the state. -/
theorem reading {rest : LowerState → Lower γ} {others : LowerState → Lower δ}
    (each : ∀ s t, ρ.Mirrored s t → Mirrors ρ last (rest s) (others t)) :
    Mirrors ρ last (get >>= rest) (get >>= others) :=
  ⟨fun {s t _ _} mirrored ran => (each s t mirrored).run mirrored ran⟩

theorem check {other : Except Fault β} (follows : Follows agree outcome other) :
    Mirrors ρ agree (check outcome) (check other) := by
  cases outcome with
  | error fault => exact fail
  | ok a =>
    obtain ⟨b, rfl, same⟩ := follows a rfl
    exact returning same

instance checkSame : Mirrors ρ Eq (Lower.check outcome) (Lower.check outcome) :=
  check fun a made => ⟨a, made, rfl⟩

instance branch {condition : Prop} {decide decide' : Decidable condition} {yes no : Lower α} {yes' no' : Lower β}
    [first : Mirrors ρ agree yes yes'] [second : Mirrors ρ agree no no'] :
    Mirrors ρ agree (@ite _ condition decide yes no) (@ite _ condition decide' yes' no') := by
  by_cases holds : condition
  · rw [if_pos holds, if_pos holds]
    exact first
  · rw [if_neg holds, if_neg holds]
    exact second

theorem map {f : α → γ} {g : β → δ} (made : Mirrors ρ agree step other)
    (same : ∀ a b, agree a b → last (f a) (g b)) : Mirrors ρ last (f <$> step) (g <$> other) := by
  rw [← bind_pure_comp, ← bind_pure_comp]
  exact made.next fun a b agrees => returning (same a b agrees)

instance {f : α → γ} {other : Lower α} [made : Mirrors ρ Eq step other] :
    Mirrors ρ Eq (f <$> step) (f <$> other) :=
  made.map fun _ _ same => congrArg f same

theorem mapM {give : α → β} {step : κ → Lower α} {other : ι → Lower β} {list : List κ}
    (each : ∀ key ∈ list, Mirrors ρ (fun a b => b = give a) (step key) (other (change key))) :
    Mirrors ρ (fun made found => found = made.map give) (list.mapM step) ((list.map change).mapM other) := by
  induction list with
  | nil => exact returning rfl
  | cons key rest ih =>
    rw [map_cons, mapM_cons, mapM_cons]
    refine (each key mem_cons_self).next fun a b same => ?_
    refine (ih fun key member => each key (mem_cons_of_mem _ member)).next fun made found all => ?_
    exact returning (by rw [same, all, map_cons])

instance mapMSame {step : κ → Lower α} {other : ι → Lower α} {list : List κ}
    [each : ∀ key, Mirrors ρ Eq (step key) (other (change key))] :
    Mirrors ρ Eq (list.mapM step) ((list.map change).mapM other) := by
  induction list with
  | nil => exact pure
  | cons key rest ih =>
    rw [map_cons, mapM_cons, mapM_cons]
    infer_instance

instance {step other : κ → Lower α} {list : List κ}
    [each : ∀ key, Mirrors ρ Eq (step key) (other key)] : Mirrors ρ Eq (list.mapM step) (list.mapM other) := by
  have mapped := @mapMSame ρ α κ κ (fun key => key) step other list each
  rwa [map_id'] at mapped

theorem forM {step : κ → Lower Unit} {other : ι → Lower Unit} {list : List κ}
    (each : ∀ key ∈ list, Mirrors ρ Eq (step key) (other (change key))) :
    Mirrors ρ Eq (list.forM step) ((list.map change).forM other) := by
  induction list with
  | nil => exact pure
  | cons key rest ih =>
    refine (each key mem_cons_self).next fun _ _ _ => ?_
    exact ih fun key member => each key (mem_cons_of_mem _ member)

instance {step other : κ → Lower Unit} {list : List κ}
    [each : ∀ key, Mirrors ρ Eq (step key) (other key)] : Mirrors ρ Eq (list.forM step) (list.forM other) := by
  have mapped := @forM ρ κ κ (fun key => key) step other list fun key _ => each key
  rwa [map_id'] at mapped

/-- A step that only looks at what was assembled so far, and only adds to it. -/
theorem of_output (reads : ∀ s t : LowerState, t.out = s.out → t.code = s.code →
      step.run t = (step.run s).map fun done => (done.1, { t with out := done.2.out, code := done.2.code }))
    (keeps : ∀ {s a u}, step.run s = .ok (a, u) → u = { s with out := u.out, code := u.code } ∧
      s.out.ids.next.toNat ≤ u.out.ids.next.toNat) : Mirrors ρ Eq step step := by
  refine ⟨fun {s t a u} mirrored ran => ?_⟩
  obtain ⟨same, grown⟩ := keeps ran
  have again := reads s t mirrored.out mirrored.code
  rw [ran] at again
  rw [same]
  exact ⟨.refl s, a, _, again, mirrored.output grown, rfl⟩

instance fresh : Mirrors ρ Eq fresh fresh := by
  refine of_output (fun s t out code => ?_) fun {s a u} ran => ?_
  · simp only [Lower.fresh, StateT.run_bind, StateT.run_get, pure_bind, out]
    cases taken : s.out.takeId? with
    | none => rfl
    | some pair =>
      rw [← code]
      rfl
  · have next := fresh_next ran
    obtain ⟨rfl, rfl, room⟩ := fresh_run ran
    exact ⟨rfl, by omega⟩

instance emit : Mirrors ρ Eq (emit op operands) (emit op operands) := by
  refine of_output (fun s t out same => ?_) fun {s a u} ran => ?_
  · simp only [Lower.emit, StateT.run_bind, StateT.run_get, pure_bind, same]
    cases s.code with
    | none => rfl
    | some code =>
      cases pushed : code.push op operands with
      | error fault =>
        simp only [pushed]
        rfl
      | ok after =>
        simp only [pushed, ← out]
        rfl
  · obtain ⟨code, inst, -, -, rfl⟩ := emit_run ran
    exact ⟨rfl, le_rfl⟩

instance emitLocal : Mirrors ρ Eq (emitLocal operands) (emitLocal operands) := by
  refine of_output (fun s t out same => ?_) fun {s a u} ran => ?_
  · simp only [Lower.emitLocal, StateT.run_bind, StateT.run_get, pure_bind, same]
    cases s.code with
    | none => rfl
    | some code =>
      cases pushed : code.pushLocal operands with
      | error fault =>
        simp only [pushed]
        rfl
      | ok after =>
        simp only [pushed, ← out]
        rfl
  · obtain ⟨code, inst, -, -, rfl⟩ := emitLocal_run ran
    exact ⟨rfl, le_rfl⟩

instance add {part : Assembly.Section} : Mirrors ρ Eq (add part op operands) (add part op operands) := by
  refine of_output (fun s t out code => ?_) fun {s a u} ran => ?_
  · simp only [Lower.add, StateT.run_bind, StateT.run_get, pure_bind, out]
    cases pushed : s.out.push part op operands with
    | error fault => rfl
    | ok after =>
      rw [← code]
      rfl
  · obtain ⟨inst, -, rfl⟩ := add_run ran
    refine ⟨rfl, ?_⟩
    cases part <;> exact le_rfl

theorem modify {change other : LowerState → LowerState}
    (related : ∀ {s t}, ρ.Mirrored s t → ρ.Mirrored (change s) (other t))
    (later : ∀ s : LowerState, s.Later (change s)) :
    Mirrors ρ Eq (modify change : Lower Unit) (modify other) :=
  ⟨fun {s t a u} mirrored ran => by cases ran; exact ⟨later s, (), _, rfl, related mirrored, rfl⟩⟩

instance require {capability : Capability} : Mirrors ρ Eq (require capability) (require capability) := by
  refine modify (fun {s t} mirrored => ?_) .refl
  have ids : (s.out.pushCapability capability).ids = s.out.ids := by
    unfold Assembly.pushCapability
    split <;> rfl
  rw [mirrored.out, mirrored.code]
  exact mirrored.output (by rw [ids])

instance requireExtension {name : String} : Mirrors ρ Eq (requireExtension name) (requireExtension name) := by
  refine modify (fun {s t} mirrored => ?_) .refl
  have ids : (s.out.pushExtension name).ids = s.out.ids := by
    unfold Assembly.pushExtension
    split <;> rfl
  rw [mirrored.out, mirrored.code]
  exact mirrored.output (by rw [ids])

instance declare : Mirrors ρ Eq (declare op operands) (declare op operands) := add

instance decorate {id : Word} {words : List Word} : Mirrors ρ Eq (decorate id words) (decorate id words) := add

instance nameId {id : Word} {name : String} : Mirrors ρ Eq (nameId id name) (nameId id name) := add

end Mirrors

/-- A register whose keys are renumbered. -/
structure Register.Renames {κ : Type} (ρ : Renumbering) (register : Register κ) (change : κ → κ) : Prop where
  injective : change.Injective
  read : ∀ {s t}, ρ.Mirrored s t → register.read t = (register.read s).rename change

/-- A register that holds no labels. -/
structure Register.Unmarked {κ : Type} (ρ : Renumbering) (register : Register κ) (change : κ → κ) : Prop
    extends Register.Renames ρ register change where
  write : ∀ {s t}, ρ.Mirrored s t → ∀ table,
    ρ.Mirrored (register.write table s) (register.write (table.rename change) t)
  later : ∀ (s : LowerState) table, s.Later (register.write table s) := by exact fun s _ => .refl s

section
variable (ρ)

theorem unmarked_types : Register.types.Unmarked ρ ρ.ty where
  injective := ty_injective
  read mirrored := mirrored.types
  write mirrored _ := { mirrored with types := rfl }

theorem unmarked_signatures : Register.signatures.Unmarked ρ id where
  injective := Function.injective_id
  read mirrored := by rw [Table.rename_id]; exact mirrored.signatures
  write mirrored _ := { mirrored with signatures := Table.rename_id }

theorem unmarked_constants : Register.constants.Unmarked ρ ρ.constant where
  injective := constant_injective
  read mirrored := mirrored.constants
  write mirrored _ := { mirrored with constants := rfl }

theorem unmarked_nulls : Register.nulls.Unmarked ρ ρ.ty where
  injective := ty_injective
  read mirrored := mirrored.nulls
  write mirrored _ := { mirrored with nulls := rfl }

theorem unmarked_undefs : Register.undefs.Unmarked ρ ρ.ty where
  injective := ty_injective
  read mirrored := mirrored.undefs
  write mirrored _ := { mirrored with undefs := rfl }

theorem unmarked_values : Register.values.Unmarked ρ ρ.value where
  injective := value_injective
  read mirrored := mirrored.values
  write mirrored _ := { mirrored with values := rfl }

theorem unmarked_functions : Register.functions.Unmarked ρ id where
  injective := Function.injective_id
  read mirrored := by rw [Table.rename_id]; exact mirrored.functions
  write mirrored _ := { mirrored with functions := Table.rename_id }

theorem unmarked_imports : Register.imports.Unmarked ρ id where
  injective := Function.injective_id
  read mirrored := by rw [Table.rename_id]; exact mirrored.imports
  write mirrored _ := { mirrored with imports := Table.rename_id }

theorem renames_labels : Register.labels.Renames ρ ρ.block :=
  ⟨block_injective, fun mirrored => mirrored.labels⟩

theorem renames_merges : Register.merges.Renames ρ ρ.inst :=
  ⟨inst_injective, fun mirrored => mirrored.merges⟩

end

namespace Mirrors

variable {κ : Type} [DecidableEq κ] {register : Register κ} {change : κ → κ} {key : κ} {make other : Lower Word}

/-- A key that is renumbered is in the register of the other state if it is in that of the one. -/
theorem rememberWith (renames : register.Renames ρ change) (made : Mirrors ρ Eq make other)
    (written : ∀ {s id u v}, s.Apart → make.run s = .ok (id, u) → ρ.Mirrored u v →
      u.Later (register.write ((register.read u).insert key id) u) ∧
        ρ.Mirrored (register.write ((register.read u).insert key id) u)
          (register.write (((register.read u).insert key id).rename change) v)) :
    Mirrors ρ Eq (remember register key make) (remember register (change key) other) := by
  refine ⟨fun {s t id u} mirrored ran => ?_⟩
  have same : (register.read t).find? (change key) = (register.read s).find? key := by
    rw [renames.read mirrored, Table.find?_rename renames.injective]
  rcases remember_run ran with ⟨found, rfl⟩ | ⟨absent, middle, ranMake, rfl⟩
  · exact ⟨.refl _, id, t, remember_of_find? (same.trans found), mirrored, rfl⟩
  · obtain ⟨later, _, v, followed, related, rfl⟩ := made.run mirrored ranMake
    obtain ⟨latest, final⟩ := written mirrored.apart ranMake related
    refine ⟨later.trans latest, id, _, remember_of_none (same.trans absent) followed, ?_, rfl⟩
    rw [renames.read related, Table.insert_rename]
    exact final

theorem remember (unmarked : register.Unmarked ρ change) (made : Mirrors ρ Eq make other) :
    Mirrors ρ Eq (remember register key make) (remember register (change key) other) :=
  rememberWith unmarked.toRenames made fun _ _ related => ⟨unmarked.later _ _, unmarked.write related _⟩

omit [DecidableEq κ] in
theorem enter (unmarked : register.Unmarked ρ change) {id : Word} :
    Mirrors ρ Eq (enter register key id) (enter register (change key) id) := by
  refine modify (fun {s t} mirrored => ?_) fun s => unmarked.later s _
  rw [unmarked.read mirrored, Table.insert_rename]
  exact unmarked.write mirrored _

end Mirrors

/-- A new label is apart from the others. -/
theorem apart_of_fresh {id : Word} (apart : s.Apart) (ran : fresh.run s = .ok (id, u))
    (more : t.places.Perm (id :: s.places)) (ids : t.out.ids = u.out.ids) : t.Apart := by
  have next := fresh_next ran
  obtain ⟨rfl, -, -⟩ := fresh_run ran
  refine ⟨more.nodup_iff.mpr (nodup_cons.mpr ⟨fun member => ?_, apart.1⟩), fun id member => ?_⟩
  · exact Nat.lt_irrefl _ (apart.2 _ member)
  · rw [ids, next]
    rcases mem_cons.mp (more.mem_iff.mp member) with rfl | earlier
    · exact Nat.lt_succ_self _
    · exact Nat.lt_succ_of_lt (apart.2 id earlier)

instance mirrors_labelId {block : BlockId} : Mirrors ρ Eq (labelId block) (labelId (ρ.block block)) := by
  refine .rememberWith (renames_labels ρ) .fresh fun {s id u v} apart ran related => ?_
  refine ⟨⟨fun _ member => mem_cons_of_mem _ member, fun _ member => member⟩,
    { related with labels := rfl, apart := ?_ }⟩
  refine apart_of_fresh apart ran ?_ rfl
  obtain ⟨-, rfl, -⟩ := fresh_run ran
  exact .refl _

instance mirrors_mergeId {construct : InstId} : Mirrors ρ Eq (mergeId construct) (mergeId (ρ.inst construct)) := by
  refine .rememberWith (renames_merges ρ) .fresh fun {s id u v} apart ran related => ?_
  refine ⟨⟨fun _ member => member, fun _ member => mem_cons_of_mem _ member⟩,
    { related with merges := rfl, apart := ?_ }⟩
  refine apart_of_fresh apart ran ?_ rfl
  obtain ⟨-, rfl, -⟩ := fresh_run ran
  exact perm_middle

instance mirrors_functionId {function : FuncId} : Mirrors ρ Eq (functionId function) (functionId function) :=
  .remember (unmarked_functions ρ) .fresh

end Lower

namespace Renumbering.SamePool

variable {ρ : Renumbering} {pool other : Pool}

section
variable (same : ρ.SamePool pool other)
include same

theorem get (id : ConstId) : Follows (fun a b => b = ρ.stored a) (pool.get id) (other.get (ρ.constant id)) :=
  same.items.follows Pool.get_eq_ok Pool.get_eq_ok

theorem typeOf (id : ConstId) : Follows (fun a b => b = ρ.ty a) (pool.typeOf id) (other.typeOf (ρ.constant id)) := by
  refine (same.get id).bind fun a b found => .pure ?_
  rw [found, stored_ty]

theorem word? (id : ConstId) : Follows Eq (pool.word? id) (other.word? (ρ.constant id)) := by
  refine (same.get id).bind fun a b found => ?_
  subst found
  cases a with
  | scalar value => cases value <;> exact .pure rfl
  | composite | splat => exact .pure rfl

theorem element (id : ConstId) (index : Nat) :
    Follows (fun a b => b = ρ.constant a) (pool.element id index) (other.element (ρ.constant id) index) := by
  refine (same.get id).bind fun a b found => ?_
  subst found
  cases a with
  | scalar => exact .error
  | composite ty elements =>
    simp only [stored, getElem?_map]
    cases elements[index]? with
    | none => exact .error
    | some element => exact .pure rfl
  | splat => exact .pure rfl

theorem allZeroWithin (depth : Nat) (id : ConstId) :
    Follows Eq (pool.allZeroWithin depth id) (other.allZeroWithin depth (ρ.constant id)) := by
  induction depth generalizing id with
  | zero => exact .error
  | succ depth ih =>
    refine (same.get id).bind fun a b found => ?_
    subst found
    cases a with
    | scalar => exact .pure rfl
    | composite => exact .allM fun element _ => ih element
    | splat ty element count => exact ih element

theorem size : other.size = pool.size := same.items.size

theorem allZero (id : ConstId) : Follows Eq (pool.allZero id) (other.allZero (ρ.constant id)) := by
  rw [Pool.allZero, Pool.allZero, same.size]
  exact same.allZeroWithin _ id

/-- A constant is at the new position of where it was, if it was stored. -/
theorem position? (constant : Constant) :
    other.position? (ρ.stored constant) = (pool.position? constant).map ρ.constants := by
  have back {index : Nat} (found : other.position? (ρ.stored constant) = some index) :
      ∃ earlier, pool.position? constant = some earlier ∧ index = ρ.constants earlier := by
    obtain ⟨earlier, entry, held, stored, rfl⟩ := same.items.source (Pool.getElem?_of_position? found)
    cases stored_injective stored
    exact ⟨earlier, Pool.position?_of_getElem? same.once held, rfl⟩
  cases found : other.position? (ρ.stored constant) with
  | some index =>
    obtain ⟨earlier, held, rfl⟩ := back found
    rw [held, Option.map_some]
  | none =>
    cases held : pool.position? constant with
    | none => rfl
    | some earlier =>
      obtain ⟨new, there, rfl⟩ := same.items.entry _ _ (Pool.getElem?_of_position? held)
      have absent := Array.findIdx?_eq_none_iff.mp found _ (Array.mem_of_getElem? there)
      simp at absent

/-- A new constant gets the same position in both. -/
theorem insert (constant : Constant) : (other.insert (ρ.stored constant)).1 = ρ.constant (pool.insert constant).1 ∧
      ρ.SamePool (pool.insert constant).2 (other.insert (ρ.stored constant)).2 := by
  simp only [Pool.insert, stored_canonical, same.position?]
  cases found : pool.position? constant.canonical with
  | some index => exact ⟨rfl, same⟩
  | none =>
    refine ⟨?_, same.items.push rfl, ?_⟩
    · simp only [Renumbering.constant, Pool.size, same.items.fixed _ le_rfl, same.items.size, Option.map_none]
    · have absent (item : Constant) (member : item ∈ pool.items) : item ≠ constant.canonical := by
        simpa using Array.findIdx?_eq_none_iff.mp found item member
      simpa [nodup_append, same.once] using absent

end

end Renumbering.SamePool

namespace Lower

variable {ρ : Renumbering} {α β : Type} {agree : α → β → Prop}

theorem Mirrors.askPool {read : Pool → Except Fault α} {other : Pool → Except Fault β}
    (follows : ∀ {pool pool'}, ρ.SamePool pool pool' → Follows agree (read pool) (other pool')) :
    Mirrors ρ agree (askPool read) (askPool other) := by
  refine ⟨fun {s t a u} mirrored ran => ?_⟩
  exact (Mirrors.check (follows mirrored.pool)).run mirrored ran

theorem mirrors_intern {constant : Constant} :
    Mirrors ρ (fun a b => b = ρ.constant a) (intern constant) (intern (ρ.stored constant)) := by
  refine ⟨fun {s t a u} mirrored ran => ?_⟩
  obtain ⟨id, pool⟩ := mirrored.pool.insert constant
  cases ran
  exact ⟨.refl s, _, _, rfl, { mirrored with pool }, id⟩

end Lower
end Shader
