import Shader.Proofs.Lowering.Ensures

/-!
Steps that add nothing to the function.

Most steps of a lowering look something up and declare it if it is new. Such a step may take ids and add
declarations, and every id it takes for itself is defined by one of them. Since it adds no instruction to
the function, any number of them before an instruction change nothing about it: `Ensures.after` drops
them from a description.
-/
namespace Shader.Binary

open Instruction

variable {op : Opcode} {inst : Instruction}

theorem Instruction.make_typed {ty id : Word} {rest : List Operand} (hasType : op.grammar.resultType = true)
    (hasResult : op.grammar.result = true) (made : make op (.id ty :: .id id :: rest) = .ok inst) :
    inst = ⟨op, some ty, some id, classify op.grammar.rest op.grammar.fixed rest⟩ := by
  simp only [make_eq, makeBy, takeIf, takeResult, hasType, hasResult, Operand.idWord?, bind, Except.bind, if_true]
    at made
  split at made
  · cases made
  · cases made
    rfl

theorem Instruction.make_untyped {id : Word} {rest : List Operand} (hasType : op.grammar.resultType = false)
    (hasResult : op.grammar.result = true) (made : make op (.id id :: rest) = .ok inst) :
    inst = ⟨op, none, some id, classify op.grammar.rest op.grammar.fixed rest⟩ := by
  simp only [make_eq, makeBy, takeIf, takeResult, hasType, hasResult, Operand.idWord?, bind, Except.bind,
    if_true, Bool.false_eq_true, if_false] at made
  split at made
  · cases made
  · cases made
    rfl

theorem Instruction.make_plain {operands : List Operand} (hasType : op.grammar.resultType = false)
    (hasResult : op.grammar.result = false) (made : make op operands = .ok inst) :
    inst = ⟨op, none, none, classify op.grammar.rest op.grammar.fixed operands⟩ := by
  simp only [make_eq, makeBy, takeIf, hasType, hasResult, bind, Except.bind, Bool.false_eq_true, if_false] at made
  split at made
  · cases made
  · cases made
    rfl

end Shader.Binary

namespace Shader.Lower

open Binary LowerState

variable {id : Word} {β : Type} {allowed : Key → Prop}

/-- Adds declarations at most. They define the given ids besides those that are taken here, and only
allowed keys get an id. -/
structure Declares (allowed : Key → Prop) (ids : Multiset Word) (e : Effect) : Prop where
  code : e.code = []
  locals : e.locals = []
  functions : e.functions = []
  aliases : e.aliases = []
  keyed : ∀ entry ∈ e.keyed, allowed entry.1
  results : e.results = e.loose + ids

/-- Adds declarations at most, and defines what it takes. -/
abbrev Silent (allowed : Key → Prop) (e : Effect) : Prop := Declares allowed 0 e

namespace Declares

variable {allowed : Key → Prop} {ids more : Multiset Word} {e e' : Effect}

theorem empty : Silent allowed ∅ :=
  ⟨rfl, rfl, rfl, rfl, fun entry member => by simp at member, rfl⟩

theorem append (first : Declares allowed ids e) (second : Declares allowed more e') :
    Declares allowed (ids + more) (e ++ e') where
  code := by simp [first.code, second.code]
  locals := by simp [first.locals, second.locals]
  functions := by simp [first.functions, second.functions]
  aliases := by simp [first.aliases, second.aliases]
  keyed entry member := by
    rw [Effect.keyed_append, Multiset.mem_add] at member
    exact member.elim (first.keyed entry) (second.keyed entry)
  results := by
    rw [Effect.results_append, Effect.loose_append, first.results, second.results]
    abel

theorem silent_append (first : Silent allowed e) (second : Declares allowed ids e') :
    Declares allowed ids (e ++ e') := by
  simpa using first.append second

theorem append_silent (first : Declares allowed ids e) (second : Silent allowed e') :
    Declares allowed ids (e ++ e') := by
  simpa using first.append second

/-- One declaration. -/
theorem ofGlobal {inst : Instruction} (result : inst.result = some id) :
    Declares allowed {id} { globals := [inst] } := by
  refine ⟨rfl, rfl, rfl, rfl, fun entry member => by simp [Effect.keyed] at member, ?_⟩
  simp [Effect.results, Effect.loose, results_cons, result]

theorem ofImport {inst : Instruction} (result : inst.result = some id) :
    Declares allowed {id} { imports := [inst] } := by
  refine ⟨rfl, rfl, rfl, rfl, fun entry member => by simp [Effect.keyed] at member, ?_⟩
  simp [Effect.results, Effect.loose, results_cons, result]

/-- An id that is taken and then declared. -/
theorem taken (declared : Declares allowed {id} e) : Silent allowed ({ taken := [(none, id)] } ++ e) where
  code := declared.code
  locals := declared.locals
  functions := declared.functions
  aliases := declared.aliases
  keyed entry member := by
    rw [Effect.keyed_append, Multiset.mem_add] at member
    refine member.elim (fun held => ?_) (declared.keyed entry)
    simp [Effect.keyed] at held
  results := by
    have nothing : ({ taken := [(none, id)] } : Effect).results = 0 := rfl
    have one : ({ taken := [(none, id)] } : Effect).loose = {id} := rfl
    rw [Effect.results_append, Effect.loose_append, declared.results, nothing, one]
    abel

/-- An id taken for a key. -/
theorem ofKey {key : Key} (fits : allowed key) : Silent allowed { taken := [(some key, id)] } := by
  refine ⟨rfl, rfl, rfl, rfl, fun entry member => ?_, rfl⟩
  have same : entry = (key, id) := by simpa [Effect.keyed] using member
  rw [same]
  exact fits

end Declares

/-- The step adds nothing to the function, and what it says about its result stays true. -/
def Gathers {α : Type} (allowed : Key → Prop) (step : Lower α) (known : α → LowerState → Prop) : Prop :=
  Ensures step fun a L e => Silent allowed e ∧ known a L.state

namespace Gathers

variable {α β : Type} {allowed : Key → Prop} {step : Lower α} {known weaker : α → LowerState → Prop}
variable {later : β → LowerState → Prop}

theorem mono (gathered : Gathers allowed step known) (implied : ∀ a s, known a s → weaker a s) :
    Gathers allowed step weaker :=
  Ensures.mono gathered fun a L _ ⟨silent, held⟩ => ⟨silent, implied a L.state held⟩

theorem pure {a : α} (holds : ∀ s, known a s) : Gathers allowed (pure a) known :=
  Ensures.pure fun L => ⟨.empty, holds L.state⟩

theorem of_empty {described : α → Ledger → Effect → Prop} (ensured : Ensures step described)
    (empty : ∀ a L e, described a L e → e = ∅ ∧ known a L.state) : Gathers allowed step known := by
  refine ensured.mono fun a L e held => ?_
  obtain ⟨rfl, implied⟩ := empty a L e held
  exact ⟨.empty, implied⟩

theorem bind {next : α → Lower β} (first : Gathers allowed step known)
    (second : ∀ a, Gathers allowed (next a) fun b s => known a s → later b s) :
    Gathers allowed (step >>= next) later := by
  refine Ensures.bind first fun a => Ensures.mono (second a) ?_
  intro b L e ⟨silent, implied⟩ e' ⟨silent', held⟩
  exact ⟨silent'.silent_append silent, implied held⟩

theorem map {f : α → β} (first : Gathers allowed step known)
    (implied : ∀ a s, known a s → later (f a) s) : Gathers allowed (f <$> step) later :=
  Ensures.map first fun a L _ ⟨silent, held⟩ => ⟨silent, implied a L.state held⟩

theorem fail (fault : Fault) : Gathers allowed (Lower.fail fault) known := Ensures.fail fault

theorem fail_bind (fault : Fault) {next : β → Lower α} :
    Gathers allowed (Lower.fail fault >>= next) known := Ensures.fail_bind fault

theorem check (outcome : Except Fault α) : Gathers allowed (Lower.check outcome) fun a _ => outcome = .ok a :=
  Ensures.check fun _ _ found => ⟨.empty, found⟩

theorem check_next {outcome : Except Fault α} {next : α → Lower β}
    (second : ∀ a, outcome = .ok a → Gathers allowed (next a) later) :
    Gathers allowed (Lower.check outcome >>= next) later := Ensures.check_next second

theorem ite {condition : Prop} [Decidable condition] {other : Lower α}
    (yes : condition → Gathers allowed step known) (no : ¬condition → Gathers allowed other known) :
    Gathers allowed (if condition then step else other) known :=
  Ensures.ite yes no

theorem mapM {f : α → Lower β} {found : α → β → LowerState → Prop} (list : List α)
    (each : ∀ a ∈ list, Gathers allowed (f a) (found a)) :
    Gathers allowed (list.mapM f) fun bs s => List.Forall₂ (fun a b => found a b s) list bs := by
  refine (Ensures.mapM list each).mono fun bs L e gathered => ?_
  induction gathered with
  | nil => exact ⟨.empty, .nil⟩
  | cons head _ ih => exact ⟨head.1.silent_append (ih fun a member => each a (by simp [member])).1,
      .cons head.2 (ih fun a member => each a (by simp [member])).2⟩

theorem forM {f : α → Lower Unit} (list : List α) (each : ∀ a ∈ list, Gathers allowed (f a) fun _ _ => True) :
    Gathers allowed (list.forM f) fun _ _ => True := by
  induction list with
  | nil => exact pure fun _ => trivial
  | cons a as ih =>
    refine (each a (by simp)).bind fun _ => ?_
    exact (ih fun a' member => each a' (by simp [member])).mono fun _ _ _ _ => trivial

end Gathers

/-- The description stays true when silent steps come before or after. -/
class Absorbs {β : Type} (allowed : outParam (Key → Prop))
    (described : β → Ledger → Effect → Prop) : Prop where
  before : ∀ b L e e', Silent allowed e' → described b L e → described b L (e' ++ e)
  after : ∀ b L e e', Silent allowed e' → described b L e → described b L (e ++ e')

instance Absorbs.implied {assumed : β → Ledger → Prop} {described : β → Ledger → Effect → Prop}
    [Absorbs allowed described] : Absorbs allowed fun b L e => assumed b L → described b L e where
  before b L e e' silent held given := Absorbs.before b L e e' silent (held given)
  after b L e e' silent held given := Absorbs.after b L e e' silent (held given)

instance {fact : β → Ledger → Prop} {described : β → Ledger → Effect → Prop}
    [Absorbs allowed described] : Absorbs allowed fun b L e => fact b L ∧ described b L e where
  before b L e e' silent held := ⟨held.1, Absorbs.before b L e e' silent held.2⟩
  after b L e e' silent held := ⟨held.1, Absorbs.after b L e e' silent held.2⟩

instance {γ : Type} {described : γ → β → Ledger → Effect → Prop}
    [∀ c, Absorbs allowed (described c)] : Absorbs allowed fun b L e => ∃ c, described c b L e where
  before b L e e' silent held := held.imp fun _ found => Absorbs.before b L e e' silent found
  after b L e e' silent held := held.imp fun _ found => Absorbs.after b L e e' silent found

instance {γ : Type} {described : γ → β → Ledger → Effect → Prop}
    [∀ c, Absorbs allowed (described c)] : Absorbs allowed fun b L e => ∀ c, described c b L e where
  before b L e e' silent held c := Absorbs.before b L e e' silent (held c)
  after b L e e' silent held c := Absorbs.after b L e e' silent (held c)

/-- Two parts one after the other. -/
def Sequence (first second : Effect → Prop) (e : Effect) : Prop :=
  ∃ earlier later, e = earlier ++ later ∧ first earlier ∧ second later

instance Absorbs.sequence {first second : β → Ledger → Effect → Prop} [Absorbs allowed first] [Absorbs allowed second] :
    Absorbs allowed fun b L e => Sequence (first b L) (second b L) e where
  before b L e e' silent := by
    rintro ⟨earlier, later, rfl, one, two⟩
    exact ⟨e' ++ earlier, later, (Effect.append_assoc _ _ _).symm, Absorbs.before b L _ _ silent one, two⟩
  after b L e e' silent := by
    rintro ⟨earlier, later, rfl, one, two⟩
    exact ⟨earlier, later ++ e', Effect.append_assoc _ _ _, one, Absorbs.after b L _ _ silent two⟩

namespace Ensures

variable {α β : Type} {allowed : Key → Prop} {step : Lower α} {known : α → LowerState → Prop}
  {next : α → Lower β} {described : β → Ledger → Effect → Prop}

theorem after [Absorbs allowed described] (first : Gathers allowed step known)
    (second : ∀ a, Ensures (next a) fun b L e => known a L.state → described b L e) :
    Ensures (step >>= next) described := by
  refine Ensures.bind first fun a => (second a).mono ?_
  intro b L e implied e' ⟨silent, held⟩
  exact Absorbs.before b L e e' silent (implied held)

/-- As `after`, where the second step is described only for results that the first one can have. -/
theorem after_fact [Absorbs allowed described] (fact : α → Prop) (first : Gathers allowed step known)
    (sure : ∀ a s, known a s → fact a)
    (second : ∀ a, fact a → Ensures (next a) fun b L e => known a L.state → described b L e) :
    Ensures (step >>= next) described := by
  refine Ensures.bind_fact first (fun a L _ held => sure a L.state held.2) fun a holds => (second a holds).mono ?_
  intro b L e implied e' ⟨silent, held⟩
  exact Absorbs.before b L e e' silent (implied held)

/-- The first step takes an id for no key. -/
theorem taking {next : Word → Lower β} {rest : Word → β → Ledger → Effect → Prop}
    (second : ∀ id, Ensures (next id) fun b L e => id ∈ L.loose → rest id b L e)
    (implied : ∀ id b L e, id ∈ L.loose → rest id b L e →
      described b L ({ taken := [(none, id)] } ++ e)) : Ensures (fresh >>= next) described := by
  refine ensures_fresh.bind fun id => (second id).mono ?_
  rintro b L e held e' ⟨rfl, loose⟩
  exact implied id b L e loose (held loose)

theorem followed {last : Lower Unit} {earlier : Unit → Ledger → Effect → Prop} {step : Lower Unit}
    [Absorbs allowed earlier] (first : Ensures step earlier)
    (second : Gathers allowed last fun _ _ => True) :
    Ensures (step >>= fun _ => last) earlier := by
  refine first.bind fun _ => Ensures.mono second fun _ L e ⟨silent, _⟩ e' held => ?_
  exact Absorbs.after _ L e' e silent held

end Ensures
end Shader.Lower
