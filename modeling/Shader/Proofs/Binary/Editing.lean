import Mathlib.Data.Option.Basic
import Mathlib.Logic.Function.Basic
import Shader.Proofs.Binary.Framing
import Shader.Proofs.Lowering.Ensures

/-!
A module can be read back from its binary.

A module is made by edits, which come in any order: to its sections, and to functions of which several may be
in the making at once. What the binary has to hold is said of the edits alone: `entries` lists what was asked
for, section by section, and looks at no state. `Desk.Records` is what an edit preserves: every section holds
what the edits so far asked for, in their order.
-/
namespace Shader.Binary

open List Instruction FunctionCode Option

variable {listed : List Instruction} {code : FunctionCode} {assembly : Assembly} {draft : Nat}
variable {declared : Instruction} {operands : List Operand}

/-- What is asked for when an instruction is added. -/
structure Entry where
  op : Opcode
  operands : List Operand
  deriving DecidableEq

namespace Entry

/-- The instruction that was asked for. -/
def Made (entry : Entry) (inst : Instruction) : Prop := make entry.op entry.operands = .ok inst

/-- What a reader of the binary has to find. -/
def frame (entry : Entry) : Frame := ⟨entry.op.code, wordsOf entry.operands⟩

variable {asked : List Entry} {listed : List Instruction}

theorem map_frame (made : Forall₂ Made asked listed) : asked.map frame = listed.map Instruction.frame := by
  induction made with
  | nil => rfl
  | cons first _ ih => rw [map_cons, map_cons, ih, (Instruction.frame_of_make first).1, frame]

theorem short (made : Forall₂ Made asked listed) : ∀ inst ∈ listed, inst.wordCount ≤ maxWords := by
  induction made with
  | nil => simp
  | cons first _ ih => exact forall_mem_cons.mpr ⟨(frame_of_make first).2, ih⟩

end Entry

/-- An edit of a module or of a function in the making, which is known by a number. -/
inductive Edit where
  | takeId
  | require (capability : Capability)
  | requireExtension (name : String)
  | push (part : Assembly.Section) (entry : Entry)
  | memoryModel (entry : Entry)
  | start (draft : Nat) (declaration : Entry) (label : Word) (params : List Entry)
  | append (draft : Nat) (entry : Entry)
  | addLocal (draft : Nat) (operands : List Operand)
  | finish (draft : Nat)
  deriving DecidableEq

/-- A module and the functions in the making. -/
structure Desk where
  assembly : Assembly := .empty
  drafts : Nat → Option FunctionCode := fun _ => none

/-- Put a function in the making in the place of another one. -/
def Desk.put (desk : Desk) (draft : Nat) (code : FunctionCode) : Desk :=
  { desk with drafts := Function.update desk.drafts draft (some code) }

/-- Make an edit, unless it is refused. A function that was finished belongs to the module and is no longer in
the making. -/
def Edit.apply (desk : Desk) : Edit → Option Desk
  | .takeId => desk.assembly.takeId?.map fun (_, assembly) => { desk with assembly }
  | .require capability => some { desk with assembly := desk.assembly.pushCapability capability }
  | .requireExtension name => some { desk with assembly := desk.assembly.pushExtension name }
  | .push part entry => do
    let assembly ← (desk.assembly.push part entry.op entry.operands).toOption
    return { desk with assembly }
  | .memoryModel entry => do
    let assembly ← (desk.assembly.setMemoryModel entry.op entry.operands).toOption
    return { desk with assembly }
  | .start draft declaration label params => do
    let declaration ← (make declaration.op declaration.operands).toOption
    let params ← (params.mapM fun param => make param.op param.operands).toOption
    let code ← (FunctionCode.start declaration label params).toOption
    return desk.put draft code
  | .append draft entry => do
    let code ← (← desk.drafts draft).push entry.op entry.operands |>.toOption
    return desk.put draft code
  | .addLocal draft operands => do
    let code ← (← desk.drafts draft).pushLocal operands |>.toOption
    return desk.put draft code
  | .finish draft => do
    let code ← desk.drafts draft
    return ⟨desk.assembly.pushFunction code, Function.update desk.drafts draft none⟩

/-- The desk after some edits, if none of them is refused. -/
def Desk.after (edits : List Edit) : Option Desk := edits.foldlM Edit.apply {}

namespace Edit

def capability? : Edit → Option Capability
  | .require capability => some capability
  | _ => none

def extension? : Edit → Option String
  | .requireExtension name => some name
  | _ => none

/-- What an edit adds to a section. -/
def pushed? (part : Assembly.Section) : Edit → Option Entry
  | .push other entry => if other = part then some entry else none
  | _ => none

def memoryModel? : Edit → Option Entry
  | .memoryModel entry => some entry
  | _ => none

end Edit

/-- What was asked for of a function. -/
structure Draft where
  declaration : Entry
  label : Word
  params : List Entry
  locals : List (List Operand) := []
  body : List Entry := []

/-- What has been asked for of a function in the making, by edits of which the latest is listed first. -/
def drafted (draft : Nat) : List Edit → Option Draft
  | [] => none
  | edit :: past =>
    match edit with
    | .start other declaration label params =>
      if other = draft then some { declaration, label, params } else drafted draft past
    | .append other entry =>
      if other = draft then (drafted draft past).map fun d => { d with body := d.body ++ [entry] }
      else drafted draft past
    | .addLocal other operands =>
      if other = draft then (drafted draft past).map fun d => { d with locals := d.locals ++ [operands] }
      else drafted draft past
    | .finish other => if other = draft then none else drafted draft past
    | _ => drafted draft past

/-- What was asked for of the finished functions, by edits of which the latest is listed first. -/
def finished : List Edit → List Draft
  | [] => []
  | .finish draft :: past => finished past ++ (drafted draft past).toList
  | _ :: past => finished past

/-- The instructions of a function in the order of the binary: the variables follow the first label, wherever
they were asked for, and everything else is in the order it was asked for. -/
def Draft.entries (d : Draft) : List Entry :=
  d.declaration :: d.params ++ ⟨.label, [.literal d.label]⟩ :: d.locals.map (⟨.variableDecl, ·⟩) ++ d.body ++
    [⟨.functionEnd, []⟩]

/-- What edits asked for, in the order of the binary. -/
def entries (edits : List Edit) : List Entry :=
  (edits.filterMap Edit.capability?).eraseDups.map (⟨.capability, [.literal ·.code]⟩) ++
    (edits.filterMap Edit.extension?).eraseDups.map (⟨.extension, [.text ·]⟩) ++
    edits.filterMap (Edit.pushed? .imports) ++ edits.filterMap Edit.memoryModel? ++
    edits.filterMap (Edit.pushed? .entryPoints) ++ edits.filterMap (Edit.pushed? .executionModes) ++
    edits.filterMap (Edit.pushed? .names) ++ edits.filterMap (Edit.pushed? .annotations) ++
    edits.filterMap (Edit.pushed? .globals) ++ (finished edits.reverse).flatMap Draft.entries

/-- The instructions of a section. -/
def Assembly.held (asm : Assembly) : Assembly.Section → List Instruction
  | .imports => asm.imports.toList
  | .entryPoints => asm.entryPoints.toList
  | .executionModes => asm.executionModes.toList
  | .names => asm.names.toList
  | .annotations => asm.annotations.toList
  | .globals => asm.globals.toList

theorem Assembly.held_append (asm : Assembly) (part other : Assembly.Section) (inst : Instruction) :
    (asm.append part inst).held other = asm.held other ++ if part = other then [inst] else [] := by
  cases part <;> cases other <;> simp [append, held]

/-- The function holds what was asked for of it. -/
structure Draft.Kept (d : Draft) (code : FunctionCode) : Prop where
  declaration : d.declaration.Made code.declaration
  params : Forall₂ Entry.Made d.params code.params
  locals : Forall₂ Entry.Made (d.locals.map (⟨.variableDecl, ·⟩)) code.locals.toList
  body : Forall₂ Entry.Made (⟨.label, [.literal d.label]⟩ :: d.body) (code.blocks.flatMap BasicBlock.instructions)

/-- The desk holds what was asked for by edits of which the latest is listed first. -/
structure Desk.Records (desk : Desk) (past : List Edit) : Prop where
  ids : desk.assembly.idBound.toNat = 1 + past.count .takeId
  capabilities : desk.assembly.capabilities.toList = (past.filterMap Edit.capability?).reverse.eraseDups
  extensions : desk.assembly.extensions.toList = (past.filterMap Edit.extension?).reverse.eraseDups
  sections : ∀ part, Forall₂ Entry.Made (past.filterMap (Edit.pushed? part)).reverse (desk.assembly.held part)
  memoryModel : Forall₂ Entry.Made (past.filterMap Edit.memoryModel?).reverse desk.assembly.memoryModel.toList
  drafts : ∀ draft, Rel Draft.Kept (drafted draft past) (desk.drafts draft)
  functions : Forall₂ Draft.Kept (finished past) desk.assembly.functions.toList

theorem Draft.Kept.start {declaration : Entry} {label : Word} {params : List Entry}
    (made : declaration.Made declared) (parameters : Forall₂ Entry.Made params listed)
    (starts : start declared label listed = .ok code) : Kept { declaration, label, params } code := by
  cases labelled : make .label [.literal label] with
  | error fault => simp [FunctionCode.start, labelled, bind, Except.bind] at starts
  | ok inst =>
    simp only [FunctionCode.start, labelled, bind, Except.bind, pure, Except.pure, Except.ok.injEq] at starts
    subst starts
    refine ⟨made, parameters, .nil, ?_⟩
    simpa [FunctionCode.blocks, BasicBlock.instructions, Entry.Made] using labelled

variable {entry : Entry}

theorem Draft.Kept.append {d : Draft} {after : FunctionCode} (kept : d.Kept code)
    (pushed : code.push entry.op entry.operands = .ok after) : Kept { d with body := d.body ++ [entry] } after := by
  obtain ⟨inst, made, rfl⟩ := push_eq pushed
  obtain ⟨declaration, params, locals⟩ := code.append_others inst
  refine ⟨declaration ▸ kept.declaration, params ▸ kept.params, locals ▸ kept.locals, ?_⟩
  rw [← stream, stream_append]
  exact rel_append kept.body (.cons made .nil)

theorem Draft.Kept.addLocal {d : Draft} {after : FunctionCode} (kept : d.Kept code)
    (pushed : code.pushLocal operands = .ok after) : Kept { d with locals := d.locals ++ [operands] } after := by
  obtain ⟨inst, made, rfl⟩ := pushLocal_eq pushed
  refine ⟨kept.declaration, kept.params, ?_, kept.body⟩
  have added : Forall₂ Entry.Made [⟨.variableDecl, operands⟩] [inst] := .cons made .nil
  simpa [addLocals] using rel_append kept.locals added

/-- The words of a function are those that were asked for. -/
theorem Draft.Kept.entries {d : Draft} (kept : d.Kept code) : Forall₂ Entry.Made d.entries code.instructions := by
  obtain ⟨declaration, params, locals, body⟩ := kept
  obtain ⟨first, rest, blocks⟩ : ∃ first rest, code.blocks = first :: rest :=
    exists_cons_of_ne_nil (by simp [blocks])
  rw [blocks, flatMap_cons, BasicBlock.instructions, cons_append] at body
  obtain ⟨label, later⟩ := forall₂_cons.mp body
  have ending : Entry.Made ⟨.functionEnd, []⟩ ending := rfl
  have whole := Forall₂.cons declaration
    (rel_append params (.cons label (rel_append (rel_append locals later) (.cons ending .nil))))
  simpa [Draft.entries, instructions, blocks, withLocals, BasicBlock.instructions] using whole

/-- What is already in an array of first mentions is not added to it. -/
theorem toList_mention {α : Type} [DecidableEq α] {held : Array α} {past : List α}
    (listed : held.toList = past.reverse.eraseDups) (a : α) :
    (if held.contains a then held else held.push a).toList = (a :: past).reverse.eraseDups := by
  have known : held.contains a = decide (a ∈ past.reverse) := by
    rw [← Array.contains_toList, listed, contains_eq_mem]
    simp
  rw [reverse_cons, eraseDups_append, ← listed, known]
  by_cases before : a ∈ past <;> simp [before, removeAll, eraseDups_cons]

namespace Desk.Records

variable {desk : Desk} {past : List Edit}
variable {after : FunctionCode} {edits : List Edit}

theorem empty : Desk.Records {} [] where
  ids := rfl
  capabilities := rfl
  extensions := rfl
  sections part := by cases part <;> exact .nil
  memoryModel := .nil
  drafts _ := .none
  functions := .nil

section
variable (records : desk.Records past)
include records

theorem takeId {id : Word} (took : desk.assembly.takeId? = some (id, assembly)) :
    Desk.Records { desk with assembly } (.takeId :: past) := by
  obtain ⟨⟨taken, ids⟩, room, same⟩ := map_eq_some_iff.mp took
  cases same
  unfold IdSource.take? at room
  split at room
  · cases room
  · rename_i available
    cases room
    refine { records with ids := ?_ }
    have before := records.ids
    have below : desk.assembly.ids.next.toNat ≠ 4294967295 := fun full => available (UInt32.toNat_inj.mp full)
    have bound := desk.assembly.ids.next.toNat_lt
    have one : UInt32.toNat 1 = 1 := rfl
    simp only [Assembly.idBound, IdSource.bound] at before ⊢
    rw [count_cons_self, UInt32.toNat_add, one]
    omega

theorem require (capability : Capability) :
    Desk.Records { desk with assembly := desk.assembly.pushCapability capability } (.require capability :: past) := by
  have listed := toList_mention records.capabilities capability
  unfold Assembly.pushCapability
  split <;> rename_i before
  · rw [if_pos before] at listed
    exact { records with capabilities := listed }
  · rw [if_neg before] at listed
    exact { records with capabilities := listed }

theorem requireExtension (name : String) :
    Desk.Records { desk with assembly := desk.assembly.pushExtension name } (.requireExtension name :: past) := by
  have listed := toList_mention records.extensions name
  unfold Assembly.pushExtension
  split <;> rename_i before
  · rw [if_pos before] at listed
    exact { records with extensions := listed }
  · rw [if_neg before] at listed
    exact { records with extensions := listed }

theorem push {part : Assembly.Section} (pushed : desk.assembly.push part entry.op entry.operands = .ok assembly) :
    Desk.Records { desk with assembly } (.push part entry :: past) := by
  obtain ⟨inst, made, rfl⟩ := Assembly.push_eq pushed
  have sections (other : Assembly.Section) :
      Forall₂ Entry.Made ((Edit.push part entry :: past).filterMap (Edit.pushed? other)).reverse
        ((desk.assembly.append part inst).held other) := by
    rw [Assembly.held_append, filterMap_cons, Edit.pushed?]
    by_cases here : part = other
    · simpa [here] using rel_append (records.sections other) (.cons made .nil)
    · simpa [here] using records.sections other
  cases part <;> exact { records with sections }

theorem setMemoryModel (set : desk.assembly.setMemoryModel entry.op entry.operands = .ok assembly) :
    Desk.Records { desk with assembly } (.memoryModel entry :: past) := by
  unfold Assembly.setMemoryModel at set
  split at set
  · cases set
  · rename_i missing
    obtain ⟨inst, made, same⟩ := bind_eq_ok.mp set
    cases same
    have none : desk.assembly.memoryModel = none := by simpa using missing
    have before := records.memoryModel
    rw [none] at before
    refine { records with memoryModel := ?_ }
    simpa [Edit.memoryModel?] using rel_append before (.cons made .nil)

theorem start {declaration : Entry} {label : Word} {params : List Entry}
    (made : declaration.Made declared) (parameters : Forall₂ Entry.Made params listed)
    (starts : start declared label listed = .ok code) :
    Desk.Records (desk.put draft code) (.start draft declaration label params :: past) := by
  refine { records with drafts := fun other => ?_ }
  simp only [Desk.put, drafted, Function.update_apply, eq_comm (a := other)]
  split
  · exact .some (.start made parameters starts)
  · exact records.drafts other

section
variable (found : desk.drafts draft = some code)
include found

/-- What was asked for of a function that is in the making. -/
theorem kept : ∃ d, drafted draft past = some d ∧ d.Kept code := by
  have related := records.drafts draft
  rw [found] at related
  cases asked : drafted draft past with
  | none =>
    rw [asked] at related
    cases related
  | some d =>
    rw [asked] at related
    cases related with
    | some kept => exact ⟨d, rfl, kept⟩

theorem append (pushed : code.push entry.op entry.operands = .ok after) :
    Desk.Records (desk.put draft after) (.append draft entry :: past) := by
  obtain ⟨d, asked, kept⟩ := records.kept found
  refine { records with drafts := fun other => ?_ }
  simp only [Desk.put, drafted, Function.update_apply, eq_comm (a := other)]
  split
  · rename_i same
    rw [← same, asked]
    exact .some (kept.append pushed)
  · exact records.drafts other

theorem addLocal (pushed : code.pushLocal operands = .ok after) :
    Desk.Records (desk.put draft after) (.addLocal draft operands :: past) := by
  obtain ⟨d, asked, kept⟩ := records.kept found
  refine { records with drafts := fun other => ?_ }
  simp only [Desk.put, drafted, Function.update_apply, eq_comm (a := other)]
  split
  · rename_i same
    rw [← same, asked]
    exact .some (kept.addLocal pushed)
  · exact records.drafts other

theorem finish : Desk.Records ⟨desk.assembly.pushFunction code, Function.update desk.drafts draft none⟩
      (.finish draft :: past) := by
  obtain ⟨d, asked, kept⟩ := records.kept found
  refine { records with drafts := fun other => ?_, functions := ?_ }
  · simp only [drafted, Function.update_apply, eq_comm (a := other)]
    split
    · exact .none
    · exact records.drafts other
  · simpa [finished, asked, Assembly.pushFunction] using rel_append records.functions (.cons kept .nil)

end

/-- Every edit that is not refused is recorded. -/
theorem apply {edit : Edit} {after : Desk} (applied : edit.apply desk = some after) : after.Records (edit :: past) := by
  cases edit with
  | takeId =>
    obtain ⟨⟨id, assembly⟩, took, rfl⟩ := map_eq_some_iff.mp applied
    exact records.takeId took
  | require capability =>
    cases applied
    exact records.require capability
  | requireExtension name =>
    cases applied
    exact records.requireExtension name
  | push part entry =>
    obtain ⟨assembly, pushed, same⟩ := bind_eq_some_iff.mp applied
    cases same
    exact records.push (Module.ok_of_mem_toOption pushed)
  | memoryModel entry =>
    obtain ⟨assembly, set, same⟩ := bind_eq_some_iff.mp applied
    cases same
    exact records.setMemoryModel (Module.ok_of_mem_toOption set)
  | start draft declaration label params =>
    obtain ⟨declared, made, rest⟩ := bind_eq_some_iff.mp applied
    obtain ⟨listed, parameters, rest⟩ := bind_eq_some_iff.mp rest
    obtain ⟨code, starts, same⟩ := bind_eq_some_iff.mp rest
    cases same
    exact records.start (Module.ok_of_mem_toOption made) (mapM_eq_ok.mp (Module.ok_of_mem_toOption parameters))
      (Module.ok_of_mem_toOption starts)
  | append draft entry =>
    obtain ⟨code, found, rest⟩ := bind_eq_some_iff.mp applied
    obtain ⟨after, pushed, same⟩ := bind_eq_some_iff.mp rest
    cases same
    exact records.append found (Module.ok_of_mem_toOption pushed)
  | addLocal draft operands =>
    obtain ⟨code, found, rest⟩ := bind_eq_some_iff.mp applied
    obtain ⟨after, pushed, same⟩ := bind_eq_some_iff.mp rest
    cases same
    exact records.addLocal found (Module.ok_of_mem_toOption pushed)
  | finish draft =>
    obtain ⟨code, found, same⟩ := bind_eq_some_iff.mp applied
    cases same
    exact records.finish found

/-- A run of edits is recorded, the latest of them first. -/
theorem foldlM {after : Desk} (applied : edits.foldlM Edit.apply desk = some after) :
    after.Records (edits.reverse ++ past) := by
  induction edits generalizing desk past with
  | nil =>
    cases applied
    exact records
  | cons edit rest ih =>
    rw [foldlM_cons] at applied
    obtain ⟨next, first, later⟩ := bind_eq_some_iff.mp applied
    simpa using ih (records.apply first) later

end

/-- The instructions of the assembled module are those that were asked for, in the order of the binary. -/
theorem instructions (records : desk.Records edits.reverse)
    (lists : desk.assembly.instructions = .ok listed) : Forall₂ Entry.Made (entries edits) listed := by
  obtain ⟨capabilities, madeCapabilities, rest⟩ := bind_eq_ok.mp lists
  obtain ⟨extensions, madeExtensions, same⟩ := bind_eq_ok.mp rest
  cases same
  rw [records.capabilities] at madeCapabilities
  rw [records.extensions] at madeExtensions
  have features := rel_append
    (forall₂_map_left_iff.mpr (mapM_eq_ok.mp madeCapabilities) : Forall₂ Entry.Made (map
      (fun capability : Capability => ⟨.capability, [.literal capability.code]⟩) _) _)
    (forall₂_map_left_iff.mpr (mapM_eq_ok.mp madeExtensions) : Forall₂ Entry.Made (map
      (fun name => ⟨.extension, [.text name]⟩) _) _)
  have functions := rel_flatMap records.functions fun _ _ kept => kept.entries
  have whole := rel_append (rel_append (rel_append (rel_append (rel_append (rel_append
    (rel_append (rel_append features (records.sections .imports)) records.memoryModel)
    (records.sections .entryPoints)) (records.sections .executionModes)) (records.sections .names))
    (records.sections .annotations)) (records.sections .globals)) functions
  simp only [filterMap_reverse, reverse_reverse] at whole
  exact whole

end Desk.Records

/-- The name of an extension has to fit into one instruction. -/
theorem make_extension_ok {name : String} :
    (∃ inst, make .extension [.text name] = .ok inst) ↔ name.utf8ByteSize / 4 + 2 ≤ maxWords := by
  have count : wordCount ⟨.extension, none, none, [.text name]⟩ = name.utf8ByteSize / 4 + 2 := by
    simp only [wordCount, Operand.wordCount, toList_none, length_nil, foldl_cons,
      foldl_nil]
    omega
  have made : make .extension [.text name] =
      if name.utf8ByteSize / 4 + 2 > maxWords then .error (.tooLong .extension (name.utf8ByteSize / 4 + 2))
      else .ok ⟨.extension, none, none, [.text name]⟩ := by
    rw [← count]
    rfl
  rw [made]
  split <;> simp <;> omega

theorem make_capability_ok (capability : Capability) :
    ∃ inst, make .capability [.literal capability.code] = .ok inst := ⟨_, rfl⟩

theorem exists_mapM_eq_ok {ε α β : Type} {f : α → Except ε β} {as : List α} :
    (∃ bs, as.mapM f = .ok bs) ↔ ∀ a ∈ as, ∃ b, f a = .ok b := by
  simp only [mapM_eq_ok]
  induction as with
  | nil => simp
  | cons a rest ih =>
    rw [forall_mem_cons, ← ih]
    constructor
    · rintro ⟨bs, related⟩
      obtain ⟨b, bs, first, later, rfl⟩ := forall₂_cons_left_iff.mp related
      exact ⟨⟨b, first⟩, bs, later⟩
    · rintro ⟨⟨b, first⟩, bs, later⟩
      exact ⟨b :: bs, .cons first later⟩

/-- Everything can be assembled but the name of an extension that is too long. -/
theorem Assembly.exists_assemble_eq_ok {asm : Assembly} :
    (∃ words, asm.assemble = .ok words) ↔ ∀ name ∈ asm.extensions, name.utf8ByteSize / 4 + 2 ≤ maxWords := by
  obtain ⟨capabilities, madeCapabilities⟩ :=
    exists_mapM_eq_ok.mpr fun capability (_ : capability ∈ asm.capabilities.toList) => make_capability_ok capability
  have extensions : (∃ named, asm.extensions.toList.mapM (fun name => make .extension [.text name]) =
      .ok named) ↔ ∀ name ∈ asm.extensions, name.utf8ByteSize / 4 + 2 ≤ maxWords := by
    simp only [exists_mapM_eq_ok, make_extension_ok, Array.mem_toList_iff]
  rw [← extensions]
  constructor
  · rintro ⟨words, assembled⟩
    obtain ⟨listed, lists, -⟩ := bind_eq_ok.mp assembled
    obtain ⟨_, -, rest⟩ := bind_eq_ok.mp lists
    obtain ⟨named, made, -⟩ := bind_eq_ok.mp rest
    exact ⟨named, made⟩
  · rintro ⟨named, made⟩
    have lists : ∃ listed, asm.instructions = .ok listed :=
      ⟨_, bind_eq_ok.mpr ⟨capabilities, madeCapabilities, bind_eq_ok.mpr ⟨named, made, rfl⟩⟩⟩
    obtain ⟨listed, lists⟩ := lists
    exact ⟨_, bind_eq_ok.mpr ⟨listed, lists, rfl⟩⟩

/-- A module that was made by edits can be read back from its words, which are refused only for the name of an
extension that is too long. They start with the magic number, the version, the generator and a bound, which is one
more than the number of ids that were taken. The rest is, cut where each instruction says that it ends, what the
edits asked for. -/
theorem assembled_reads_back {edits : List Edit} {desk : Desk} (made : Desk.after edits = some desk) :
    ((∃ words, desk.assembly.assemble = .ok words) ↔
        ∀ name, .requireExtension name ∈ edits → name.utf8ByteSize / 4 + 2 ≤ maxWords) ∧
      ∀ words, desk.assembly.assemble = .ok words →
        words.take 5 = [0x07230203, 0x00010300, 1, desk.assembly.idBound, 0] ∧
        desk.assembly.idBound.toNat = 1 + edits.count .takeId ∧
        frames (words.drop 5) = some ((entries edits).map Entry.frame) := by
  have records : desk.Records edits.reverse := by simpa using Desk.Records.empty.foldlM made
  refine ⟨?_, fun words assembled => ?_⟩
  · rw [Assembly.exists_assemble_eq_ok]
    have mentions (name : String) : name ∈ desk.assembly.extensions ↔ .requireExtension name ∈ edits := by
      rw [← Array.mem_toList_iff, records.extensions, mem_eraseDups]
      simp only [mem_reverse, mem_filterMap]
      constructor
      · rintro ⟨edit, member, found⟩
        cases edit <;> cases found
        exact member
      · exact fun member => ⟨_, member, rfl⟩
    simp only [mentions]
  · obtain ⟨listed, lists, same⟩ := bind_eq_ok.mp assembled
    cases same
    have asked := records.instructions lists
    refine ⟨rfl, by simpa using records.ids, ?_⟩
    rw [Entry.map_frame asked]
    exact frames_flatMap_words (Entry.short asked)

/-- Two functions that are made at the same time. The first one to be finished was started last and has a variable
that was asked for after its first block; capabilities are asked for twice. -/
def interleaved : List Edit :=
  [.takeId, .push .globals ⟨.typeVoid, [.id 1]⟩, .require .shader,
    .start 0 ⟨.function, [.id 1, .id 2, .literal 0, .id 3]⟩ 4 [],
    .append 0 ⟨.branch, [.id 5]⟩,
    .start 1 ⟨.function, [.id 1, .id 6, .literal 0, .id 3]⟩ 7 [⟨.functionParameter, [.id 1, .id 8]⟩],
    .push .names ⟨.name, [.id 2, .text "main"]⟩, .require .float16, .require .shader,
    .append 1 ⟨.returnVoid, []⟩, .append 0 ⟨.label, [.id 5]⟩, .finish 1, .requireExtension "SPV",
    .addLocal 0 [.id 9, .id 10, .literal 7], .append 0 ⟨.returnVoid, []⟩, .takeId, .finish 0,
    .memoryModel ⟨.memoryModel, [.literal 0, .literal 1]⟩]

theorem interleaved_reads_back : ∃ desk words, Desk.after interleaved = some desk ∧
    desk.assembly.assemble = .ok words ∧ words.take 5 = [0x07230203, 0x00010300, 1, 3, 0] ∧
    frames (words.drop 5) = some (map (fun frame : Opcode × List Word => ⟨frame.1.code, frame.2⟩)
      [(.capability, [1]), (.capability, [9]), (.extension, [0x00565053]), (.memoryModel, [0, 1]),
        (.name, [2, 0x6E69616D, 0]), (.typeVoid, [1]),
        (.function, [1, 6, 0, 3]), (.functionParameter, [1, 8]), (.label, [7]), (.returnVoid, []), (.functionEnd, []),
        (.function, [1, 2, 0, 3]), (.label, [4]), (.variableDecl, [9, 10, 7]), (.branch, [5]), (.label, [5]),
        (.returnVoid, []), (.functionEnd, [])]) := by
  obtain ⟨desk, made⟩ := isSome_iff_exists.mp (show (Desk.after interleaved).isSome = true by decide +kernel)
  obtain ⟨succeeds, reads⟩ := assembled_reads_back made
  obtain ⟨words, assembled⟩ := succeeds.mpr fun name member => by
    simp only [interleaved, mem_cons, reduceCtorEq, Edit.requireExtension.injEq, not_mem_nil, false_or,
      or_false] at member
    subst member
    decide +kernel
  obtain ⟨first, bound, read⟩ := reads words assembled
  refine ⟨desk, words, made, assembled, ?_, ?_⟩
  · have three : desk.assembly.idBound = 3 := UInt32.toNat_inj.mp (bound.trans (by decide))
    rw [first, three]
  · rw [read]
    decide +kernel

end Shader.Binary
