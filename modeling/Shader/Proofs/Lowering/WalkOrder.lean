import Mathlib.Data.List.Flatten
import Shader.Proofs.Lowering.BlockForm
import Shader.Proofs.Lowering.Ids

/-!
The blocks of a function are laid out in the order of the walk.

A block is left out only if it is a branch of a conditional without results and does nothing. Every other
block that the walk meets has one label, each of its constructs has one label after it, each of its loops
has one label for its header, and its instructions are spread over basic blocks in order. All of this can
be read off the plan of the function.
-/
namespace Shader

open List Lower

variable {id : InstId} {inst : Inst} {blocks walked : List BlockId} {block inner : BlockId} {within : Enclosing}

/-- The block that starts at a place. -/
def Place.block? : Place → Option BlockId
  | .block id => some id
  | _ => none

/-- The construct whose header or end a place is. -/
def Place.construct? : Place → Option InstId
  | .block _ => none
  | .header id | .merge id => some id

@[simp] theorem Place.block?_block (id : BlockId) : (Place.block id).block? = some id := rfl

@[simp] theorem Place.block?_header (loop : InstId) : (Place.header loop).block? = none := rfl

@[simp] theorem Place.block?_merge (construct : InstId) : (Place.merge construct).block? = none := rfl

/-- The instruction that a basic block ends with. -/
def Jump.inst? : Jump → Option InstId
  | .terminator id _ | .conditional id _ _ | .switch id _ | .enter id _ => some id
  | .head .. | .again _ | .onward _ | .stuck => none

/-- The instructions that a basic block carries out. -/
def Segment.lowered (segment : Segment) : List InstId := segment.insts ++ segment.jump.inst?.toList

/-- The instructions of a block that some basic blocks carry out. -/
def loweredIn (segments : List Segment) (block : BlockId) : List InstId :=
  (segments.filter fun segment => segment.home = block).flatMap Segment.lowered

theorem loweredIn_append (first second : List Segment) (block : BlockId) :
    loweredIn (first ++ second) block = loweredIn first block ++ loweredIn second block := by
  simp [loweredIn]

theorem loweredIn_cons (segment : Segment) (rest : List Segment) (block : BlockId) : loweredIn (segment :: rest) block =
      (if segment.home = block then segment.lowered else []) ++ loweredIn rest block := by
  by_cases same : segment.home = block <;> simp [loweredIn, same]

/-- The places of a construct besides its blocks. -/
def Kind.joinPlaces (id : InstId) : Kind → List Place
  | .conditional _ | .switch _ => [.merge id]
  | .loop _ => [.merge id, .header id]
  | _ => []

namespace Module

/-- The places of an instruction besides the blocks it owns. -/
def joinPlaces (m : Module) (id : InstId) : List Place :=
  match m.inst id with
  | .ok inst => inst.kind.joinPlaces id
  | .error _ => []

/-- The places of a block: its start, the places after its constructs, and the headers of its loops. -/
def placesOf (m : Module) (block : BlockId) : List Place :=
  .block block :: (m.instsOf block).flatMap m.joinPlaces

/-- Whether a block of a construct has a label. -/
def keeps (m : Module) (inst : Inst) (block : BlockId) : Bool :=
  match inst.kind with
  | .conditional _ =>
    match needsBlock m (!inst.results.isEmpty) block with
    | .ok needs => needs
    | .error _ => false
  | _ => true

/-- The blocks of an instruction that have a label, each with those under it. -/
def keptUnder (m : Module) (emitted : BlockId → List BlockId) (id : InstId) : List BlockId :=
  match m.inst id with
  | .ok inst => (inst.kind.children.filter (m.keeps inst)).flatMap emitted
  | .error _ => []

/-- The block and the blocks under it that have a label, down to `depth` levels. -/
def emitted (m : Module) : (depth : Nat) → BlockId → List BlockId
  | 0, _ => []
  | depth + 1, block => block :: (m.instsOf block).flatMap (m.keptUnder (emitted m depth))

variable {m : Module} {depth : Nat}

theorem joinPlaces_eq (held : m.inst id = .ok inst) : m.joinPlaces id = inst.kind.joinPlaces id := by
  simp [joinPlaces, held]

theorem keptUnder_eq {emitted : BlockId → List BlockId} (held : m.inst id = .ok inst) :
    m.keptUnder emitted id = (inst.kind.children.filter (m.keeps inst)).flatMap emitted := by
  simp [keptUnder, held]

/-- The basic blocks start at the blocks in order, at the places of those blocks and at some extra places,
and carry out the instructions of those blocks. -/
structure Covers (m : Module) (extra : List Place) (segments : List Segment) (blocks : List BlockId) :
    Prop where
  starts : segments.filterMap (·.place.block?) = blocks
  places : (segments.map (·.place)).Perm (extra ++ blocks.flatMap m.placesOf)
  lowered : ∀ block, loweredIn segments block = if block ∈ blocks then m.instsOf block else []

/-- The flow carries out the instructions of its block, and what comes after the basic block that it starts
in covers the blocks under them. -/
structure FlowCovers (m : Module) (home : BlockId) (insts : List InstId) (flow : Flow)
    (blocks : List BlockId) : Prop where
  starts : flow.rest.filterMap (·.place.block?) = blocks
  places : (flow.rest.map (·.place)).Perm (insts.flatMap m.joinPlaces ++ blocks.flatMap m.placesOf)
  own : flow.insts ++ flow.jump.inst?.toList ++ loweredIn flow.rest home = insts
  lowered : ∀ block ≠ home, loweredIn flow.rest block = if block ∈ blocks then m.instsOf block else []

theorem Covers.nil : m.Covers [] [] [] := ⟨rfl, .refl _, fun _ => rfl⟩

theorem Covers.append {extra extra' : List Place} {first second : List Segment} {blocks' : List BlockId}
    (one : m.Covers extra first blocks) (two : m.Covers extra' second blocks') (apart : blocks.Disjoint blocks') :
    m.Covers (extra ++ extra') (first ++ second) (blocks ++ blocks') where
  starts := by rw [filterMap_append, one.starts, two.starts]
  places := by
    have here := one.places
    have later := two.places
    rw [perm_iff_count] at here later ⊢
    intro place
    have here := here place
    have later := later place
    simp only [map_append, flatMap_append, count_append] at here later ⊢
    omega
  lowered block := by
    rw [loweredIn_append, one.lowered, two.lowered]
    by_cases member : block ∈ blocks
    · have outside : block ∉ blocks' := fun member' => apart member member'
      simp [member, outside]
    · simp [member]

theorem Covers.flatMap {items : List BlockId} {segments : BlockId → List Segment}
    {blocks : BlockId → List BlockId} (each : ∀ item ∈ items, m.Covers [] (segments item) (blocks item))
    (once : (items.flatMap blocks).Nodup) : m.Covers [] (items.flatMap segments) (items.flatMap blocks) := by
  induction items with
  | nil => exact .nil
  | cons item rest ih =>
    rw [flatMap_cons, nodup_append'] at once
    exact (each item (by simp)).append (ih (fun other member => each other (by simp [member])) once.2.1) once.2.2

/-- The basic blocks of a flow that starts with its block. -/
theorem FlowCovers.segments {flow : Flow} (covers : m.FlowCovers block (m.instsOf block) flow blocks)
    (within : Enclosing) (joins : Joins) :
    m.Covers [] (flow.segments (.block block) block within joins) (block :: blocks) where
  starts := by simp [Flow.segments, covers.starts]
  places := by
    have later := covers.places.cons (.block block)
    simpa [Flow.segments, placesOf] using later
  lowered other := by
    rw [Flow.segments, loweredIn_cons]
    by_cases same : block = other
    · subst same
      have own := covers.own
      simpa [Segment.lowered] using own
    · have differ : other ≠ block := fun equal => same equal.symm
      simp [same, differ, covers.lowered other differ]

/-- A basic block that starts at a block without instructions. -/
theorem covers_empty {jump : Jump} (empty : m.instsOf block = []) (silent : jump.inst? = none) (within : Enclosing)
    (joins : Joins) : m.Covers [] [⟨.block block, block, within, joins, [], jump⟩] [block] where
  starts := rfl
  places := by simp [placesOf, empty]
  lowered other := by
    by_cases same : block = other
    · simp [loweredIn, Segment.lowered, silent, ← same, empty]
    · have differ : other ≠ block := fun equal => same equal.symm
      simp [loweredIn, same, differ]

/-- A basic block that stands for no block and carries nothing out. -/
theorem covers_header (id : InstId) (l : Loop) (home : BlockId) (within : Enclosing) (joins : Joins) :
    m.Covers [.header id] [⟨.header id, home, within, joins, [], .head id l⟩] [] where
  starts := rfl
  places := .refl _
  lowered other := by simp [loweredIn, Segment.lowered, Jump.inst?]

/-- What is known of the blocks under a block: they exist and are ended, and none is met twice. -/
structure Sane (m : Module) (depth : Nat) (block : BlockId) : Prop where
  walks : ∃ walked, m.Walks depth block walked
  ended : EndedBelow m block
  once : (m.emitted depth block).Nodup

/-- The flows of sane blocks cover the blocks. -/
def BodiesCover (m : Module) (depth : Nat) : Prop :=
  ∀ {block}, m.Sane depth block → ∀ within joins,
    m.Covers [] ((m.bodyFlow depth within block).segments (.block block) block within joins) (m.emitted depth block)

theorem Sane.found (sane : m.Sane depth block) :
    ∃ b, m.block block = .ok b ∧ m.Ended b.insts ∧ ∀ id ∈ b.insts, ∃ inst, m.inst id = .ok inst := by
  obtain ⟨walked, walks⟩ := sane.walks
  obtain ⟨b, found, insts⟩ := walks.found .refl
  exact ⟨b, found, sane.ended block b .refl found, insts⟩

theorem Sane.emitted_empty (sane : m.Sane depth block) (empty : m.instsOf block = []) :
    m.emitted depth block = [block] := by
  obtain ⟨walked, walks⟩ := sane.walks
  cases depth with
  | zero => cases walks
  | succ depth => simp [emitted, empty]

theorem BodiesCover.child (covers : m.BodiesCover depth) (sane : m.Sane depth block) (within : Enclosing) :
    m.Covers [] (m.childSegments (m.bodyFlow depth) within block) (m.emitted depth block) := by
  obtain ⟨b, found, -, -⟩ := sane.found
  unfold childSegments
  rw [found]
  dsimp only
  split
  · have empty : m.instsOf block = [] := by simpa [instsOf_eq found] using ‹b.insts.isEmpty = true›
    have silent : (m.emptyJump b).inst? = none := by
      rcases m.emptyJump_cases b with stuck | ⟨parent, -, onward⟩
      · rw [stuck]; rfl
      · rw [onward]; rfl
    rw [sane.emitted_empty empty]
    exact covers_empty empty silent within .nothing
  · exact covers sane within (.params block)

theorem BodiesCover.returns (covers : m.BodiesCover depth) (sane : m.Sane depth block) (within : Enclosing)
    (loop : InstId) : m.Covers [] (m.returnSegments (m.bodyFlow depth) within loop block) (m.emitted depth block) := by
  unfold returnSegments
  split
  · obtain ⟨b, found, ended, insts⟩ := sane.found
    -- A block whose last instruction does not end it has none.
    have empty : m.instsOf block = [] := by
      rw [instsOf_eq found]
      rename_i open_
      cases last : b.insts.getLast? with
      | none => simpa using last
      | some id =>
        obtain ⟨inst, held⟩ := insts id (mem_of_getLast? last)
        obtain ⟨before, split⟩ := getLast?_eq_some_iff.mp last
        have ends := (ended before id [] inst split held).mpr rfl
        simp [terminator?, found, last, held, ends] at open_
    rw [sane.emitted_empty empty]
    exact covers_empty empty rfl within .nothing
  · exact covers.child sane within

theorem branchSegments_eq {body : Enclosing → BlockId → Flow} {c : Conditional} (kind : inst.kind = .conditional c)
    (block : BlockId) :
    m.branchSegments body within inst block =
      if m.keeps inst block then m.childSegments body within block else [] := by
  simp only [branchSegments, keeps, kind]
  cases needsBlock m (!inst.results.isEmpty) block with
  | error fault => rfl
  | ok needs => cases needs <;> rfl

theorem filter_keeps_eq (inst : Inst) (whole : ∀ c, inst.kind ≠ .conditional c) (blocks : List BlockId) :
    blocks.filter (m.keeps inst) = blocks := by
  refine filter_eq_self.mpr fun block _ => ?_
  unfold keeps
  split
  · exact absurd ‹_› (whole _)
  · rfl

/-- The basic blocks of a construct cover the blocks that it keeps. -/
theorem BodiesCover.construct (covers : m.BodiesCover depth) {jump : Jump} {segments : List Segment}
    (held : m.inst id = .ok inst)
    (opens : m.constructSegments (m.bodyFlow depth) within id inst = some (jump, segments))
    (sane : ∀ child ∈ inst.kind.children, m.keeps inst child = true → m.Sane depth child)
    (once : (m.keptUnder (m.emitted depth) id).Nodup) :
    ∃ extra, m.joinPlaces id = .merge id :: extra ∧ jump.inst? = some id ∧
      m.Covers extra segments (m.keptUnder (m.emitted depth) id) := by
  rw [keptUnder_eq held] at once ⊢
  rw [joinPlaces_eq held]
  have each : ∀ within, ∀ child ∈ inst.kind.children.filter (m.keeps inst),
      m.Covers [] (m.childSegments (m.bodyFlow depth) within child) (m.emitted depth child) := by
    intro within child member
    obtain ⟨owned, kept⟩ := mem_filter.mp member
    exact covers.child (sane child owned kept) within
  unfold constructSegments at opens
  split at opens
  · -- A conditional has the basic blocks of the branches it keeps.
    rename_i c kind
    cases opens
    have branches := Covers.flatMap (each { within with conditional := some id }) once
    refine ⟨[], by rw [kind]; rfl, rfl, ?_⟩
    convert branches using 1
    simp only [kind, Kind.children, filter_cons, filter_nil, flatMap_cons, flatMap_nil,
      branchSegments_eq kind]
    split <;> split <;> simp
  · rename_i l kind
    cases opens
    have all := filter_keeps_eq (m := m) inst (by simp [kind]) inst.kind.children
    rw [all] at each once ⊢
    rw [kind] at each once sane ⊢
    have kept : ∀ child, m.keeps inst child = true := fun child => by simp [keeps, kind]
    simp only [Kind.children, flatMap_append, flatMap_cons, flatMap_nil, append_nil] at once ⊢
    obtain ⟨initial, rest, apart⟩ := nodup_append'.mp once
    have initializers : ∀ child ∈ l.initializer.toList, m.Covers [] (m.childSegments (m.bodyFlow depth)
        { within with loop := some id } child) (m.emitted depth child) := by
      intro child member
      exact each _ child (by rw [Kind.children]; exact mem_append_left _ member)
    have first := Covers.flatMap initializers initial
    have body := covers (sane l.body (by simp [Kind.children]) (kept _)) { within with loop := some id } .nothing
    have back := covers.returns (sane l.continuing (by simp [Kind.children]) (kept _))
      { within with loop := some id } id
    have after := body.append back (nodup_append'.mp rest).2.2
    have header := covers_header (m := m) id l l.body { within with loop := some id } (.params l.body)
    have headed := header.append after (by simp)
    exact ⟨[.header id], rfl, rfl, first.append headed apart⟩
  · rename_i s kind
    cases opens
    have all := filter_keeps_eq (m := m) inst (by simp [kind]) inst.kind.children
    rw [all] at each once ⊢
    rw [kind] at each once ⊢
    have cases := Covers.flatMap (each { within with switch := some id }) once
    refine ⟨[], rfl, rfl, ?_⟩
    rwa [Kind.children, flatMap_map] at cases
  · cases opens

theorem joinPlaces_nil (held : m.inst id = .ok inst) (whole : inst.kind.isControl = false) : m.joinPlaces id = [] := by
  rw [joinPlaces_eq held]
  cases kind : inst.kind <;> rw [kind] at whole <;> first | rfl | cases whole

theorem children_nil {kind : Kind} (whole : kind.isControl = false) : kind.children = [] := by
  cases kind <;> first | rfl | cases whole

theorem BodiesCover.insts (covers : m.BodiesCover depth) {home : BlockId} {insts : List InstId}
    (ended : m.Ended insts) (found : ∀ id ∈ insts, ∃ inst, m.inst id = .ok inst)
    (sane : ∀ id ∈ insts, ∀ inst, m.inst id = .ok inst → ∀ child ∈ inst.kind.children,
      m.keeps inst child = true → m.Sane depth child) (apart : home ∉ insts.flatMap (m.keptUnder (m.emitted depth)))
    (once : (insts.flatMap (m.keptUnder (m.emitted depth))).Nodup) :
    m.FlowCovers home insts (m.instFlow (m.bodyFlow depth) home within insts)
      (insts.flatMap (m.keptUnder (m.emitted depth))) := by
  induction insts with
  | nil => exact ⟨rfl, .refl _, rfl, fun _ _ => rfl⟩
  | cons id rest ih =>
    obtain ⟨inst, held⟩ := found id (by simp)
    simp only [flatMap_cons, mem_append, not_or] at apart once ⊢
    obtain ⟨here, later, disjoint⟩ := nodup_append'.mp once
    have next := ih ended.tail (fun other member => found other (by simp [member]))
      (fun other member => sane other (by simp [member])) apart.2 later
    have bare (whole : inst.kind.isControl = false) : m.keptUnder (m.emitted depth) id = [] := by
      rw [keptUnder_eq held, children_nil whole]
      rfl
    cases ends : inst.kind.isTerminator with
    | true =>
      cases (ended.head held).mp ends
      rw [instFlow_terminator held ends, bare (Kind.not_isControl ends)]
      exact ⟨rfl, by simp [joinPlaces_nil held (Kind.not_isControl ends)], rfl, fun _ _ => rfl⟩
    | false =>
      cases control : inst.kind.isControl with
      | false =>
        rw [instFlow_plain held ends control, bare control]
        refine ⟨next.starts, ?_, ?_, next.lowered⟩
        · simpa [joinPlaces_nil held control] using next.places
        · simpa using next.own
      | true =>
        have opened : (m.constructSegments (m.bodyFlow depth) within id inst).isSome = true :=
          constructSegments_isSome.trans control
        obtain ⟨⟨jump, segments⟩, opens⟩ := Option.isSome_iff_exists.mp opened
        obtain ⟨extra, places, ends, inner⟩ := covers.construct held opens (sane id (by simp) inst held) here
        rw [instFlow_construct held opens]
        refine ⟨?_, ?_, ?_, fun block differ => ?_⟩
        · rw [filterMap_append, Flow.segments, filterMap_cons_none rfl, inner.starts, next.starts]
        · have first := inner.places
          have second := next.places
          rw [perm_iff_count] at first second ⊢
          intro place
          have first := first place
          have second := second place
          simp only [Flow.segments, map_append, map_cons, flatMap_append, flatMap_cons,
            count_append, count_cons, places] at first second ⊢
          omega
        · have none : loweredIn segments home = [] := by rw [inner.lowered, if_neg apart.1]
          have own := next.own
          simpa [ends, loweredIn_append, none, Flow.segments, loweredIn_cons, Segment.lowered] using own
        · rw [loweredIn_append, Flow.segments, loweredIn_cons, inner.lowered, next.lowered block differ]
          have other : home ≠ block := fun same => differ same.symm
          by_cases member : block ∈ m.keptUnder (m.emitted depth) id
          · have outside : block ∉ rest.flatMap (m.keptUnder (m.emitted depth)) := disjoint member
            simp only [if_neg other, if_pos member, if_neg outside, if_pos (mem_append_left _ member),
              append_nil]
          · simp [member, other]

/-- A kept block under a sane one is sane. -/
theorem Sane.child (sane : m.Sane (depth + 1) block) (member : id ∈ m.instsOf block) (held : m.inst id = .ok inst)
    {child : BlockId} (owned : child ∈ inst.kind.children) (kept : m.keeps inst child = true) : m.Sane depth child := by
  obtain ⟨⟨walked, walks⟩, ended, once⟩ := sane
  obtain ⟨b, nested, found, each, rfl⟩ := walks_succ.mp walks
  have listed : id ∈ b.insts := by rwa [instsOf_eq found] at member
  refine ⟨?_, ?_, ?_⟩
  · obtain ⟨list, -, inst', lists, held', children, -⟩ := forall₂_mem_right each.flip listed
    cases held.symm.trans held'
    obtain ⟨walked, -, walks⟩ := forall₂_mem_right children.flip owned
    exact ⟨walked, walks⟩
  · intro inner b' under
    exact ended inner b' (.trans (.child .refl found listed held owned) under)
  · have below := (nodup_flatMap.mp (nodup_cons.mp once).2).1 id member
    rw [keptUnder_eq held] at below
    exact (nodup_flatMap.mp below).1 child (mem_filter.mpr ⟨owned, kept⟩)

/-- The flow of a block covers the block and what is under it, by induction on how deep it nests. -/
theorem bodiesCover (depth : Nat) : m.BodiesCover depth := by
  induction depth with
  | zero =>
    rintro block ⟨⟨walked, walks⟩, -, -⟩
    cases walks
  | succ depth ih =>
    intro block sane within joins
    obtain ⟨b, found, ended, insts⟩ := sane.found
    have once := nodup_cons.mp sane.once
    have flow : m.bodyFlow (depth + 1) within block = m.instFlow (m.bodyFlow depth) block within b.insts := by
      rw [bodyFlow, found]
    have children : ∀ id ∈ b.insts, ∀ inst, m.inst id = .ok inst → ∀ child ∈ inst.kind.children,
        m.keeps inst child = true → m.Sane depth child := by
      intro id member inst held child owned kept
      exact sane.child (by rwa [instsOf_eq found]) held owned kept
    rw [instsOf_eq found] at once
    have covers : m.FlowCovers block b.insts (m.instFlow (m.bodyFlow depth) block within b.insts) _ :=
      ih.insts ended insts children once.1 once.2
    rw [← instsOf_eq found] at covers
    rw [flow, emitted, ← instsOf_eq found]
    exact covers.segments within joins

/-- The block does nothing but leave a conditional, if it has an instruction at all. -/
def Idle (m : Module) (block : BlockId) : Prop :=
  m.instsOf block = [] ∨ ∃ id inst target args, m.instsOf block = [id] ∧ m.inst id = .ok inst ∧
    inst.kind = .exitIf target args

theorem Idle.under (idle : m.Idle block) (under : m.Under block inner) : inner = block := by
  induction under with
  | refl => rfl
  | @child _ inner b id inst _ found member held owned ih =>
    subst ih
    rcases idle with none | ⟨only, inst', target, args, only', held', kind⟩
    · rw [instsOf_eq found] at none
      simp [none] at member
    · rw [instsOf_eq found] at only'
      simp only [only', mem_singleton] at member
      subst member
      cases held.symm.trans held'
      simp [kind, Kind.children] at owned

/-- The block is an idle branch of a conditional without results. -/
def LeftOut (m : Module) (entry block : BlockId) : Prop :=
  ∃ outer id inst c, m.Under entry outer ∧ id ∈ m.instsOf outer ∧ m.inst id = .ok inst ∧
    inst.kind = .conditional c ∧ inst.results = [] ∧ block ∈ [c.whenTrue, c.whenFalse] ∧ m.Idle block

theorem keeps_eq_false_iff {c : Conditional} {b : Block} (kind : inst.kind = .conditional c)
    (found : m.block block = .ok b) (ended : m.Ended b.insts) (insts : ∀ id ∈ b.insts, ∃ inst, m.inst id = .ok inst) :
    m.keeps inst block = false ↔ inst.results = [] ∧ m.Idle block := by
  obtain ⟨needs, decided⟩ := Present.needsBlock ⟨b, found, insts⟩ (!inst.results.isEmpty)
  have long (two : b.insts.length > 1) : needs = true := by
    cases needs with
    | true => rfl
    | false =>
      obtain ⟨-, b', found', short, -⟩ := needsBlock_eq_false decided
      cases found.symm.trans found'
      omega
  simp only [keeps, kind, decided, Idle, instsOf_eq found]
  simp only [needsBlock, terminator?, found, bind, Except.bind, pure, Except.pure] at decided
  rcases shape : b.insts with _ | ⟨id, _ | ⟨second, rest⟩⟩
  · simp only [shape, getLast?_nil] at decided
    cases decided
    simp
  · obtain ⟨only, held⟩ := insts id (by simp [shape])
    have ends := (ended [] id [] only (by simp [shape]) held).mpr rfl
    simp only [shape, getLast?_singleton, held, ends, if_true] at decided
    cases exits : only.kind <;> rw [exits] at decided <;> cases decided <;> simp [held, exits]
  · simp [long (by simp [shape])]

theorem emitted_sublist (walks : m.Walks depth block walked) : (m.emitted depth block).Sublist walked := by
  induction depth generalizing block walked with
  | zero => cases walks
  | succ depth ih =>
    obtain ⟨b, nested, found, each, rfl⟩ := walks_succ.mp walks
    rw [emitted, instsOf_eq found]
    refine .cons_cons block ?_
    clear walks found
    generalize b.insts = insts at each
    induction each with
    | nil => exact .refl _
    | cons first _ later =>
      obtain ⟨inst, lists, held, children, rfl⟩ := first
      rw [flatMap_cons, flatten_cons, keptUnder_eq held]
      refine .append ?_ later
      clear held later
      generalize inst.kind.children = blocks at children
      induction children with
      | nil => exact .refl _
      | @cons child list _ _ walks _ later =>
        rw [filter_cons, flatten_cons]
        split
        · exact (ih walks).append later
        · exact later.trans (sublist_append_right list _)

/-- A block of the walk without a label is left out. -/
theorem leftOut_of_walked (walks : m.Walks depth block walked) (ended : EndedBelow m block) (member : inner ∈ walked)
    (absent : inner ∉ m.emitted depth block) : m.LeftOut block inner := by
  induction depth generalizing block walked with
  | zero => cases walks
  | succ depth ih =>
    obtain ⟨b, nested, found, each, rfl⟩ := walks_succ.mp walks
    rw [emitted] at absent
    rcases mem_cons.mp member with rfl | member
    · simp at absent
    obtain ⟨list, listed, member⟩ := mem_flatten.mp member
    obtain ⟨id, isInst, inst, lists, held, children, rfl⟩ := forall₂_mem_right each listed
    obtain ⟨list, listed, member⟩ := mem_flatten.mp member
    obtain ⟨child, owned, walks'⟩ := forall₂_mem_right children listed
    have below : m.Under block child := .child .refl found isInst held owned
    have isInst : id ∈ m.instsOf block := by rwa [instsOf_eq found]
    cases kept : m.keeps inst child with
    | true =>
      have outside : inner ∉ m.emitted depth child := by
        intro inside
        refine absent (mem_cons_of_mem _ (mem_flatMap.mpr ⟨id, isInst, ?_⟩))
        rw [keptUnder_eq held]
        exact mem_flatMap.mpr ⟨child, mem_filter.mpr ⟨owned, kept⟩, inside⟩
      obtain ⟨outer, rest⟩ := ih walks' (fun inner b' under => ended inner b' (below.trans under)) member outside
      obtain ⟨id', inst', c, under, rest⟩ := rest
      exact ⟨outer, id', inst', c, below.trans under, rest⟩
    | false =>
      -- A branch that is not kept owns no blocks, so the walk meets nothing but itself there.
      obtain ⟨b', found', insts⟩ := walks'.found .refl
      have conditional : ∃ c, inst.kind = .conditional c := by
        unfold keeps at kept
        split at kept
        · exact ⟨_, ‹_›⟩
        · cases kept
      obtain ⟨c, kind⟩ := conditional
      obtain ⟨results, idle⟩ := (keeps_eq_false_iff kind found' (ended child b' below found') insts).mp kept
      cases idle.under (walks'.mem_iff.mp member)
      exact ⟨block, id, inst, c, .refl, isInst, held, kind, results, by rwa [kind] at owned, idle⟩

theorem construct?_of_mem_joinPlaces {place : Place} (member : place ∈ m.joinPlaces id) :
    place.construct? = some id := by
  unfold joinPlaces at member
  split at member
  · rename_i inst _
    cases kind : inst.kind <;> simp only [kind, Kind.joinPlaces, mem_cons, not_mem_nil, or_false] at member
    case conditional | switch => rw [member]; rfl
    case loop => rcases member with rfl | rfl <;> rfl
  · cases member

/-- Blocks that share no instructions share no places. -/
theorem placesOf_nodup (once : blocks.Nodup) (insts : (blocks.flatMap m.instsOf).Nodup) :
    (blocks.flatMap m.placesOf).Nodup := by
  have starts : (blocks.flatMap fun block => [Place.block block]).Nodup := by
    rw [← map_eq_flatMap]
    exact once.map fun _ _ same => by cases same; rfl
  have joins : (blocks.flatMap fun block => (m.instsOf block).flatMap m.joinPlaces).Nodup := by
    rw [← flatMap_assoc, nodup_flatMap]
    constructor
    · intro id _
      unfold joinPlaces
      split
      · unfold Kind.joinPlaces
        split <;> simp
      · simp
    · refine insts.imp fun {id other} differ place here there => differ ?_
      exact Option.some.inj ((construct?_of_mem_joinPlaces here).symm.trans (construct?_of_mem_joinPlaces there))
  refine (flatMap_append_perm blocks (fun block => [Place.block block]) _).nodup_iff.mp
    (nodup_append'.mpr ⟨starts, joins, ?_⟩)
  intro place here there
  obtain ⟨block, -, isStart⟩ := mem_flatMap.mp here
  obtain ⟨_, -, isJoin⟩ := mem_flatMap.mp there
  obtain ⟨id, -, isJoin⟩ := mem_flatMap.mp isJoin
  have some? := construct?_of_mem_joinPlaces isJoin
  rw [mem_singleton.mp isStart] at some?
  cases some?

/-- The plan of a function covers the blocks under its entry that have a label, each once. -/
theorem Nested.plan {function : Function} (nested : m.Nested function.entry walked)
    (ended : EndedBelow m function.entry) :
    m.Covers [] (m.plan function) (m.emitted (m.blocks.size + 1) function.entry) ∧
      ((m.plan function).map (·.place)).Nodup := by
  have within := emitted_sublist nested.walks
  have once := within.nodup nested.blocks
  have covers : m.Covers [] (m.plan function) (m.emitted (m.blocks.size + 1) function.entry) :=
    m.bodiesCover _ ⟨⟨walked, nested.walks⟩, ended, once⟩ {} .nothing
  refine ⟨covers, covers.places.nodup_iff.mpr ?_⟩
  rw [nil_append]
  exact placesOf_nodup once ((within.flatMap m.instsOf).nodup nested.insts)

end Module

theorem headers_nodup {segments : List Segment} (once : (segments.map (·.place)).Nodup) : (headers segments).Nodup := by
  have same : headers segments = (segments.map (·.place)).filterMap Place.header? := by
    rw [headers, filterMap_map]
    rfl
  rw [same]
  refine once.filterMap fun first second loop here there => ?_
  cases first <;> cases here
  cases second <;> cases there
  rfl

theorem count_le_of_forall₂ {α β : Type} [DecidableEq α] [DecidableEq β] {related : α → β → Prop} {as : List α}
    {bs : List β} (each : Forall₂ related as bs) {a : α} {b : β}
    (only : ∀ other, related other b → other = a) : bs.count b ≤ as.count a := by
  induction each with
  | nil => simp
  | @cons first second _ _ here _ ih =>
    rw [count_cons, count_cons]
    by_cases same : second = b
    · subst same
      simp [only first here, ih]
    · simp only [beq_iff_eq, same, if_false, add_zero]
      omega

end Shader

namespace Shader.Binary

/-- The ids of the labels of the blocks. -/
def FunctionCode.labels (code : FunctionCode) : List Word := code.blocks.filterMap fun block => block.label.result

end Shader.Binary

namespace Shader.Lower

open Binary Instruction List

variable {m : Module} {L : Ledger}
variable {word : Word} {heads : List (InstId × Word)}
variable {function : Function} {code : FunctionCode}

section
variable {state : LowerState} {e : Effect} (lowering : Lowering m state e)

include lowering

/-- The label of a block or of the place after a construct was taken for it alone. -/
theorem Lowering.keyed_of_place {key : Key} (bound : (key, word) ∈ state.bindings) (place : key.isPlace = true) :
    (key, word) ∈ e.keyed := by
  rw [lowering.bindings] at bound
  rcases Multiset.mem_add.mp bound with keyed | shared
  · exact keyed
  · obtain ⟨entry, -, same⟩ := mem_map.mp (Multiset.mem_coe.mp shared)
    cases same
    cases place

theorem Lowering.words_nodup : (e.loose + e.keyed.map Prod.snd).Nodup := by
  rw [← e.taken_words]
  exact Multiset.coe_nodup.mpr lowering.taken_nodup

/-- The labels of headers are not those of other places. -/
theorem Lowering.loose_apart {key : Key} (bound : (key, word) ∈ state.bindings) (place : key.isPlace = true) :
    word ∉ e.loose := by
  intro loose
  have apart := (Multiset.nodup_add.mp lowering.words_nodup).2.2
  have keyed := lowering.keyed_of_place bound place
  exact Multiset.disjoint_left.mp apart loose (Multiset.mem_map_of_mem Prod.snd keyed)

/-- Two places besides headers have different labels. -/
theorem Lowering.key_unique {first second : Key} (one : (first, word) ∈ state.bindings)
    (two : (second, word) ∈ state.bindings) (place : first.isPlace = true) (place' : second.isPlace = true) :
    first = second := by
  have once := (Multiset.nodup_add.mp lowering.words_nodup).2.1
  have same := Multiset.inj_on_of_nodup_map once _ (lowering.keyed_of_place one place) _
    (lowering.keyed_of_place two place') rfl
  exact congrArg Prod.fst same

theorem Lowering.place_unique {first second : Place} (one : Names ⟨state, e.loose⟩ heads first word)
    (two : Names ⟨state, e.loose⟩ heads second word) (bound : word ∉ e.loose) : first = second := by
  cases first with
  | header loop => exact absurd one.2 bound
  | block id =>
    cases second with
    | header loop => exact absurd two.2 bound
    | block other => cases lowering.key_unique one two rfl rfl; rfl
    | merge other => cases lowering.key_unique one two rfl rfl
  | merge id =>
    cases second with
    | header loop => exact absurd two.2 bound
    | block other => cases lowering.key_unique one two rfl rfl
    | merge other => cases lowering.key_unique one two rfl rfl; rfl

/-- A place has one label. -/
theorem Lowering.label_unique {place : Place} {first second : Word} (once : (heads.map Prod.fst).Nodup)
    (one : Names ⟨state, e.loose⟩ heads place first) (two : Names ⟨state, e.loose⟩ heads place second) :
    first = second := by
  cases place with
  | block id => exact eq_of_mem_bindings lowering.sound one two
  | merge id => exact eq_of_mem_bindings lowering.sound one two
  | header loop => exact congrArg Prod.snd (inj_on_of_nodup_map once one.1 two.1 rfl)

end

theorem SegmentCode.labels {names : Place → Word → Prop} {segments : List Segment} {blocks : List BasicBlock}
    (laid : Forall₂ (SegmentCode m L names) segments blocks) :
    Forall₂ (fun segment word => names segment.place word) segments
      (blocks.filterMap fun block => block.label.result) ∧
    labelIds (blocks.flatMap BasicBlock.instructions) = ↑(blocks.filterMap fun block => block.label.result) := by
  induction laid with
  | nil => exact ⟨.nil, rfl⟩
  | @cons segment block _ rest here _ ih =>
    have body : labelIds block.body.toList = 0 := labelIds_eq_zero here.whole.2
    obtain ⟨word, -, -, -, named, opens, -⟩ := here
    have result : block.label.result = some word := by rw [opens]; rfl
    have own : labelIds [block.label] = {word} := by rw [opens]; rfl
    simp only [filterMap_cons, result, flatMap_cons]
    refine ⟨.cons named ih.1, ?_⟩
    have split : block.instructions = [block.label] ++ block.body.toList := rfl
    rw [labelIds_append, split, labelIds_append, own, body, ih.2]
    rfl

theorem Planned.heads_nodup (planned : Planned m L function heads code)
    (once : ((m.plan function).map (·.place)).Nodup) : (heads.map Prod.fst).Nodup := by
  rw [planned.listed]
  exact headers_nodup once

/-- Distinct places have distinct labels. -/
theorem Planned.labels_nodup {state : LowerState} {e : Effect} (lowering : Lowering m state e)
    (member : code ∈ e.functions) (planned : Planned m ⟨state, e.loose⟩ function heads code)
    (once : ((m.plan function).map (·.place)).Nodup) : code.labels.Nodup := by
  obtain ⟨named, labels⟩ := SegmentCode.labels planned.blocks
  obtain ⟨placed, fresh, split, keyed, within⟩ := lowering.builds.labels code member
  rw [nodup_iff_count_le_one]
  intro word
  by_cases free : word ∈ e.loose
  · -- The label of a header is taken once, and it is no label of another place.
    have absent : word ∉ placed := by
      intro isPlaced
      obtain ⟨key, place, bound⟩ := keyed word isPlaced
      exact lowering.loose_apart bound place free
    have loose := (Multiset.nodup_add.mp lowering.words_nodup).1
    calc code.labels.count word = (placed + fresh).count word := by
          rw [← split, FunctionCode.stream, labels, Multiset.coe_count]
          rfl
      _ = fresh.count word := by rw [Multiset.count_add, Multiset.count_eq_zero.mpr absent, zero_add]
      _ ≤ 1 := (Multiset.count_le_of_le word within).trans (Multiset.nodup_iff_count_le_one.mp loose word)
  · by_cases listed : word ∈ code.labels
    · obtain ⟨segment, -, here⟩ := forall₂_mem_right named listed
      have places : Forall₂ (Names ⟨state, e.loose⟩ heads) ((m.plan function).map (·.place)) code.labels :=
        forall₂_map_left_iff.mpr named
      exact (count_le_of_forall₂ places fun other there => lowering.place_unique there here free).trans
        (nodup_iff_count_le_one.mp once segment.place)
    · rw [count_eq_zero.mpr listed]
      exact Nat.zero_le 1

theorem searching_entry (ref : FuncId) (function : Function) (declared : searching.function ref = .ok function) :
    function.entry = ⟨1⟩ :=
  Module.forall_function (P := fun _ function => function.entry = ⟨1⟩) (by decide) declared

theorem searching_walk : searching.Nested ⟨1⟩ [⟨1⟩, ⟨2⟩, ⟨3⟩, ⟨5⟩, ⟨6⟩, ⟨7⟩, ⟨8⟩, ⟨4⟩] :=
  ⟨by decide +kernel, by decide, by decide⟩

theorem searching_nested (ref : FuncId) (function : Function) (declared : searching.function ref = .ok function) :
    ∃ walked, searching.Nested function.entry walked := by
  rw [searching_entry ref function declared]
  exact ⟨_, searching_walk⟩

end Shader.Lower
