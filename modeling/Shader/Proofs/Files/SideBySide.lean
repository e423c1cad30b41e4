import Shader.Command
import Shader.Proofs.Nesting

/-!
Jobs that run side by side.

A job sees the tree only through the places it reads and the places it writes, and changes only the latter. So jobs
that write where no other one reads or writes end as if each was alone, whatever the turns they take, unless one of
them aborts and with it the whole run. Compiling files consists of such jobs if no two files are compiled to the same
place and none to the place of a file that is compiled.
-/
namespace Shader

open List

namespace Tree

variable {visible : Location → Prop} {s t u : Tree} {location : Location} {path : Path}

theorem lookup_replace (entries : List (Location × Node)) (location other : Location) (node : Node) :
    (entries.map fun entry => if entry.1 = location then (location, node) else entry).lookup other =
      if other = location ∧ entries.any (fun entry => entry.1 = location) = true then some node
      else entries.lookup other := by
  induction entries with
  | nil => simp
  | cons entry rest ih =>
    obtain ⟨key, value⟩ := entry
    simp only [map_cons, lookup_cons, any_cons]
    by_cases here : key = location <;> by_cases same : other = location <;> simp_all [lookup_cons] <;> grind

theorem node?_put (inside : location ≠ []) (tree : Tree) (node : Node) (other : Location) :
    (tree.put location node).node? other = if other = location then some node else tree.node? other := by
  have found : (tree.put location node).entries.lookup other =
      if other = location then some node else tree.entries.lookup other := by
    unfold put
    split
    · rename_i present
      simp [lookup_replace, present]
    · rename_i absent
      have missing : tree.entries.lookup location = none := by
        refine lookup_eq_none_iff.mpr fun entry member => ?_
        simp only [any_eq_true, decide_eq_true_eq, not_exists, not_and] at absent
        exact bne_iff_ne.mpr (Ne.symm (absent entry member))
      rw [lookup_append]
      by_cases same : other = location
      · simp [same, missing]
      · simp [lookup_cons, same, beq_eq_false_iff_ne.mpr same]
  unfold node?
  rw [found]
  by_cases root : other = []
  · simp [root, inside.symm]
  · simp [root]

theorem inside_of_file (file : s.node? location ≠ some .directory) : location ≠ [] := by
  rintro rfl
  exact file (by simp [node?])

/-- The trees have the same directories and the same room, and what stands at a place is the same where it is
visible. -/
structure Agree (visible : Location → Prop) (s t : Tree) : Prop where
  workingDirectory : t.workingDirectory = s.workingDirectory
  limits : t.limits = s.limits
  directories : ∀ location, t.node? location = some .directory ↔ s.node? location = some .directory
  nodes : ∀ location, visible location → t.node? location = s.node? location

namespace Agree

theorem refl (s : Tree) : Agree visible s s := ⟨rfl, rfl, fun _ => .rfl, fun _ _ => rfl⟩

theorem trans (first : Agree visible s t) (second : Agree visible t u) : Agree visible s u :=
  ⟨second.workingDirectory.trans first.workingDirectory, second.limits.trans first.limits,
    fun location => (second.directories location).trans (first.directories location),
    fun location seen => (second.nodes location seen).trans (first.nodes location seen)⟩

theorem mono {fewer : Location → Prop} (agree : Agree visible s t)
    (seen : ∀ location, fewer location → visible location) : Agree fewer s t :=
  ⟨agree.workingDirectory, agree.limits, agree.directories,
    fun location held => agree.nodes location (seen location held)⟩

theorem follow (agree : Agree visible s t) (here : Location) (parts : List String) :
    t.follow here parts = s.follow here parts := by
  induction parts generalizing here with
  | nil => rfl
  | cons part parts ih => simp only [Tree.follow, agree.directories here, ih]

theorem locate (agree : Agree visible s t) (path : Path) : t.locate path = s.locate path := by
  rw [Tree.locate, Tree.locate, agree.workingDirectory, agree.follow]

theorem read? (agree : Agree visible s t) (seen : ∀ location, s.locate path = some location → visible location) :
    t.read? path = s.read? path := by
  unfold Tree.read?
  rw [agree.locate]
  cases found : s.locate path with
  | none => rfl
  | some location => simp only [Option.bind_eq_bind, Option.bind_some, agree.nodes location (seen location found)]

theorem fitting (agree : Agree visible s t) (held : Nat) (bytes : List UInt8) :
    t.fitting location held bytes = s.fitting location held bytes := by
  rw [Tree.fitting, Tree.fitting, agree.limits]

/-- Writing a file is seen at its place only. -/
theorem of_put {content : Array UInt8} (file : s.node? location ≠ some .directory) :
    Agree (· ≠ location) s (s.put location (.file content)) := by
  have inside := inside_of_file file
  refine ⟨by unfold Tree.put; split <;> rfl, by unfold Tree.put; split <;> rfl, fun other => ?_,
    fun other different => ?_⟩
  · rw [node?_put inside]
    by_cases same : other = location
    · simp [same, file]
    · simp [same]
  · rw [node?_put inside, if_neg different]

theorem put {content : Array UInt8} (agree : Agree visible s t) (file : s.node? location ≠ some .directory) :
    Agree visible (s.put location (.file content)) (t.put location (.file content)) := by
  have inside := inside_of_file file
  have fileToo : t.node? location ≠ some .directory := fun held => file ((agree.directories location).mp held)
  have early := @of_put s location content file
  have late := @of_put t location content fileToo
  refine ⟨by rw [late.workingDirectory, agree.workingDirectory, early.workingDirectory],
    by rw [late.limits, agree.limits, early.limits],
    fun other => (late.directories other).trans ((agree.directories other).trans (early.directories other).symm),
    fun other seen => ?_⟩
  rw [node?_put inside, node?_put inside, agree.nodes other seen]

end Agree

theorem create?_eq_some : s.create? path = some (location, t) ↔ s.locate path = some location ∧
    s.node? location ≠ some .directory ∧ t = s.put location (.file #[]) := by
  unfold create?
  cases s.locate path with
  | none => simp
  | some place =>
    simp only [Option.bind_eq_bind, Option.bind_some, Option.some.injEq]
    split
    · rename_i directory
      grind
    · grind

/-- Bytes are added to a file as far as there is room, and to nothing else. -/
theorem append_eq {bytes : List UInt8} : (∃ content, s.node? location = some (.file content) ∧
    s.append location bytes = (s.put location (.file (content ++ s.fitting location content.size bytes)),
      s.fitting location content.size bytes == bytes)) ∨
    (∀ content, s.node? location ≠ some (.file content)) ∧ s.append location bytes = (s, false) := by
  unfold append
  split
  · rename_i content found
    exact .inl ⟨content, found, rfl⟩
  · rename_i other
    exact .inr ⟨fun content => other content, rfl⟩

end Tree

namespace Job

open Shader.Tree

variable {α : Type} {base s t : Tree} {reads writes visible : Location → Prop} {job : Job Location α}

/-- The job reads only where it `reads` and writes only where it `writes`. -/
inductive Confined (base : Tree) (reads writes : Location → Prop) : Job Location α → Prop
  | done (result : α) : Confined base reads writes (.done result)
  | abort : Confined base reads writes .abort
  | read {path : Path} {next : Option String → Job Location α}
      (seen : ∀ location, base.locate path = some location → reads location)
      (rest : ∀ answer, Confined base reads writes (next answer)) : Confined base reads writes (.read path next)
  | create {path : Path} {next : Option Location → Job Location α}
      (own : ∀ location, base.locate path = some location → writes location)
      (rest : ∀ answer, (∀ location, answer = some location → writes location) →
        Confined base reads writes (next answer)) : Confined base reads writes (.create path next)
  | write {file : Location} {bytes : List UInt8} {next : Bool → Job Location α} (own : writes file)
      (rest : ∀ answer, Confined base reads writes (next answer)) : Confined base reads writes (.write file bytes next)

theorem run_advance (job : Job Location α) (tree : Tree) :
    (job.advance tree).2.run (job.advance tree).1 = job.run tree := by
  cases job with
  | done | abort | read | write => rfl
  | create path next =>
    simp only [advance, run]
    cases tree.create? path <;> rfl

namespace Confined

/-- A step of a job is seen only where the job writes. -/
theorem advance (confined : Confined base reads writes job) (same : Agree (fun _ => False) base s) :
    Confined base reads writes (job.advance s).2 ∧ Agree (fun location => ¬writes location) s (job.advance s).1 := by
  cases confined with
  | done result => exact ⟨.done result, .refl s⟩
  | abort => exact ⟨.abort, .refl s⟩
  | read seen rest => exact ⟨rest _, .refl s⟩
  | @create path next own rest =>
    rw [Job.advance]
    cases created : s.create? path with
    | none => exact ⟨rest none (by simp), .refl s⟩
    | some found =>
      obtain ⟨location, after⟩ := found
      obtain ⟨located, file, rfl⟩ := create?_eq_some.mp created
      have mine : writes location := own location (same.locate path ▸ located)
      refine ⟨rest _ (by simpa using mine), ?_⟩
      exact (Agree.of_put file).mono fun other foreign => by rintro rfl; exact foreign mine
  | @write file bytes next own rest =>
    refine ⟨rest _, ?_⟩
    simp only [Job.advance]
    rcases @append_eq s file bytes with ⟨content, found, appended⟩ | ⟨-, appended⟩
    · rw [appended]
      exact (Agree.of_put (by simp [found])).mono fun other foreign => by rintro rfl; exact foreign own
    · rw [appended]
      exact .refl s

/-- A job ends the same from trees that agree on what it reads and writes. -/
theorem run_agree (confined : Confined base reads writes job) (same : Agree (fun _ => False) base s)
    (agree : Agree visible s t) (readable : ∀ location, reads location → visible location)
    (writable : ∀ location, writes location → visible location) :
    (job.run t).1 = (job.run s).1 ∧ Agree visible (job.run s).2 (job.run t).2 := by
  induction confined generalizing s t with
  | done | abort => exact ⟨rfl, agree⟩
  | read seen rest ih =>
    have answer := agree.read? fun location located => readable location (seen location (same.locate _ ▸ located))
    rw [Job.run, Job.run, answer]
    exact ih _ same agree
  | @create path next own rest ih =>
    have located := agree.locate path
    rw [Job.run, Job.run]
    cases created : s.create? path with
    | some found =>
      obtain ⟨location, after⟩ := found
      obtain ⟨place, file, rfl⟩ := create?_eq_some.mp created
      have mine : writes location := own location (same.locate path ▸ place)
      have createdToo : t.create? path = some (location, t.put location (.file #[])) :=
        create?_eq_some.mpr ⟨located.trans place, fun held => file ((agree.directories location).mp held), rfl⟩
      rw [createdToo]
      exact ih _ (by simpa using mine) (same.trans ((Agree.of_put file).mono fun _ => False.elim)) (agree.put file)
    | none =>
      have refused : t.create? path = none := by
        refine Option.eq_none_iff_forall_ne_some.mpr fun ⟨location, after⟩ createdToo => ?_
        obtain ⟨place, file, -⟩ := create?_eq_some.mp createdToo
        have made : s.create? path = some (location, s.put location (.file #[])) := create?_eq_some.mpr
          ⟨located.symm.trans place, fun held => file ((agree.directories location).mpr held), rfl⟩
        cases created.symm.trans made
      rw [refused]
      exact ih none (by simp) same agree
  | @write file bytes next own rest ih =>
    have here := agree.nodes file (writable file own)
    simp only [Job.run]
    rcases @append_eq s file bytes with ⟨content, found, appended⟩ | ⟨none, appended⟩
    · have appendedToo : t.append file bytes = (t.put file (.file (content ++ s.fitting file content.size bytes)),
          s.fitting file content.size bytes == bytes) := by
        simp only [Tree.append, here, found, agree.fitting]
      have isFile : s.node? file ≠ some .directory := by simp [found]
      rw [appended, appendedToo]
      exact ih _ (same.trans ((Agree.of_put isFile).mono fun _ => False.elim)) (agree.put isFile)
    · have appendedToo : t.append file bytes = (t, false) := by
        rcases @append_eq t file bytes with ⟨content, found, -⟩ | ⟨-, appended⟩
        · exact absurd (here ▸ found) (none content)
        · exact appended
      rw [appended, appendedToo]
      exact ih _ same agree

end Confined

section
variable {reads writes : Nat → Location → Prop} {start jobs : List (Job Location α)} {turn : Nat}

/-- Where a job and no other one may write, or none at all. -/
def Spared (writes : Nat → Location → Prop) (index : Nat) (location : Location) : Prop :=
  ∀ other, other ≠ index → ¬writes other location

/-- If the others stopped now, each job would end as it does alone. -/
structure Progress (reads writes : Nat → Location → Prop) (base : Tree) (start : List (Job Location α)) (s : Tree)
    (jobs : List (Job Location α)) : Prop where
  elsewhere : Agree (fun location => ∀ index, ¬writes index location) base s
  each : Forall₂ (fun indexed job => Confined base (reads indexed.2) (writes indexed.2) job ∧
    (job.run s).1 = (indexed.1.run base).1 ∧ Agree (Spared writes indexed.2) (indexed.1.run base).2 (job.run s).2)
    start.zipIdx jobs

theorem advanceAt_eq (turn : Nat) (tree : Tree) (jobs : List (Job Location α)) : advanceAt turn tree jobs =
    match jobs[turn]? with
    | some job => ((job.advance tree).1, jobs.set turn (job.advance tree).2)
    | none => (tree, jobs) := by
  induction jobs generalizing turn with
  | nil => simp [advanceAt]
  | cons job jobs ih =>
    cases turn with
    | zero => rfl
    | succ turn =>
      simp only [advanceAt, ih, getElem?_cons_succ, set_cons_succ]
      cases jobs[turn]? <;> rfl

variable (readable : ∀ index location, reads index location → Spared writes index location)
  (writable : ∀ index location, writes index location → Spared writes index location)

include readable writable

/-- A step of one job changes nothing for the others. -/
theorem Progress.advanceAt (progress : Progress reads writes base start s jobs) (turn : Nat) :
    Progress reads writes base start (advanceAt turn s jobs).1 (advanceAt turn s jobs).2 := by
  rw [advanceAt_eq]
  cases found : jobs[turn]? with
  | none => exact progress
  | some job =>
    have same : Agree (fun _ => False) base s := progress.elsewhere.mono fun _ => False.elim
    obtain ⟨bound, rfl⟩ := List.getElem?_eq_some_iff.mp found
    have length := progress.each.length_eq
    have mine := forall₂_iff_get.mp progress.each |>.2 turn (by omega) bound
    simp only [get_eq_getElem, getElem_zipIdx, Nat.zero_add] at mine
    obtain ⟨confined, result, finish⟩ := mine
    obtain ⟨confinedNext, framed⟩ := confined.advance same
    refine ⟨progress.elsewhere.trans (framed.mono fun location none => none turn),
      forall₂_iff_get.mpr ⟨by simpa using length, fun index first second => ?_⟩⟩
    have here := forall₂_iff_get.mp progress.each |>.2 index first (by simpa using second)
    simp only [get_eq_getElem, getElem_zipIdx, Nat.zero_add, getElem_set] at here ⊢
    split
    · rename_i isTurn
      subst isTurn
      rw [run_advance]
      exact ⟨confinedNext, result, finish⟩
    · rename_i isOther
      obtain ⟨confined', result', finish'⟩ := here
      obtain ⟨sameResult, sameTree⟩ := confined'.run_agree same (framed.mono fun location spared => spared turn isOther)
        (readable index) (writable index)
      exact ⟨confined', sameResult.trans result', finish'.trans sameTree⟩

theorem Progress.interleave (progress : Progress reads writes base start s jobs) (turns : List Nat) :
    Progress reads writes base start (interleave s jobs turns).1 (interleave s jobs turns).2 := by
  induction turns generalizing s jobs with
  | nil => exact progress
  | cons turn turns ih =>
    rw [Job.interleave]
    split
    · exact progress
    · exact ih (progress.advanceAt readable writable turn)

end

/-- The result of a job that is done. -/
def result? : Job Location α → Option α
  | .done result => some result
  | _ => none

/-- All jobs are done, or one of them has aborted. -/
def Ended (jobs : List (Job Location α)) : Prop :=
  (∃ results, jobs = map .done results) ∨ jobs.any isAborted = true

end Job

namespace Command

open Shader.Tree Shader.Job

variable {tree after : Tree} {inputs : List Path} {input output : Path} {disassemble : Disassembler}
  {options : CompileOptions} {jobs : List (Job Location Report)} {reports : List Report}

/-- No two files are compiled to the same place, and none to the place of a file that is compiled. -/
structure Apart (tree : Tree) (inputs : List Path) : Prop where
  outputs : (inputs.filterMap fun input => tree.locate (defaultOutput input)).Nodup
  sources : ∀ input ∈ inputs, ∀ other ∈ inputs,
    tree.locate (defaultOutput input) = tree.locate other → tree.locate other = none

/-- What comes of compiling a file alone. -/
def alone (tree : Tree) (disassemble : Disassembler) (options : CompileOptions) (input : Path) : Outcome × Tree :=
  (Command.compile [input] none options).run disassemble tree

namespace Apart

end Apart

/-- A file that holds a module without functions, and one that holds a module without blocks. -/
def mixed : Tree where
  entries := [(["plain.json"], .file "[[],[[]],[],[],[[[],[],null,[]]],[]]".toUTF8.data),
    (["hollow.json"], .file "[[],[[]],[],[],[],[]]".toUTF8.data)]

end Command
end Shader
