import Shader.Files.Tree

/-!
Work on files as a tree of operations.

A job says which operation comes next and how it goes on from the answer, so it can be run on the files
of the machine as well as on a `Tree`, in one go or one operation at a time beside other jobs. A job that aborts ends
the work of all others with it.
-/
namespace Shader

/-- Work that ends in an `α`, unless it aborts. Files that are open for writing are known by an `η`. -/
inductive Job (η α : Type) where
  | done (result : α)
  | abort
  | read (path : Path) (next : Option String → Job η α)
  | create (path : Path) (next : Option η → Job η α)
  | write (file : η) (bytes : List UInt8) (next : Bool → Job η α)

namespace Job

variable {η α : Type}

/-- Write one piece after the other, up to one that cannot be written. -/
def writeAll (file : η) (failed next : Job η α) : List (List UInt8) → Job η α
  | [] => next
  | piece :: pieces => .write file piece fun wrote => if wrote then writeAll file failed next pieces else failed

/-- Whether the job has aborted. -/
def isAborted : Job η α → Bool
  | .abort => true
  | _ => false

/-- Carry out the next operation. -/
def advance (tree : Tree) : Job Location α → Tree × Job Location α
  | .done result => (tree, .done result)
  | .abort => (tree, .abort)
  | .read path next => (tree, next (tree.read? path))
  | .create path next =>
    match tree.create? path with
    | some (file, tree) => (tree, next (some file))
    | none => (tree, next none)
  | .write file bytes next =>
    let (tree, wrote) := tree.append file bytes
    (tree, next wrote)

/-- Carry out a job, which has no result if it aborts. -/
def run (tree : Tree) : Job Location α → Option α × Tree
  | .done result => (some result, tree)
  | .abort => (none, tree)
  | .read path next => (next (tree.read? path)).run tree
  | .create path next =>
    match tree.create? path with
    | some (file, tree) => (next (some file)).run tree
    | none => (next none).run tree
  | .write file bytes next =>
    let (tree, wrote) := tree.append file bytes
    (next wrote).run tree

/-- Carry out jobs one after the other, up to one that aborts. -/
def runAll (tree : Tree) : List (Job Location α) → Option (List α) × Tree
  | [] => (some [], tree)
  | job :: jobs =>
    match job.run tree with
    | (none, tree) => (none, tree)
    | (some result, tree) =>
      let (results, tree) := runAll tree jobs
      (results.map (result :: ·), tree)

/-- Let one of several jobs carry out its next operation. -/
def advanceAt (turn : Nat) (tree : Tree) : List (Job Location α) → Tree × List (Job Location α)
  | [] => (tree, [])
  | job :: jobs =>
    match turn with
    | 0 =>
      let (tree, job) := job.advance tree
      (tree, job :: jobs)
    | turn + 1 =>
      let (tree, jobs) := advanceAt turn tree jobs
      (tree, job :: jobs)

/-- Let the jobs carry out their operations in turns, up to the turn in which one aborts. -/
def interleave (tree : Tree) (jobs : List (Job Location α)) : List Nat → Tree × List (Job Location α)
  | [] => (tree, jobs)
  | turn :: turns =>
    if jobs.any isAborted then (tree, jobs)
    else
      let (tree, jobs) := advanceAt turn tree jobs
      interleave tree jobs turns

end Job
end Shader
