import Shader.Binary.Listing
import Shader.Codec.Module
import Shader.Command.Arguments
import Shader.Files.Job
import Shader.Json.Parser
import Shader.Json.Printer
import Shader.Lower.Program

/-!
Running a command.

Each file is compiled by a job of its own. What the jobs end in decides how the run ends and what it
prints, whatever the order in which they did their work: a fault in any file comes first, then the error of
the first file that has one. Listings are printed in the order of the files, up to that one. A module that contains
itself cannot be lowered in any amount of memory; the run is aborted with all its jobs.
-/
namespace Shader

open Binary

/-- Why a run ends with an error. -/
inductive CommandError where
  | unreadable (path : Path)
  | unwritable (path : Path)
  | malformed (path : Path) (cause : DecodeError)
  | refused (reason : String)
  | sampleRefused (cause : BuildError)
  | manyInputs (count : Nat)
  | unlisted (reason : String)
  deriving DecidableEq

/-- The kind of an error. -/
def CommandError.kind : CommandError → String
  | .unreadable _ | .unwritable _ => "IoError"
  | .malformed .. => "JsonError"
  | .refused _ => "CompilationError"
  | .sampleRefused _ => "BuildError"
  | .manyInputs _ => "MultipleInputs"
  | .unlisted _ => "DisassemblyError"

def CommandError.describe : CommandError → String
  | error@(.unreadable path) => Text.tuple error.kind [Text.quoted s!"cannot read {path.text}"]
  | error@(.unwritable path) => Text.tuple error.kind [Text.quoted s!"cannot write {path.text}"]
  | error@(.malformed path _) => Text.tuple error.kind [Text.quoted s!"{path.text} is no module"]
  | error@(.refused reason) =>
    Text.tuple error.kind [Text.tuple "SpirvError" [Text.quoted reason]]
  | error@(.sampleRefused cause) => Text.tuple error.kind [Text.quoted cause.message]
  | error@(.manyInputs count) => Text.tuple error.kind [toString count]
  | error@(.unlisted reason) => Text.tuple error.kind [Text.quoted reason]

/-- How a run can break off without an error of its own to report. -/
inductive Breakdown where
  | fault (cause : Fault)
  | exhausted
  deriving DecidableEq

/-- What the user is asked for after a breakdown. Only a fault calls for a report. -/
def Breakdown.note? : Breakdown → Option String
  | .fault _ => some "note: this is a bug in ember, please report it with the input module attached"
  | .exhausted => none

/-- How work on files ends when it does not succeed. -/
inductive Stop where
  | failed (error : CommandError)
  | broken (breakdown : Breakdown)
  deriving DecidableEq

/-- How a run ends. -/
inductive Ending where
  | success
  | help
  | usage (error : UsageError)
  | stopped (stop : Stop)
  | aborted
  deriving DecidableEq

/-- The exit code of a run. -/
def Ending.code : Ending → Nat
  | .success | .help => 0
  | .stopped (.failed _) => 1
  | .usage _ => 2
  | .stopped (.broken _) => 101
  | .aborted => 134

/-- What a run prints and how it ends. -/
structure Outcome where
  printed : String
  ending : Ending
  deriving DecidableEq

/-- How compiling a file ends: with the text to print, if any. -/
abbrev Report := Except Stop String

/-- A way of writing a binary as text, or why it cannot be read. -/
abbrev Disassembler := List Word → Except String String

namespace Command

/-- A failed lowering as seen from the command line, unless it would go on forever. -/
def stopOf? : Failure → Option Stop
  | .fault .circular => none
  | .fault cause => some (.broken (.fault cause))
  | .idsExhausted => some (.broken .exhausted)
  | .tooManyParameters function => some (.failed (.refused (Failure.tooManyParameters function).detail))

/-- The module in the text of a file. -/
def load (input : Path) (text : String) : Except Stop Module :=
  match Json.parse? text with
  | none => .error (.failed (.malformed input .malformed))
  | some json =>
    match Module.ofJson json with
    | .ok m => .ok m
    | .error cause => .error (.failed (.malformed input cause))

/-- What is printed about a file that was compiled. -/
def listing (disassemble : Disassembler) (input : Path) (options : CompileOptions) (words : List Word) : Report :=
  if options.disassemble then
    match disassemble words with
    | .ok text => .ok s!"; {input.text}\n{text}\n"
    | .error reason => .error (.failed (.unlisted reason))
  else .ok ""

/-- Where a file is compiled to, unless an output is named. -/
def defaultOutput (input : Path) : Path := input.withExtension "spv"

/-- Compile a file. Nothing is written unless it can be lowered, and it is listed after it is written. -/
def compileFile {η : Type} (disassemble : Disassembler) (input output : Path) (options : CompileOptions) :
    Job η Report :=
  .read input fun
    | none => .done (.error (.failed (.unreadable input)))
    | some text =>
      match load input text with
      | .error stop => .done (.error stop)
      | .ok m =>
        match m.generate ⟨options.zeroInitWorkgroup⟩ with
        | .error failure =>
          match stopOf? failure with
          | some stop => .done (.error stop)
          | none => .abort
        | .ok lowered =>
          .create output fun
            | none => .done (.error (.failed (.unwritable output)))
            | some file =>
              Job.writeAll file (.done (.error (.failed (.unwritable output))))
                (.done (listing disassemble input options lowered.words)) (lowered.words.map bytesOfWord)

/-- Write a text to a file. -/
def writeText {η : Type} (output : Path) (text : String) : Job η Report :=
  .create output fun
    | none => .done (.error (.failed (.unwritable output)))
    | some file => Job.writeAll file (.done (.error (.failed (.unwritable output)))) (.done (.ok ""))
      [text.toUTF8.toList]

/-- A sample as text. -/
def sampleText (sample : Sample) : Except Stop String :=
  match sample.module with
  | .ok m => .ok m.toJson.pretty
  | .error (.refused cause) => .error (.failed (.sampleRefused cause))
  | .error (.fault cause) => .error (.broken (.fault cause))
  | .error .outOfRange => .error (.broken .exhausted)

/-- The work of a command, as jobs that may run side by side. -/
def jobs {η : Type} (disassemble : Disassembler) : Command → List (Job η Report)
  | .compile inputs (some output) options =>
    match inputs with
    | [input] => [compileFile disassemble input output options]
    | _ => [.done (.error (.failed (.manyInputs inputs.length)))]
  | .compile inputs none options =>
    inputs.map fun input => compileFile disassemble input (defaultOutput input) options
  | .sample chosen output =>
    match sampleText chosen, output with
    | .error stop, _ => [.done (.error stop)]
    | .ok text, some output => [writeText output text]
    | .ok text, none => [.done (.ok (text ++ "\n"))]

/-- The first breakdown among the reports. -/
def breakdown? : List Report → Option Breakdown
  | [] => none
  | .error (.broken breakdown) :: _ => some breakdown
  | _ :: reports => breakdown? reports

/-- What is printed before the first error, and that error. -/
def untilError : List Report → String × Option Stop
  | [] => ("", none)
  | .error stop :: _ => ("", some stop)
  | .ok text :: reports =>
    let (printed, stop) := untilError reports
    (text ++ printed, stop)

/-- What the reports of the jobs amount to. -/
def conclude (reports : List Report) : Outcome :=
  match breakdown? reports with
  | some breakdown => ⟨"", .stopped (.broken breakdown)⟩
  | none =>
    match untilError reports with
    | (printed, some stop) => ⟨printed, .stopped stop⟩
    | (printed, none) => ⟨printed, .success⟩

/-- Run a command on a tree. -/
def run (command : Command) (disassemble : Disassembler) (tree : Tree) : Outcome × Tree :=
  match Job.runAll tree (command.jobs disassemble) with
  | (some reports, tree) => (conclude reports, tree)
  | (none, tree) => (⟨"", .aborted⟩, tree)

/-- What happens when there is no command. -/
def withoutCommand : NoCommand → Outcome
  | .help => ⟨"", .help⟩
  | .refused error => ⟨"", .usage error⟩

/-- Run the command that arguments give on a tree. -/
def runArguments (arguments : List String) (tree : Tree) : Outcome × Tree :=
  match parse arguments with
  | .ok command => command.run Binary.disassemble tree
  | .error reason => (withoutCommand reason, tree)

end Command
end Shader
