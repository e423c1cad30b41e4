import Shader.Command

/-!
The command line: runs the jobs of a command on the files of the machine.
-/
namespace Shader.CommandLine

/-- What `help` prints. -/
def helpText : String :=
  "Lowers structured SSA shader IR modules to SPIR-V\n\n" ++
  "Commands:\n" ++
  "  compile FILES...  Compile IR modules (JSON) to SPIR-V\n" ++
  "  example NAME      Write a sample IR module as JSON\n" ++
  "  help              Print this text\n\n" ++
  "Options:\n" ++
  "  -o, --output FILE             Output file\n" ++
  "  --zero-init-workgroup-memory  Zero-initialize workgroup variables\n" ++
  "  --disassemble                 Print the disassembled module\n" ++
  "  -v, --verbose                 Print verbose output\n" ++
  "  -h, --help                    Print this text\n"

/-- The text of a file, if it can be read. -/
def readText (path : Path) : IO (Option String) := do
  try
    return some (← IO.FS.readFile path.text)
  catch _ =>
    return none

/-- A new file, if it can be created. -/
def createFile (path : Path) : IO (Option IO.FS.Handle) := do
  try
    return some (← IO.FS.Handle.mk path.text .write)
  catch _ =>
    return none

/-- Write bytes, and say whether they could be written. -/
def writeBytes (file : IO.FS.Handle) (bytes : List UInt8) : IO Bool := do
  try
    file.write ⟨bytes.toArray⟩
    return true
  catch _ =>
    return false

/-- Carry out a job on the files of the machine. -/
def perform {α : Type} : Job IO.FS.Handle α → IO (Option α)
  | .done result => return some result
  | .abort => return none
  | .read path next => do perform (next (← readText path))
  | .create path next => do perform (next (← createFile path))
  | .write file bytes next => do perform (next (← writeBytes file bytes))

/-- Carry out jobs side by side. -/
def performAll {α : Type} (jobs : List (Job IO.FS.Handle α)) : IO (Option (List α)) := do
  let tasks ← jobs.mapM fun job => IO.asTask (perform job)
  let results ← tasks.mapM fun task => IO.ofExcept task.get
  return results.mapM id

/-- Report how a run ended on the error stream. -/
def report : Ending → IO Unit
  | .success | .help => return
  | .usage error => IO.eprintln s!"error: {error.message}"
  | .stopped (.failed error) => IO.eprintln s!"Error: {error.describe}"
  | .stopped (.broken breakdown) => do
    if let some note := breakdown.note? then IO.eprintln note
    match breakdown with
    | .fault cause => IO.eprintln cause.message
    | .exhausted => IO.eprintln "out of ids"
  | .aborted => IO.eprintln "a module contains itself"

/-- Say on the error stream what is compiled, if that was asked for. -/
def announce : Command → IO Unit
  | .compile inputs _ options => do
    if options.verbose then
      inputs.forM fun input => IO.eprintln s!"Compiling {input.text}..."
  | .sample .. => return

/-- Run the command that arguments give. -/
def run (arguments : List String) : IO Outcome := do
  match Command.parse arguments with
  | .error .help =>
    IO.print helpText
    return Command.withoutCommand .help
  | .error reason => return Command.withoutCommand reason
  | .ok command =>
    announce command
    match ← performAll (command.jobs Binary.disassemble) with
    | none => return ⟨"", .aborted⟩
    | some reports =>
      let outcome := Command.conclude reports
      IO.print outcome.printed
      return outcome

end Shader.CommandLine

def main (arguments : List String) : IO UInt32 := do
  let outcome ← Shader.CommandLine.run arguments
  Shader.CommandLine.report outcome.ending
  return outcome.ending.code.toUInt32
