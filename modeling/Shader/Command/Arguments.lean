import Shader.Files.Path
import Shader.Sample

/-!
Commands and the arguments they are given by.

The first argument names the command. Options may stand before, between and after the other arguments,
each at most once. An option has a long name and may have a letter; letters can be joined. The value of an
option follows it, or stands in the same argument: after an equals sign, or right behind the letter. After
`--` no argument is an option. Arguments are read from left to right, and the first one that is wrong or
asks for help decides.
-/
namespace Shader

/-- How files are compiled. -/
structure CompileOptions where
  zeroInitWorkgroup : Bool := false
  disassemble : Bool := false
  verbose : Bool := false
  deriving DecidableEq

/-- What the program can be asked to do. -/
inductive Command where
  | compile (inputs : List Path) (output : Option Path) (options : CompileOptions)
  | sample (sample : Sample) (output : Option Path)
  deriving DecidableEq

/-- What is wrong with the arguments. -/
inductive UsageError where
  | noCommand
  | unknownCommand (name : String)
  | unknownOption (argument : String)
  | unexpectedArgument (argument : String)
  | missingValue (option : String)
  | unneededValue (option : String)
  | repeatedOption (option : String)
  | emptyPath
  | unknownSample (name : String)
  | missingArgument (name : String)
  deriving DecidableEq

def UsageError.message : UsageError → String
  | .noCommand => "a command is required: compile, example or help"
  | .unknownCommand name => s!"unknown command '{name}'"
  | .unknownOption argument => s!"unknown option '{argument}'"
  | .unexpectedArgument argument => s!"unexpected argument '{argument}'"
  | .missingValue option => s!"option '{option}' needs a value"
  | .unneededValue option => s!"option '{option}' takes no value"
  | .repeatedOption option => s!"option '{option}' is given twice"
  | .emptyPath => "a path must not be empty"
  | .unknownSample name => s!"unknown sample '{name}'"
  | .missingArgument name => s!"{name} is required"

/-- Why there is no command to run. -/
inductive NoCommand where
  | help
  | refused (error : UsageError)
  deriving DecidableEq

namespace Arguments

/-- An argument by its form. -/
inductive Form where
  | escape
  | long (name : String) (value : Option String)
  | letters (letters : List Char)
  | plain (text : String)
  deriving DecidableEq

/-- The form of an argument. A dash alone is no option. -/
def form (argument : String) : Form :=
  match argument.toList with
  | ['-', '-'] => .escape
  | '-' :: '-' :: rest =>
    let name := String.ofList (rest.takeWhile (· ≠ '='))
    match rest.dropWhile (· ≠ '=') with
    | [] => .long name none
    | _ :: value => .long name (some (String.ofList value))
  | '-' :: letter :: letters => .letters (letter :: letters)
  | _ => .plain argument

/-- The options of the commands. -/
inductive Key where
  | output
  | zeroInitWorkgroup
  | disassemble
  | verbose
  | help
  deriving DecidableEq

namespace Key

def long : Key → String
  | .output => "output"
  | .zeroInitWorkgroup => "zero-init-workgroup-memory"
  | .disassemble => "disassemble"
  | .verbose => "verbose"
  | .help => "help"

def letter? : Key → Option Char
  | .output => some 'o'
  | .verbose => some 'v'
  | .help => some 'h'
  | _ => none

def takesValue (key : Key) : Bool := key = .output

end Key

/-- Commands that have arguments of their own. -/
inductive Verb where
  | compile
  | sample
  deriving DecidableEq

/-- The options a command knows. -/
def Verb.keys : Verb → List Key
  | .compile => [.output, .zeroInitWorkgroup, .disassemble, .verbose, .help]
  | .sample => [.output, .help]

/-- The arguments read so far. -/
structure Given where
  operands : List String := []
  output : Option Path := none
  flags : List Key := []
  deriving DecidableEq

/-- A path that an argument gives. -/
def pathOf (text : String) : Except NoCommand Path :=
  if text = "" then .error (.refused .emptyPath) else .ok ⟨text⟩

namespace Given

/-- Take the value of the output option. -/
def withOutput (given : Given) (value : String) : Except NoCommand Given := do
  if given.output.isSome then
    .error (.refused (.repeatedOption Key.output.long))
  else
    return { given with output := some (← pathOf value) }

/-- Take an option without a value. -/
def withFlag (given : Given) (key : Key) : Except NoCommand Given :=
  if key = .help then .error .help
  else if given.flags.contains key then .error (.refused (.repeatedOption key.long))
  else .ok { given with flags := given.flags ++ [key] }

/-- Take an argument that is no option: a file to compile, or the one name of a sample. -/
def withOperand (given : Given) (verb : Verb) (text : String) : Except NoCommand Given :=
  match verb with
  | .compile => do
    let _ ← pathOf text
    return { given with operands := given.operands ++ [text] }
  | .sample =>
    if given.operands ≠ [] then .error (.refused (.unexpectedArgument text))
    else if (Spelled.read? text : Option Sample).isNone then .error (.refused (.unknownSample text))
    else .ok { given with operands := [text] }

/-- Take joined letters. The letter of an option with a value ends them: what follows is the value, with
or without an equals sign. If nothing follows, the value is the next argument and the result is `true`. -/
def withLetters (given : Given) (verb : Verb) : List Char → Except NoCommand (Given × Bool)
  | [] => .ok (given, false)
  | letter :: rest =>
    match verb.keys.find? (·.letter? = some letter) with
    | none => .error (.refused (.unknownOption (String.ofList ['-', letter])))
    | some key =>
      if key.takesValue then
        match rest with
        | [] => .ok (given, true)
        | '=' :: value => do return (← given.withOutput (String.ofList value), false)
        | value => do return (← given.withOutput (String.ofList value), false)
      else do
        (← given.withFlag key).withLetters verb rest

/-- Take a long option. The result is `true` if its value is the next argument. -/
def withLong (given : Given) (verb : Verb) (name : String) (value : Option String) :
    Except NoCommand (Given × Bool) :=
  match verb.keys.find? (·.long = name) with
  | none => .error (.refused (.unknownOption ("--" ++ name)))
  | some key =>
    match key.takesValue, value with
    | true, some value => do return (← given.withOutput value, false)
    | true, none => .ok (given, true)
    | false, some _ => .error (.refused (.unneededValue ("--" ++ name)))
    | false, none => do return (← given.withFlag key, false)

/-- Read the arguments of a command. `pending` tells that the next one is the value of the output option. -/
def read (given : Given) (verb : Verb) (pending : Bool) : List String → Except NoCommand Given
  | [] => if pending then .error (.refused (.missingValue Key.output.long)) else .ok given
  | argument :: rest =>
    match form argument, pending with
    | .plain value, true => do (← given.withOutput value).read verb false rest
    | _, true => .error (.refused (.missingValue Key.output.long))
    | .plain text, false => do (← given.withOperand verb text).read verb false rest
    | .escape, false => rest.foldlM (fun given text => given.withOperand verb text) given
    | .long name value, false => do
      let (given, pending) ← given.withLong verb name value
      given.read verb pending rest
    | .letters letters, false => do
      let (given, pending) ← given.withLetters verb letters
      given.read verb pending rest

/-- The command the arguments give. -/
def command (given : Given) : Verb → Except NoCommand Command
  | .compile =>
    if given.operands = [] then .error (.refused (.missingArgument "FILES"))
    else .ok (.compile (given.operands.map Path.mk) given.output
      { zeroInitWorkgroup := given.flags.contains .zeroInitWorkgroup
        disassemble := given.flags.contains .disassemble
        verbose := given.flags.contains .verbose })
  | .sample =>
    match given.operands.head?.bind Spelled.read? with
    | none => .error (.refused (.missingArgument "NAME"))
    | some sample => .ok (.sample sample given.output)

end Given

/-- A command that has arguments of its own, by its name. -/
def verb? : String → Option Verb
  | "compile" => some .compile
  | "example" => some .sample
  | _ => none

/-- What the arguments of `help` ask for: everything, or one command. -/
def helpOn : List String → NoCommand
  | [] => .help
  | [name] =>
    if name = "help" ∨ (verb? name).isSome then .help else .refused (.unknownCommand name)
  | _ :: name :: _ => .refused (.unknownCommand name)

end Arguments

/-- The command that arguments give. -/
def Command.parse : List String → Except NoCommand Command
  | [] => .error (.refused .noCommand)
  | name :: rest =>
    match Arguments.verb? name with
    | some verb => do ((← ({} : Arguments.Given).read verb false rest).command verb)
    | none =>
      if name = "help" then .error (Arguments.helpOn rest)
      else match Arguments.form name with
        | .long "help" none | .letters ('h' :: _) => .error .help
        | .plain _ => .error (.refused (.unknownCommand name))
        | _ => .error (.refused (.unknownOption name))

end Shader
