import StackBackend.Path
import StackBackend.Text.Decimal

/-! The arguments of the command line.

The first argument names the command. Options and the one input follow in any order. An option
with a value takes it from the next argument or after `=`, and the short option also without
anything between; no option may be given twice. An argument that starts with a dash is an option,
except for a dash alone; after `--` every argument is an input.

Arguments are judged one after the other, each with its value, and the first that is wrong ends
the reading; so does a request for help, whatever follows it. That the input is missing shows only
at the end. -/
namespace StackBackend.Arguments

inductive Verb where
  | emit
  | build
  | check
  deriving DecidableEq, Repr

inductive Key where
  | output
  | runtime
  | compiler
  | registers
  | noComments
  deriving DecidableEq, Repr

/-- A word of the command line that cannot be understood. -/
inductive UsageError where
  | noCommand
  | unknownCommand (word : String)
  | unknownOption (word : String)
  | repeated (key : Key)
  | missingValue (key : Key)
  | unexpectedValue (key : Key)
  | invalidValue (key : Key) (value : String)
  | missingInput
  | emptyInput
  | extraInput (word : String)
  deriving DecidableEq, Repr

def Key.long : Key → String
  | output => "output"
  | runtime => "runtime"
  | compiler => "cc"
  | registers => "registers"
  | noComments => "no-comments"

def UsageError.message : UsageError → String
  | noCommand => "no command given"
  | unknownCommand w => "unknown command '" ++ w ++ "'"
  | unknownOption w => "unexpected argument '" ++ w ++ "'"
  | repeated k => "--" ++ k.long ++ " is given more than once"
  | missingValue k => "--" ++ k.long ++ " needs a value"
  | unexpectedValue k => "--" ++ k.long ++ " takes no value"
  | invalidValue k v => "invalid value '" ++ v ++ "' for --" ++ k.long
  | missingInput => "no input given"
  | emptyInput => "the input is empty"
  | extraInput w => "unexpected argument '" ++ w ++ "'"

/-- What a command is asked to do. -/
structure Request where
  input : Path
  output : Option Path := none
  runtime : Option Path := none
  compiler : Option String := none
  registers : Option UInt8 := none
  comments : Bool := true
  deriving DecidableEq, Repr

inductive Call where
  | version
  | help
  | run (verb : Verb) (request : Request)
  deriving DecidableEq, Repr

/-- Why the words after a command are not read to their end. -/
inductive Stop where
  | usage (error : UsageError)
  | help
  deriving DecidableEq, Repr

/-! ### Options -/

def Verb.ofWord? : String → Option Verb
  | "emit" => some .emit
  | "build" => some .build
  | "check" => some .check
  | _ => none

/-- The options that a command knows. -/
def Verb.keys : Verb → List Key
  | emit => [.output, .registers, .noComments]
  | build => [.output, .runtime, .compiler, .registers, .noComments]
  | check => [.registers]

def Verb.key? (verb : Verb) (name : List Char) : Option Key :=
  verb.keys.find? (·.long.toList = name)

def Key.takesValue : Key → Bool
  | noComments => false
  | output | runtime | compiler | registers => true

/-- An argument by its form. -/
inductive Form where
  | rest
  | long (name : List Char) (value : Option (List Char))
  | short (chars : List Char)
  | plain
  deriving DecidableEq, Repr

def Form.ofWord (word : String) : Form :=
  match word.toList with
  | ['-', '-'] => .rest
  | '-' :: '-' :: cs =>
    match Text.splitOnce '=' cs with
    | some (name, value) => .long name (some value)
    | none => .long cs none
  | '-' :: c :: cs => .short (c :: cs)
  | _ => .plain

/-! ### Drafts -/

/-- What has been read of a request. -/
structure Draft where
  input : Option Path := none
  output : Option Path := none
  runtime : Option Path := none
  compiler : Option String := none
  registers : Option UInt8 := none
  comments : Bool := true
  deriving DecidableEq, Repr

namespace Draft

/-- Whether an option has been given. -/
def has (d : Draft) : Key → Bool
  | .output => d.output.isSome
  | .runtime => d.runtime.isSome
  | .compiler => d.compiler.isSome
  | .registers => d.registers.isSome
  | .noComments => !d.comments

/-- A path given as the value of an option, which may not be empty. -/
def readPath (key : Key) (word : String) : Except UsageError Path :=
  if word = "" then .error (.invalidValue key word) else .ok ⟨word⟩

/-- A count of registers: an integer, in decimal and with an optional sign, from 0 to 255. -/
def readCount (word : String) : Except UsageError UInt8 :=
  match Text.Decimal.readInt word.toList with
  | some (.ofNat n) => if n < 256 then .ok (.ofNat n) else .error (.invalidValue .registers word)
  | _ => .error (.invalidValue .registers word)

def set (d : Draft) (key : Key) (value : String) : Except UsageError Draft :=
  if d.has key then .error (.repeated key)
  else
    match key with
    | .output => (readPath key value).map fun p => {d with output := some p}
    | .runtime => (readPath key value).map fun p => {d with runtime := some p}
    | .compiler => .ok {d with compiler := some value}
    | .registers => (readCount value).map fun n => {d with registers := some n}
    | .noComments => .ok {d with comments := false}

def addInput (d : Draft) (word : String) : Except UsageError Draft :=
  if d.input.isSome then .error (.extraInput word)
  else if word = "" then .error .emptyInput
  else .ok {d with input := some ⟨word⟩}

/-- A long option and the value after its equals sign, if it has one; `word` is the whole
argument. The key is given back when its value is still to come. -/
def addLong (d : Draft) (verb : Verb) (word : String) (name : List Char)
    (value : Option (List Char)) : Except UsageError (Draft × Option Key) :=
  match verb.key? name, value with
  | none, _ => .error (.unknownOption word)
  | some key, none => if key.takesValue then .ok (d, some key) else (d.set key "").map (·, none)
  | some key, some value =>
    if key.takesValue then (d.set key (String.ofList value)).map (·, none)
    else .error (.unexpectedValue key)

/-- The value attached to the short option, when something is: an equals sign before it is not
part of it. -/
def attached : List Char → Option String
  | [] => none
  | '=' :: cs => some (String.ofList cs)
  | cs => some (String.ofList cs)

/-- A short option; `word` is the whole argument. -/
def addShort (d : Draft) (verb : Verb) (word : String) (chars : List Char) :
    Except UsageError (Draft × Option Key) :=
  match chars with
  | 'o' :: cs =>
    if Key.output ∈ verb.keys then
      match attached cs with
      | some value => (d.set .output value).map (·, none)
      | none => .ok (d, some .output)
    else .error (.unknownOption word)
  | _ => .error (.unknownOption word)

def request (d : Draft) : Except UsageError Request :=
  match d.input with
  | none => .error .missingInput
  | some input => .ok ⟨input, d.output, d.runtime, d.compiler, d.registers, d.comments⟩

end Draft

/-! ### Reading -/

/-- The words after the command. `awaiting` is the option whose value comes next. -/
def read (verb : Verb) (d : Draft) (awaiting : Option Key) : List String → Except Stop Draft
  | [] =>
    match awaiting with
    | some key => .error (.usage (.missingValue key))
    | none => .ok d
  | word :: rest =>
    match Form.ofWord word, awaiting with
    | .plain, some key => do
      let e ← (d.set key word).mapError .usage
      read verb e none rest
    | .plain, none => do
      let e ← (d.addInput word).mapError .usage
      read verb e none rest
    | _, some key => .error (.usage (.missingValue key))
    | .rest, none => (rest.foldlM Draft.addInput d).mapError .usage
    | .long name value, none => do
      if name = "help".toList ∧ value = none then throw .help
      let (e, key) ← (d.addLong verb word name value).mapError .usage
      read verb e key rest
    | .short chars, none => do
      if chars.head? = some 'h' then throw .help
      let (e, key) ← (d.addShort verb word chars).mapError .usage
      read verb e key rest

/-- The words after `help`: the command that help is asked for, if any. -/
def readHelp : List String → Except UsageError Call
  | [] => .ok .help
  | word :: rest =>
    if (Verb.ofWord? word).isSome ∨ word = "help" then
      match rest with
      | [] => .ok .help
      | extra :: _ => .error (.unknownCommand extra)
    else .error (.unknownCommand word)

/-- The call that a command line makes. -/
def parse : List String → Except UsageError Call
  | [] => .error .noCommand
  | word :: rest =>
    match Form.ofWord word with
    | .plain =>
      match Verb.ofWord? word with
      | some verb =>
        match read verb {} none rest with
        | .ok draft => draft.request.map (.run verb)
        | .error .help => .ok .help
        | .error (.usage e) => .error e
      | none => if word = "help" then readHelp rest else .error (.unknownCommand word)
    | .long name none =>
      if name = "version".toList then .ok .version
      else if name = "help".toList then .ok .help
      else .error (.unknownOption word)
    | .short ('V' :: _) => .ok .version
    | .short ('h' :: _) => .ok .help
    | _ => .error (.unknownOption word)

end StackBackend.Arguments
