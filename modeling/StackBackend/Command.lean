import StackBackend.Build
import StackBackend.Command.Arguments

/-! The commands: `emit` prints or writes the assembly of a listing, `build` makes an executable
of it, and `check` reports its figures and writes nothing.

A command answers with a report of what it printed and the status that it ends with. Diagnostics
about a listing are headlined, since they are shown together with the listing's text; all others
are printed whole. -/
namespace StackBackend.Command

open Arguments (Verb Request)

/-- What a command printed, and its status. -/
structure Report where
  status : UInt32
  stdout : String
  /-- The messages on standard error, each of which a line feed follows. -/
  stderr : List String
  deriving DecidableEq, Repr

variable {m : Type → Type} [Monad m] [Host m]

namespace Report

def ok (stdout : String) (stderr : List String) : Report := ⟨0, stdout, stderr⟩

/-- A failure, with what was printed before it. -/
def fail (stderr : List String) : Report := ⟨1, "", stderr⟩

/-- The lines of standard error. -/
def errorLines (r : Report) : List String :=
  r.stderr.flatMap fun text => (Text.lines text.toList).map String.ofList

end Report

/-- A diagnostic printed by itself. -/
def whole (d : Diagnostic) : List String := [d.text]

/-- The headline of a diagnostic that is shown with the listing. -/
def headline (d : Diagnostic) : String :=
  match d.severity with
  | .error => "Error: " ++ d.message
  | .warning => "Warning: " ++ d.message

/-- What is printed about a file that was not compiled. -/
def failureLines : Build.FileError → List String
  | .unreadable report => whole report
  | .source error =>
    match error.diagnostics with
    | .ok ds => ds.map headline
    | .error fault => [fault.message]

/-- The options of a compilation, from the flags and the settings. -/
def options (r : Request) (comments : Bool) (settings : Option Settings) :
    Except Diagnostic Options := do
  let registers ← (Settings.chooseRegisters r.registers settings).mapError (·.diagnostic)
  return ⟨registers, comments⟩

/-- The compiled input, or the report on why there is none. `prepare` comes between the choice of
options and the compilation. -/
def compileWith {α : Type} (r : Request) (comments : Bool)
    (prepare : Option Settings → Except Diagnostic α) : m (Except Report (Compiled × α)) := do
  match ← Build.discoverSettings r.input with
  | .error d => return .error (.fail (whole d))
  | .ok settings =>
    match options r comments settings with
    | .error d => return .error (.fail (whole d))
    | .ok o =>
      match prepare settings with
      | .error d => return .error (.fail (whole d))
      | .ok a =>
        match ← Build.compileFile o r.input with
        | .error e => return .error (.fail (failureLines e))
        | .ok c => return .ok (c, a)

def compiledLine (p : Path) : String := "Compiled -> " ++ p.text

def emit (r : Request) : m Report := do
  match ← compileWith r r.comments fun _ => .ok () with
  | .error report => return report
  | .ok (c, ()) =>
    let warnings := c.warnings.map headline
    match r.output with
    | none => return .ok c.assembly warnings
    | some path =>
      match ← Build.writeAssembly path c.assembly with
      | .error d => return .fail (warnings ++ whole d)
      | .ok () => return .ok "" (warnings ++ [compiledLine path])

/-- What `build` decides before it compiles. -/
structure Plan where
  runtime : Path
  compiler : String
  artifacts : Artifacts
  deriving DecidableEq, Repr

def plan (r : Request) (variableValue : Option String) (settings : Option Settings) :
    Except Diagnostic Plan := do
  let artifacts ← (Artifacts.forInput r.input r.output).mapError (·.diagnostic)
  return ⟨Settings.chooseRuntime r.runtime variableValue settings,
    Settings.chooseCompiler r.compiler settings, artifacts⟩

def build (r : Request) : m Report := do
  let variableValue ← Host.getVariable Settings.runtimeVariable
  match ← compileWith r r.comments (plan r variableValue) with
  | .error report => return report
  | .ok (c, p) =>
    let warnings := c.warnings.map headline
    match ← Build.writeAssembly p.artifacts.assembly c.assembly with
    | .error d => return .fail (warnings ++ whole d)
    | .ok () =>
      match ← Build.link p.compiler p.runtime p.artifacts with
      | .error d => return .fail (warnings ++ whole d)
      | .ok () => return .ok "" (warnings ++ [compiledLine p.artifacts.executable])

/-- The figures of a program. -/
def figures (input : Path) (c : Compiled) : Except Fault (List String) := do
  let bytes ← c.program.frameBytes
  return ["OK: " ++ input.text,
    "  frame: " ++ toString c.program.frame.toNat ++ " slot(s), " ++
      Text.Decimal.writeInt bytes.toInt ++ " bytes",
    "  globals: " ++ toString c.program.globals.length,
    "  instructions: " ++ toString c.instructionCount]

def check (r : Request) : m Report := do
  match ← compileWith r false fun _ => .ok () with
  | .error report => return report
  | .ok (c, ()) =>
    let warnings := c.warnings.map headline
    match figures r.input c with
    | .error fault => return .fail (warnings ++ [fault.message])
    | .ok lines => return .ok "" (warnings ++ lines)

def run (verb : Verb) (r : Request) : m Report :=
  match verb with
  | .emit => emit r
  | .build => build r
  | .check => check r

def versionLine : String := "stackasm 0.1.0"

def helpLines : List String :=
  ["Compiles stack code to 32-bit x86 assembly.", "",
    "stackasm emit INPUT [-o FILE] [--registers N] [--no-comments]",
    "stackasm build INPUT [-o FILE] [--runtime DIR] [--cc CC] [--registers N] [--no-comments]",
    "stackasm check INPUT [--registers N]"]

/-- The report on a whole command line. -/
def runArguments (words : List String) : m (Except Arguments.UsageError Report) := do
  match Arguments.parse words with
  | .error e => return .error e
  | .ok .version => return .ok (.ok (versionLine ++ "\n") [])
  | .ok .help => return .ok (.ok (String.join (helpLines.map (· ++ "\n"))) [])
  | .ok (.run verb r) => return .ok (← run verb r)

end StackBackend.Command
