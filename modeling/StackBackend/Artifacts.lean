import StackBackend.Diagnostic
import StackBackend.Path

/-! What a build produces, and the command that links it.

The assembly lies next to the input under the input's stem, and so does the executable unless
another place is asked for. No output may take the place of the input or of the other output. -/
namespace StackBackend

/-- The files that a build writes. -/
structure Artifacts where
  assembly : Path
  executable : Path
  deriving DecidableEq, Repr

/-- A program to run, and its arguments. -/
structure Invocation where
  program : String
  arguments : List String
  /-- Whether every word is the one that was asked for. -/
  faithful : Bool
  deriving DecidableEq, Repr

namespace Invocation

/-- A word as a program can be given it: a placeholder stands for one with a NUL. -/
def word (text : String) : String := if Text.hasNul text then "<string-with-nul>" else text

def ofWords (program : String) (arguments : List String) : Invocation :=
  ⟨word program, arguments.map word, !Text.hasNul program && arguments.all (!Text.hasNul ·)⟩

end Invocation

namespace Artifacts

inductive Error where
  | noFileName (input : Path)
  | assemblyOverInput (assembly : Path)
  | executableOverInput (executable : Path)
  | executableOverAssembly (executable : Path)
  deriving DecidableEq, Repr

def Error.diagnostic : Error → Diagnostic
  | noFileName p => .plain ("'" ++ p.text ++ "' does not name a file")
  | assemblyOverInput p =>
    (Diagnostic.plain ("assembly output '" ++ p.text ++ "' would overwrite the input")).withHelp
      "rename the IR file, e.g. to use an `.ir` extension"
  | executableOverInput p =>
    .plain ("executable '" ++ p.text ++ "' would overwrite the input")
  | executableOverAssembly p =>
    .plain ("executable '" ++ p.text ++ "' would overwrite the generated assembly")

/-- The executable when none is asked for: the input without its extension, or with the extension
`out` when it has none. -/
def defaultExecutable (input : Path) (stem : List Char) : Path :=
  let plain := input.withFileName stem
  if plain.same input then input.withFileName (stem ++ ".out".toList) else plain

/-- Both outputs, unless they are the same file. -/
def distinct (assembly executable : Path) : Except Error Artifacts :=
  if executable.same assembly then .error (.executableOverAssembly executable)
  else .ok ⟨assembly, executable⟩

def forInput (input : Path) (executable : Option Path) : Except Error Artifacts :=
  match input.stem? with
  | none => .error (.noFileName input)
  | some stem =>
    let assembly := input.withFileName (stem ++ ".s".toList)
    if assembly.same input then .error (.assemblyOverInput assembly)
    else
      match executable with
      | none => distinct assembly (defaultExecutable input stem)
      | some path =>
        if path.same input then .error (.executableOverInput path) else distinct assembly path

/-- The object file of the runtime in its directory. -/
def runtimeObject (runtime : Path) : Path := runtime.join ⟨"runtime.o"⟩

def linkCommand (a : Artifacts) (compiler : String) (runtime : Path) : Invocation :=
  .ofWords compiler
    ["-m32", "-o", a.executable.text, (runtimeObject runtime).text, a.assembly.text]

end Artifacts

end StackBackend
