import StackBackend.Compile
import StackBackend.Host
import StackBackend.Settings.File
import StackBackend.Text.Blank
import StackBackend.Text.Utf8

/-! The steps of a build on a host: find and read the settings, compile a file, write the
assembly, link it. -/
namespace StackBackend.Build

variable {m : Type → Type} [Monad m] [Host m]

def noteAll (entries : List Log.Entry) : m Unit := entries.forM Host.note

/-- A file that could not be read or written, or a program that could not be started. -/
def hostDiagnostic (what : String) (name : String) (e : HostError) : Diagnostic :=
  .plain (what ++ " '" ++ name ++ "': " ++ e.message)

/-- Whether a path names something. -/
def isThere (p : Path) : m Bool := if Text.hasNul p.text then return false else Host.isThere p

/-- The text of a file, which must be UTF-8. -/
def readText (p : Path) : m (Except HostError String) := do
  if Text.hasNul p.text then return .error .nulInName
  match ← Host.readFile p with
  | .error e => return .error e
  | .ok bytes => return ((Text.Utf8.decode? bytes).map .ok).getD (.error .notText)

def writeText (p : Path) (text : String) : m (Except HostError Unit) :=
  if Text.hasNul p.text then return .error .nulInName
  else Host.writeFile p (Text.Utf8.encode text)

/-- A program run to its end. -/
def invoke (command : Invocation) : m (Except HostError Completion) :=
  if command.faithful then Host.invoke command else return .error .nulInWord

/-! ### Settings -/

/-- The first of some paths that exists. -/
def firstThere : List Path → m (Option Path)
  | [] => return none
  | p :: rest => do if ← isThere p then return some p else firstThere rest

/-- The settings file of a directory: its own, or that of its nearest ancestor with one. Only the
path itself is climbed, never the directories that it is seen from. -/
def findSettings (dir : Path) : m (Option Path) :=
  firstThere (dir.ancestors.map (·.join ⟨Settings.fileName⟩))

def loadSettings (file : Path) : m (Except Diagnostic Settings) := do
  match ← readText file with
  | .error e => return .error (hostDiagnostic "cannot read" file.text e)
  | .ok content =>
    noteAll (Settings.log content)
    return (Settings.read (file.parent?.getD ⟨"."⟩) content).mapError fun e => .plain e.message

/-- The directory in which an input lies. -/
def directoryOf (input : Path) : Path :=
  match input.parent? with
  | some dir => if dir.text = "" then ⟨"."⟩ else dir
  | none => ⟨"."⟩

/-- The settings for an input, when there is a file with some. -/
def discoverSettings (input : Path) : m (Except Diagnostic (Option Settings)) := do
  match ← findSettings (directoryOf input) with
  | none => return .ok none
  | some file => return (← loadSettings file).map some

/-! ### Compiling -/

/-- Why a file was not compiled. -/
inductive FileError where
  | unreadable (report : Diagnostic)
  | source (error : CompileError)
  deriving DecidableEq, Repr

def FileError.diagnostics : FileError → Except Fault (List Diagnostic)
  | unreadable report => .ok [report]
  | source error => error.diagnostics

def compileFile (o : Options) (p : Path) : m (Except FileError Compiled) := do
  match ← readText p with
  | .error e => return .error (.unreadable (hostDiagnostic "cannot read" p.text e))
  | .ok source =>
    noteAll (o.log source)
    return (o.compile source).mapError .source

/-! ### Writing and linking -/

def writeAssembly (p : Path) (text : String) : m (Except Diagnostic Unit) := do
  match ← writeText p text with
  | .error e => return .error (hostDiagnostic "cannot write" p.text e)
  | .ok () =>
    Host.note ⟨.info, "wrote " ++ p.text ++ " (" ++ toString (Text.byteLength text.toList) ++
      " bytes)"⟩
    return .ok ()

def missingRuntime (object : Path) : Diagnostic :=
  (Diagnostic.plain ("runtime object '" ++ object.text ++ "' not found")).withHelp
    ("pass --runtime, set " ++ Settings.runtimeVariable ++ " or add `runtime` under [build] in " ++
      Settings.fileName)

/-- The report on a compiler that failed: what it wrote, without the blanks around it, is a
note. -/
def linkFailure (compiler : String) (c : Completion) : Diagnostic :=
  let report : Diagnostic :=
    .plain ("'" ++ compiler ++ "' failed (" ++ c.ending.text ++ ")")
  match Text.trim (Text.Utf8.decodeLossy c.stderr).toList with
  | [] => report
  | text => report.withNote (String.ofList text)

def link (compiler : String) (runtime : Path) (a : Artifacts) : m (Except Diagnostic Unit) := do
  let object := Artifacts.runtimeObject runtime
  if !(← isThere object) then return .error (missingRuntime object)
  match ← invoke (a.linkCommand compiler runtime) with
  | .error e => return .error (hostDiagnostic "failed to run" compiler e)
  | .ok done =>
    return if done.ending = .exited 0 then .ok () else .error (linkFailure compiler done)

end StackBackend.Build
