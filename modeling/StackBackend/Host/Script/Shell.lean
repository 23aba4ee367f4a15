import StackBackend.Host.Script.Statement
import StackBackend.Host.World
import StackBackend.Text.Decimal
import StackBackend.Text.Utf8

/-! A script that runs: what it knows, what its words mean, and where its output goes. -/
namespace StackBackend.Script

/-- Where output goes. -/
inductive Sink where
  | nowhere
  /-- The standard error of the script. -/
  | report
  /-- The input of the next command. -/
  | pipe
  | file (place : World.Place)
  deriving DecidableEq, Repr

/-- What comes after a statement. -/
inductive Flow where
  | onward
  | leaveLoop
  | nextTurn
  | exit
  | killed (signal : Signal)
  deriving DecidableEq, Repr

structure Shell where
  world : World
  name : String
  arguments : List String
  bindings : List (List Char × String)
  input : List UInt8
  output : Sink
  error : Sink
  /-- What has been written to the standard error of the script. -/
  report : List UInt8
  piped : List UInt8
  status : Nat
  flow : Flow
  /-- Whether a command that fails ends the script. -/
  strict : Bool
  /-- Whether the status is looked at, so that a failure is no reason to end. -/
  guarded : Bool

namespace Shell

def start (world : World) (name : String) (arguments : List String) (strict : Bool) : Shell :=
  ⟨world, name, arguments, [], [], .nowhere, .report, [], [], 0, .onward, strict, false⟩

/-! ### Output -/

def emit (s : Shell) (sink : Sink) (bytes : List UInt8) : Shell :=
  match sink with
  | .nowhere => s
  | .report => {s with report := s.report ++ bytes}
  | .pipe => {s with piped := s.piped ++ bytes}
  | .file place =>
    match s.world.entry? place with
    | some (.file old x) => {s with world := s.world.put place (.file (old ++ bytes) x)}
    | _ => s

def print (s : Shell) (bytes : List UInt8) : Shell := s.emit s.output bytes

/-- A line on standard error. -/
def say (s : Shell) (text : String) : Shell := s.emit s.error (Text.Utf8.encode (text ++ "\n"))

/-- A message of the shell itself. -/
def complain (s : Shell) (line : Nat) (message : String) : Shell :=
  s.say (s.name ++ ": " ++ toString line ++ ": " ++ message)

def withStatus (s : Shell) (status : Nat) : Shell := {s with status := status}

/-- A message about a command, and the status that it ends with. -/
def refuse (s : Shell) (line : Nat) (message : String) (status : Nat) : Shell :=
  (s.complain line message).withStatus status

/-! ### Words -/

/-- What a name stands for, as one text. -/
def value (s : Shell) (name : List Char) : String :=
  match name with
  | ['@'] | ['*'] => " ".intercalate s.arguments
  | ['#'] => toString s.arguments.length
  | ['?'] => toString s.status
  | ['$'] => "1"
  | _ =>
    match Text.Decimal.readDigits name with
    | some 0 => s.name
    | some (n + 1) => s.arguments[n]?.getD ""
    | none =>
      ((s.bindings.lookup name).orElse fun _ =>
        s.world.environment.lookup (String.ofList name)).getD ""

def pieceText (s : Shell) : Piece → List Char
  | .bare c => [c]
  | .quoted cs => cs
  | .value name _ => (s.value name).toList

/-- A word as one text. -/
def text (s : Shell) (word : Word) : String := String.ofList (word.flatMap s.pieceText)

/-- The words that a word becomes: those that are complete, and the one that can go on. -/
structure Fields where
  complete : List String
  current : Option (List Char)

namespace Fields

def add (f : Fields) (cs : List Char) : Fields := {f with current := some (f.current.getD [] ++ cs)}

def close (f : Fields) : Fields :=
  ⟨f.complete ++ (f.current.map String.ofList).toList, none⟩

/-- A value outside of quotes: blanks end words. -/
def addSplit (f : Fields) : List Char → Fields
  | [] => f
  | c :: cs => if " \t\n".toList.contains c then f.close.addSplit cs else (f.add [c]).addSplit cs

/-- Several words, of which the first continues the current one. -/
def addAll (f : Fields) : List String → Fields
  | [] => f
  | v :: vs => vs.foldl (fun g w => g.close.add w.toList) (f.add v.toList)

def all (f : Fields) : List String := f.close.complete

end Fields

def addPiece (s : Shell) (f : Fields) : Piece → Fields
  | .bare c => f.add [c]
  | .quoted cs => f.add cs
  | .value ['@'] true => f.addAll s.arguments
  | .value name true => f.add (s.value name).toList
  | .value name false => f.addSplit (s.value name).toList

/-- The words that a word becomes. All arguments in quotes are as many words as there are
arguments, even none. -/
def expand (s : Shell) (word : Word) : List String :=
  if s.arguments = [] ∧ word.filter (· ≠ .quoted []) = [.value ['@'] true] then []
  else (word.foldl s.addPiece ⟨[], none⟩).all

/-! ### Patterns -/

inductive Glob where
  | any
  | one
  | char (c : Char)
  deriving DecidableEq, Repr

def glob (s : Shell) (word : Word) : List Glob :=
  word.flatMap fun p =>
    match p with
    | .bare '*' => [.any]
    | .bare '?' => [.one]
    | p => (s.pieceText p).map .char

def Glob.fits : List Glob → List Char → Bool
  | [], cs => cs.isEmpty
  | .any :: gs, cs => (List.range (cs.length + 1)).any fun n => Glob.fits gs (cs.drop n)
  | .one :: gs, _ :: cs => Glob.fits gs cs
  | .char d :: gs, c :: cs => c = d && Glob.fits gs cs
  | _ :: _, [] => false

/-! ### Redirections -/

/-- The shell's words for a file that it cannot open. -/
def openingError (creates : Bool) : HostError → String
  | .notFound | .notDirectory => if creates then "Directory nonexistent" else "No such file"
  | e => e.reason

def setSink (s : Shell) (descriptor : Nat) (sink : Sink) : Shell :=
  match descriptor with
  | 1 => {s with output := sink}
  | 2 => {s with error := sink}
  | _ => s

/-- The sink behind a path that names a device. -/
def device? (s : Shell) (path : String) : Option Sink :=
  match path with
  | "/dev/null" => some .nowhere
  | "/dev/stdout" => some s.output
  | "/dev/stderr" => some s.error
  | _ => none

/-- A file opened to be written: emptied, or kept to be continued. -/
def openFile (s : Shell) (path : String) (keep : Bool) : Except HostError (Shell × Sink) := do
  match s.device? path with
  | some sink => return (s, sink)
  | none =>
    let place ← s.world.writable ⟨path⟩
    match s.world.entry? place, keep with
    | some (.file _ _), true => return (s, .file place)
    | _, _ => return ({s with world := ← s.world.writeFile ⟨path⟩ []}, .file place)

/-- One redirection, or the shell after its complaint. -/
def redirect (line : Nat) (s : Shell) (r : Redirection) : Except Shell Shell :=
  let target := s.text r.target
  match r.opening with
  | .duplicate =>
    match target with
    | "1" => .ok (s.setSink r.descriptor s.output)
    | "2" => .ok (s.setSink r.descriptor s.error)
    | "-" => .ok (s.setSink r.descriptor .nowhere)
    | _ => .error (s.refuse line (target ++ ": Bad file descriptor") 2)
  | .read =>
    if target = "/dev/null" then .ok {s with input := []}
    else
      match s.world.readFile ⟨target⟩ with
      | .ok bytes => .ok {s with input := bytes}
      | .error e => .error (s.refuse line ("cannot open " ++ target ++ ": " ++ openingError false e) 2)
  | opening =>
    match s.openFile target (opening = .append) with
    | .ok (t, sink) => .ok (t.setSink r.descriptor sink)
    | .error e => .error (s.refuse line ("cannot create " ++ target ++ ": " ++ openingError true e) 2)

/-- The shell with its input and output as they are in `s`. -/
def restore (t s : Shell) : Shell :=
  {t with input := s.input, output := s.output, error := s.error}

/-- Does something with other input and output. -/
def redirected (s : Shell) (line : Nat) (rs : List Redirection) (run : Shell → Shell) : Shell :=
  match rs.foldlM (redirect line) s with
  | .ok t => (run t).restore s
  | .error t => t.restore s

end Shell

end StackBackend.Script
