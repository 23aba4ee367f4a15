import StackBackend.Artifacts
import StackBackend.Log

/-! What the compiler asks of the system it runs on.

Files, environment variables and other programs are reached through the class `Host` only, so the
same steps run on a real system and on the simulated one of `Host.World`. -/
namespace StackBackend

/-- Why the system refuses a request. -/
inductive HostError where
  | notFound
  | notExecutable
  | denied
  | notDirectory
  | isDirectory
  | nameTooLong
  | tooManyLevels
  | notText
  /-- A path with a NUL in it, which names nothing on any system. -/
  | nulInName
  /-- A program or an argument with a NUL in it, which no program can be given. -/
  | nulInWord
  | other (message : String)
  deriving DecidableEq, Repr

namespace HostError

/-- The number that the system has for an error. -/
def code? : HostError → Option Nat
  | notFound => some 2
  | notExecutable => some 8
  | denied => some 13
  | notDirectory => some 20
  | isDirectory => some 21
  | nameTooLong => some 36
  | tooManyLevels => some 40
  | notText | nulInName | nulInWord | other _ => none

def reason : HostError → String
  | notFound => "No such file or directory"
  | notExecutable => "Exec format error"
  | denied => "Permission denied"
  | notDirectory => "Not a directory"
  | isDirectory => "Is a directory"
  | nameTooLong => "File name too long"
  | tooManyLevels => "Too many levels of symbolic links"
  | notText => "stream did not contain valid UTF-8"
  | nulInName => "file name contained an unexpected NUL byte"
  | nulInWord => "nul byte found in provided data"
  | other message => message

def message (e : HostError) : String :=
  match e.code? with
  | some n => e.reason ++ " (os error " ++ toString n ++ ")"
  | none => e.reason

end HostError

/-- What can end a program from outside. -/
inductive Signal where
  | hangup
  | interrupt
  | kill
  | user1
  | user2
  | pipe
  | alarm
  | terminate
  deriving DecidableEq, Repr

def Signal.number : Signal → Nat
  | hangup => 1
  | interrupt => 2
  | kill => 9
  | user1 => 10
  | user2 => 12
  | pipe => 13
  | alarm => 14
  | terminate => 15

def Signal.name : Signal → String
  | hangup => "HUP"
  | interrupt => "INT"
  | kill => "KILL"
  | user1 => "USR1"
  | user2 => "USR2"
  | pipe => "PIPE"
  | alarm => "ALRM"
  | terminate => "TERM"

/-- How a program ended. -/
inductive Ending where
  | exited (status : Nat)
  | killed (signal : Signal)
  deriving DecidableEq, Repr

def Ending.text : Ending → String
  | exited status => "exit status: " ++ toString status
  | killed signal => "signal: " ++ toString signal.number ++ " (SIG" ++ signal.name ++ ")"

/-- How a program ended, and what it wrote to its standard error. -/
structure Completion where
  ending : Ending
  stderr : List UInt8
  deriving DecidableEq, Repr

class Host (m : Type → Type) where
  isThere : Path → m Bool
  readFile : Path → m (Except HostError (List UInt8))
  writeFile : Path → List UInt8 → m (Except HostError Unit)
  getVariable : String → m (Option String)
  invoke : Invocation → m (Except HostError Completion)
  /-- Keeps a message for whoever follows the work. -/
  note : Log.Entry → m Unit

end StackBackend
