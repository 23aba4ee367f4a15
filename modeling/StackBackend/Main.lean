import StackBackend.Command

/-! The command line on a real system. -/
namespace StackBackend

namespace HostError

/-- The error with a system number, which some operations report negated. -/
def ofCode (code : UInt32) (text : String) : HostError :=
  match min code.toNat (-code).toNat with
  | 2 => .notFound
  | 8 => .notExecutable
  | 13 => .denied
  | 20 => .notDirectory
  | 21 => .isDirectory
  | 36 => .nameTooLong
  | 40 => .tooManyLevels
  | _ => .other text

def ofError : IO.Error → HostError
  | .noFileOrDirectory _ code text => ofCode code text
  | .permissionDenied _ code text => ofCode code text
  | .inappropriateType _ code text => ofCode code text
  | .invalidArgument _ code text => ofCode code text
  | .noSuchThing _ code text => ofCode code text
  | e => .other (toString e)

end HostError

/-- The system that the program runs on. It starts no other program, so that linking reports a
compiler that cannot be run. -/
instance : Host IO where
  isThere p := do
    try
      let _ ← IO.FS.realPath p.text
      return true
    catch _ => return false
  readFile p := do
    try
      let bytes ← IO.FS.readBinFile p.text
      return .ok bytes.toList
    catch e => return .error (.ofError e)
  writeFile p bytes := do
    try
      IO.FS.writeBinFile p.text (ByteArray.mk bytes.toArray)
      return .ok ()
    catch e => return .error (.ofError e)
  getVariable name := IO.getEnv name
  invoke _ := return .error (.other "Operation not supported (os error 95)")
  note _ := return ()

end StackBackend

open StackBackend in
def main (words : List String) : IO UInt32 := do
  match ← Command.runArguments words with
  | .error e =>
    IO.eprintln ("error: " ++ e.message)
    return 2
  | .ok report =>
    IO.print report.stdout
    for message in report.stderr do
      IO.eprintln message
    return report.status
