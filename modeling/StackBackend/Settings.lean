import StackBackend.Diagnostic
import StackBackend.Path
import StackBackend.Target.Register

/-! The settings of a build, and the rule by which they are chosen.

A setting can come from a flag, from the environment, from a settings file, or from nowhere, when
a default takes its place. What stands earlier in this list wins. -/
namespace StackBackend

/-- What a settings file says. -/
structure Settings where
  /-- The directory of the file; the paths in it are seen from there. -/
  root : Path
  registers : Option UInt8 := none
  runtime : Option Path := none
  compiler : Option String := none
  deriving DecidableEq, Repr

namespace Settings

/-- The name of a settings file. -/
def fileName : String := "stackasm.toml"

/-- The environment variable that names the directory of the runtime. -/
def runtimeVariable : String := "STACKASM_RUNTIME"

def defaultRuntime : Path := ⟨"../runtime"⟩

def defaultCompiler : String := "gcc"

/-- An empty variable counts as one that is not set. -/
def chooseRuntime (flag : Option Path) (variableValue : Option String)
    (settings : Option Settings) : Path :=
  flag <|> ((variableValue.filter (· ≠ "")).map Path.mk) <|> settings.bind (·.runtime)
    |>.getD defaultRuntime

def chooseCompiler (flag : Option String) (settings : Option Settings) : String :=
  flag <|> settings.bind (·.compiler) |>.getD defaultCompiler

/-- A count of registers that cannot be used, and where it came from. -/
structure RangeError where
  origin : String
  count : UInt8
  deriving DecidableEq, Repr

namespace RangeError

def message (e : RangeError) : String :=
  e.origin ++ ": register count " ++ toString e.count.toNat ++ " is out of range"

def diagnostic (e : RangeError) : Diagnostic :=
  (Diagnostic.plain e.message).withHelp
    ("use a value between 1 and " ++ toString Reg.maxAllocatable.toNat)

end RangeError

def checkRegisters (origin : String) (count : UInt8) : Except RangeError UInt8 :=
  if 1 ≤ count ∧ count ≤ Reg.maxAllocatable then .ok count else .error ⟨origin, count⟩

/-- The count of registers is refused, not adjusted, when it is out of range. -/
def chooseRegisters (flag : Option UInt8) (settings : Option Settings) :
    Except RangeError UInt8 :=
  match flag, settings.bind (·.registers) with
  | some n, _ => checkRegisters "--registers" n
  | none, some n => checkRegisters fileName n
  | none, none => .ok Reg.maxAllocatable

end Settings

end StackBackend
