import StackBackend.Program
import StackBackend.Stack.Listing

/-! From the text of a listing to the text of a program. -/
namespace StackBackend

/-- How a listing is compiled. -/
structure Options where
  registers : UInt8 := Reg.maxAllocatable
  comments : Bool := true
  deriving DecidableEq, Repr

structure Compiled where
  program : Program
  assembly : String
  warnings : List Diagnostic
  /-- Instructions of the program that the machine sees. -/
  instructionCount : Nat
  deriving DecidableEq, Repr

/-- Why a listing has no program. -/
inductive CompileError where
  | listing (errors : List (Located Listing.Error))
  | lowering (failure : Lowering.Failure)
  | program (fault : Fault)
  deriving DecidableEq, Repr

namespace CompileError

/-- The reports on an error, or the fault that kept the compiler from making any. -/
def diagnostics : CompileError → Except Fault (List Diagnostic)
  | listing errors => .ok (errors.map Listing.Error.diagnostic)
  | lowering failure => do return [← failure.diagnostic]
  | program fault => .error fault

end CompileError

namespace Compiled

def ofLowered (l : Lowered) : Except Fault Compiled := do
  let program := Program.ofLowered l
  let instructions ← program.instructions
  let assembly ← program.assembly
  return ⟨program, assembly, l.warnings, (instructions.filter (!·.isLine)).length⟩

end Compiled

namespace Options

def lowering (o : Options) : Lowering := .ofOptions o.registers o.comments

def lower (o : Options) (source : String) : Except CompileError Lowered := do
  let ops ← (Listing.read source).mapError .listing
  (o.lowering.lower ops).mapError .lowering

def compile (o : Options) (source : String) : Except CompileError Compiled := do
  (Compiled.ofLowered (← o.lower source)).mapError .program

/-- The messages of `compile`. -/
def log (o : Options) (source : String) : List Log.Entry :=
  match Listing.read source with
  | .ok ops => o.lowering.log ops
  | .error _ => []

end Options

end StackBackend
