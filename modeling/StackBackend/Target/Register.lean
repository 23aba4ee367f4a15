/-! The registers, by their place in one table.

The table lists the registers that may hold pending values first. Every index fits a byte, but
only eight of them name a register: whoever names or uses another has a `Fault`. -/
namespace StackBackend

/-- Ways in which code generation can stop short. None of them arises for code that comes from a
listing of fewer than 2^29 lines. -/
inductive Fault where
  | noRegister (index : UInt8)
  | addOverflow
  | mulOverflow
  deriving DecidableEq, Repr

structure Reg where
  index : UInt8
  deriving DecidableEq, Repr

namespace Reg

def ebx : Reg := ⟨0⟩
def ecx : Reg := ⟨1⟩
def esi : Reg := ⟨2⟩
def edi : Reg := ⟨3⟩
def eax : Reg := ⟨4⟩
def edx : Reg := ⟨5⟩
def ebp : Reg := ⟨6⟩
def esp : Reg := ⟨7⟩

/-- How many registers, from the start of the table, may hold pending values. -/
def maxAllocatable : UInt8 := 4

def table : List Reg := [ebx, ecx, esi, edi, eax, edx, ebp, esp]

def names : List String := ["%ebx", "%ecx", "%esi", "%edi", "%eax", "%edx", "%ebp", "%esp"]

def name (r : Reg) : Except Fault String :=
  match names[r.index.toNat]? with
  | some n => .ok n
  | none => .error (.noRegister r.index)

/-- The registers that a called routine may overwrite. -/
def callerSaved : List Reg := [ecx, eax, edx]

def isCallerSaved (r : Reg) : Except Fault Bool :=
  if r.index < 8 then .ok (r ∈ callerSaved) else .error (.noRegister r.index)

/-- What is said of an index outside the table. -/
def outsideTable (index : UInt8) : String :=
  "index out of bounds: the len is 8 but the index is " ++ toString index.toNat

end Reg

def Fault.message : Fault → String
  | .noRegister index => Reg.outsideTable index
  | .addOverflow => "attempt to add with overflow"
  | .mulOverflow => "attempt to multiply with overflow"

/-- The scratch registers whose low byte can be set from a condition. -/
inductive ByteReg where
  | al
  | dl
  deriving DecidableEq, Repr

namespace ByteReg

def name : ByteReg → String
  | al => "%al"
  | dl => "%dl"

def full : ByteReg → Reg
  | al => .eax
  | dl => .edx

end ByteReg

end StackBackend
