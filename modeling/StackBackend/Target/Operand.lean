import StackBackend.Target.Register
import StackBackend.Text.Decimal

/-! Operands: a register, a slot of the frame, a named cell of memory or a number. -/
namespace StackBackend

inductive Operand where
  | reg (r : Reg)
  | slot (index : UInt32)
  | mem (name : String)
  | imm (value : Int32)
  deriving DecidableEq, Repr

namespace Operand

instance : Coe Reg Operand := ⟨.reg⟩

def inMemory : Operand → Bool
  | slot _ | mem _ => true
  | reg _ | imm _ => false

@[simp] theorem inMemory_reg (r : Reg) : (reg r).inMemory = false := rfl

@[simp] theorem inMemory_imm (v : Int32) : (imm v).inMemory = false := rfl

def inRegister : Operand → Bool
  | reg _ => true
  | slot _ | mem _ | imm _ => false

def reg? : Operand → Option Reg
  | reg r => some r
  | slot _ | mem _ | imm _ => none

/-- Bytes in a word, which is the size of a slot and of a global. -/
def wordSize : Nat := 4

/-- The cell of a global. -/
def ofGlobal (name : String) : Operand := mem ("global_" ++ name)

def text : Operand → Except Fault String
  | reg r => r.name
  | slot i => .ok ("-" ++ Text.Decimal.writeNat ((i.toNat + 1) * wordSize) ++ "(%ebp)")
  | mem x => .ok x
  | imm v => .ok ("$" ++ Text.Decimal.writeInt v.toInt)

end Operand

end StackBackend
