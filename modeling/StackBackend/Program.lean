import StackBackend.Lowering

/-! Whole programs: the globals' cells, and one procedure around the body.

The procedure saves the registers that it uses and its caller expects back, reserves the frame,
and returns zero. -/
namespace StackBackend

structure Program where
  globals : List String
  /-- Slots in the frame. -/
  frame : UInt32
  /-- The usable registers that a procedure must preserve, in the order of their table. -/
  calleeSaved : List Reg
  body : List Instr
  deriving DecidableEq, Repr

namespace Program

def calleeSavedUpTo (registers : UInt8) : List Reg :=
  (Reg.table.take registers.toNat).filter (· ∉ Reg.callerSaved)

def ofParts (body : List Instr) (p : Placement) : Program :=
  ⟨p.globals, p.frame, calleeSavedUpTo p.registers, body⟩

def ofLowered (l : Lowered) : Program := ofParts l.body l.placement

/-- Bytes in the frame: its slots, as a signed number, times the size of a word. The product must
fit 32 bits. -/
def frameBytes (p : Program) : Except Fault Int32 :=
  let bytes := p.frame.toInt32.toInt * Operand.wordSize
  if -2147483648 ≤ bytes ∧ bytes ≤ 2147483647 then .ok (.ofInt bytes) else .error .mulOverflow

def entry : String := "main"

/-- The line that defines a global's cell. -/
def cell (name : String) : Instr := .line ("global_" ++ name ++ ":\t.int\t0")

def data (p : Program) : List Instr := .line "\t.data" :: p.globals.map cell

/-- The instruction that reserves the frame; an empty frame needs none. -/
def reserve (p : Program) : Except Fault (List Instr) :=
  if p.frame = 0 then .ok []
  else do return [.alu .sub (.imm (← p.frameBytes)) Reg.esp]

def prologue (p : Program) : Except Fault (List Instr) := do
  return [.line (entry ++ ":"), .push Reg.ebp, .mov Reg.esp Reg.ebp] ++ (← p.reserve) ++
    p.calleeSaved.map (.push ·)

def epilogue (p : Program) : List Instr :=
  p.calleeSaved.reverse.map (.pop ·) ++
    [.alu .xor Reg.eax Reg.eax, .mov Reg.ebp Reg.esp, .pop Reg.ebp, .ret]

def instructions (p : Program) : Except Fault (List Instr) := do
  return .line ("\t.globl\t" ++ entry) :: p.data ++ [.line "\t.text"] ++ (← p.prologue) ++ p.body ++
    p.epilogue

/-- The program as assembly text. -/
def assembly (p : Program) : Except Fault String := do
  Instr.render (← p.instructions)

end Program

end StackBackend
