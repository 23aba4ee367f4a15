import StackBackend.Target.Operand

/-! Instructions, and their text: operands are written source first, and every instruction takes
one line. Directives, labels and comments stand among the instructions as lines of their own. -/
namespace StackBackend

inductive Alu where
  | add
  | sub
  | mul
  | and
  | or
  | xor
  | cmp
  deriving DecidableEq, Repr

def Alu.mnemonic : Alu → String
  | .add => "addl"
  | .sub => "subl"
  | .mul => "imull"
  | .and => "andl"
  | .or => "orl"
  | .xor => "xorl"
  | .cmp => "cmpl"

/-- Signed conditions. -/
inductive Cond where
  | less
  | lessEq
  | equal
  | notEqual
  | greaterEq
  | greater
  deriving DecidableEq, Repr

def Cond.suffix : Cond → String
  | .less => "l"
  | .lessEq => "le"
  | .equal => "e"
  | .notEqual => "ne"
  | .greaterEq => "ge"
  | .greater => "g"

inductive Instr where
  | mov (src dst : Operand)
  | alu (op : Alu) (src dst : Operand)
  | idiv (src : Operand)
  | cltd
  | set (cond : Cond) (byte : ByteReg)
  | push (src : Operand)
  | pop (dst : Operand)
  | call (routine : String)
  | ret
  | line (text : String)
  deriving DecidableEq, Repr

namespace Instr

def operands : Instr → List Operand
  | mov s d | alu _ s d => [s, d]
  | idiv o | push o | pop o => [o]
  | cltd | set _ _ | call _ | ret | line _ => []

/-- More than one operand in memory: no such instruction can be encoded. -/
def isMemoryToMemory (i : Instr) : Bool :=
  1 < (i.operands.filter (·.inMemory)).length

@[simp] theorem isMemoryToMemory_mov (s d : Operand) :
    (mov s d).isMemoryToMemory = (s.inMemory && d.inMemory) := by
  cases hs : s.inMemory <;> cases hd : d.inMemory <;> simp [isMemoryToMemory, operands, hs, hd]

@[simp] theorem isMemoryToMemory_alu (op : Alu) (s d : Operand) :
    (alu op s d).isMemoryToMemory = (s.inMemory && d.inMemory) := by
  cases hs : s.inMemory <;> cases hd : d.inMemory <;> simp [isMemoryToMemory, operands, hs, hd]

/-- One operand is never too many. -/
theorem not_isMemoryToMemory {i : Instr} (h : i.operands.length ≤ 1) :
    i.isMemoryToMemory = false := by
  have hle := List.length_filter_le (·.inMemory) i.operands
  simp only [isMemoryToMemory, decide_eq_false_iff_not]
  omega

@[simp] theorem isMemoryToMemory_push (s : Operand) : (push s).isMemoryToMemory = false :=
  not_isMemoryToMemory (Nat.le_refl 1)

@[simp] theorem isMemoryToMemory_pop (d : Operand) : (pop d).isMemoryToMemory = false :=
  not_isMemoryToMemory (Nat.le_refl 1)

@[simp] theorem isMemoryToMemory_idiv (s : Operand) : (idiv s).isMemoryToMemory = false :=
  not_isMemoryToMemory (Nat.le_refl 1)

@[simp] theorem isMemoryToMemory_cltd : cltd.isMemoryToMemory = false := rfl

@[simp] theorem isMemoryToMemory_set (c : Cond) (b : ByteReg) :
    (set c b).isMemoryToMemory = false := rfl

@[simp] theorem isMemoryToMemory_call (x : String) : (call x).isMemoryToMemory = false := rfl

/-- Whether the instruction is a line that the machine does not see. -/
def isLine : Instr → Bool
  | line _ => true
  | _ => false

def text : Instr → Except Fault String
  | mov s d => do return "\tmovl\t" ++ (← s.text) ++ ",\t" ++ (← d.text)
  | alu op s d => do return "\t" ++ op.mnemonic ++ "\t" ++ (← s.text) ++ ",\t" ++ (← d.text)
  | idiv o => do return "\tidivl\t" ++ (← o.text)
  | cltd => .ok "\tcltd"
  | set c b => .ok ("\tset" ++ c.suffix ++ "\t" ++ b.name)
  | push o => do return "\tpushl\t" ++ (← o.text)
  | pop o => do return "\tpopl\t" ++ (← o.text)
  | call x => .ok ("\tcall\t" ++ x)
  | ret => .ok "\tret"
  | line t => .ok t

/-- The text of some instructions, each ended by a newline. -/
def render : List Instr → Except Fault String
  | [] => .ok ""
  | i :: rest => do return (← i.text) ++ "\n" ++ (← render rest)

end Instr

end StackBackend
