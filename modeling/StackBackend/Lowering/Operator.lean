import StackBackend.Stack.Operator
import StackBackend.Target.Instr

/-! Code for the binary operators, one template for each family.

`src` is the location of the right value and `dst` of the left one; the result takes the left
one's place. `%eax` and `%edx` are scratch, and an operation between two cells of memory goes
through one of them. -/
namespace StackBackend.Lowering

/-- `src` to `dst`, by way of `%eax` when both are in memory. -/
def move (src dst : Operand) : List Instr :=
  if src.inMemory && dst.inMemory then [.mov src Reg.eax, .mov Reg.eax dst] else [.mov src dst]

/-- `src` into `dst` by `op`, by way of `%edx` when both are in memory. -/
def combine (op : Alu) (src dst : Operand) : List Instr :=
  if src.inMemory && dst.inMemory then [.mov src Reg.edx, .alu op Reg.edx dst]
  else [.alu op src dst]

def clear (r : Reg) : Instr := .alu .xor r r

/-- Whether `o` is not zero, as 0 or 1 in the register behind `byte`. -/
def truth (o : Operand) (byte : ByteReg) : List Instr :=
  [clear byte.full, .alu .cmp (.imm 0) o, .set .notEqual byte]

def additive : Additive → Alu
  | .add => .add
  | .sub => .sub

def connective : Connective → Alu
  | .and => .and
  | .or => .or

/-- The comparison is of the left value with the right one, so a condition reads left to right. -/
def condition : Relation → Cond
  | .lt => .less
  | .le => .lessEq
  | .eq => .equal
  | .ne => .notEqual
  | .ge => .greaterEq
  | .gt => .greater

def logical (op : Alu) (src dst : Operand) : List Instr :=
  truth dst .al ++ truth src .dl ++ [.alu op Reg.edx Reg.eax, .mov Reg.eax dst]

/-- The scratch register is cleared before the comparison, because clearing it changes the
flags. -/
def comparison (c : Cond) (src dst : Operand) : List Instr :=
  clear .eax :: combine .cmp src dst ++ [.set c .al, .mov Reg.eax dst]

/-- A product can be formed in a register only. -/
def multiply (src dst : Operand) : List Instr :=
  if dst.inRegister then [.alu .mul src dst]
  else [.mov dst Reg.eax, .alu .mul src Reg.eax, .mov Reg.eax dst]

/-- `result` is the register with the quotient or the one with the remainder. -/
def divide (src dst : Operand) (result : Reg) : List Instr :=
  [.mov dst Reg.eax, .cltd, .idiv src] ++ move result dst

def operator (op : Operator) (src dst : Operand) : List Instr :=
  match op.family with
  | .arithmetic a => combine (additive a) src dst
  | .logical c => logical (connective c) src dst
  | .comparison r => comparison (condition r) src dst
  | .multiplicative .mul => multiply src dst
  | .multiplicative .quotient => divide src dst .eax
  | .multiplicative .remainder => divide src dst .edx

end StackBackend.Lowering
