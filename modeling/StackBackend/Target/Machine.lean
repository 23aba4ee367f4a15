import StackBackend.Target.Instr

/-! A strict model of the machine.

It runs instruction lists from the top. It refuses what the processor refuses (two operands in
memory, a number as destination) and what correct code never does: reading a slot that was never
written, setting a byte from flags that no comparison left, taking from an empty stack. A called
routine overwrites every register it may. A run stops at the end of the code, at `ret`, or with a
fault at the instruction that could not be executed. -/
namespace StackBackend

structure Machine where
  regs : Reg → Int32
  slots : UInt32 → Option Int32
  globals : String → Int32
  /-- The newest value first. -/
  stack : List Int32
  /-- Both sides of the last comparison, its destination first, until an instruction changes the
  flags. -/
  flags : Option (Int32 × Int32)
  input : List Int32
  output : List Int32

namespace Machine

inductive Fault where
  | noRegister (index : UInt8)
  | unwrittenSlot (index : UInt32)
  | immediateWrite
  | memoryToMemory (instr : Instr)
  | divisionByZero
  | divisionOverflow
  | noFlags
  | emptyStack
  | noArgument
  | inputExhausted
  | unknownRoutine (name : String)
  deriving DecidableEq, Repr

def Fault.message : Fault → String
  | noRegister index => Reg.outsideTable index
  | unwrittenSlot i => "read of unwritten slot " ++ toString i.toNat
  | immediateWrite => "write to immediate operand"
  | memoryToMemory i =>
    "illegal memory-to-memory instruction: " ++ (i.text.toOption.getD "")
  | divisionByZero => "division by zero"
  | divisionOverflow => "attempt to divide with overflow"
  | noFlags => "set<cc> without flags"
  | emptyStack => "pop on empty machine stack"
  | noArgument => "write without argument"
  | inputExhausted => "input exhausted"
  | unknownRoutine x => "call to unknown routine `" ++ x ++ "`"

/-- Registers, globals and the stack cleared, no slot written, and the input to be read. -/
def start (input : List Int32) : Machine where
  regs _ := 0
  slots _ := none
  globals _ := 0
  stack := []
  flags := none
  input := input
  output := []

/-! ### Cells -/

/-- The function `f` with another value at `a`. -/
def update {α β : Type} [DecidableEq α] (f : α → β) (a : α) (b : β) : α → β :=
  fun x => if x = a then b else f x

def setReg (m : Machine) (r : Reg) (v : Int32) : Machine :=
  {m with regs := update m.regs r v}

def read (m : Machine) : Operand → Except Fault Int32
  | .reg r => if r.index < 8 then .ok (m.regs r) else .error (.noRegister r.index)
  | .slot i =>
    match m.slots i with
    | some v => .ok v
    | none => .error (.unwrittenSlot i)
  | .mem x => .ok (m.globals x)
  | .imm v => .ok v

def write (m : Machine) (o : Operand) (v : Int32) : Except Fault Machine :=
  match o with
  | .reg r => if r.index < 8 then .ok (m.setReg r v) else .error (.noRegister r.index)
  | .slot i => .ok {m with slots := update m.slots i (some v)}
  | .mem x => .ok {m with globals := update m.globals x v}
  | .imm _ => .error .immediateWrite

/-! ### Instructions -/

/-- What a called routine leaves in the registers it may overwrite. -/
def clobber : Int32 := 0x0badf00d

def clobberCallerSaved (m : Machine) : Machine :=
  ((m.setReg .ecx clobber).setReg .eax clobber).setReg .edx clobber

/-- The result of an operation on the destination's value and the source's, both 32 bits wide. A
comparison has none: it leaves the destination as it was. -/
def alu : Alu → Int32 → Int32 → Int32
  | .add, a, b => a + b
  | .sub, a, b => a - b
  | .mul, a, b => a * b
  | .and, a, b => a &&& b
  | .or, a, b => a ||| b
  | .xor, a, b => a ^^^ b
  | .cmp, a, _ => a

def holds : Cond → Int32 → Int32 → Bool
  | .less, a, b => a < b
  | .lessEq, a, b => a ≤ b
  | .equal, a, b => a = b
  | .notEqual, a, b => a ≠ b
  | .greaterEq, a, b => b ≤ a
  | .greater, a, b => b < a

/-- The number whose high half is `%edx` and whose low half is `%eax`. -/
def dividend (m : Machine) : Int :=
  (m.regs .edx).toInt * 4294967296 + (m.regs .eax).toUInt32.toNat

/-- Quotient to `%eax`, remainder to `%edx`, both rounded toward zero and cut to 32 bits. -/
def divide (m : Machine) (divisor : Int32) : Except Fault Machine :=
  if divisor = 0 then .error .divisionByZero
  else if m.dividend = -9223372036854775808 ∧ divisor = -1 then .error .divisionOverflow
  else
    .ok {(m.setReg .eax (.ofInt (m.dividend.tdiv divisor.toInt))).setReg .edx
      (.ofInt (m.dividend.tmod divisor.toInt)) with flags := none}

def callRoutine (m : Machine) : String → Except Fault Machine
  | "read" =>
    match m.input with
    | [] => .error .inputExhausted
    | v :: rest => .ok {(m.clobberCallerSaved).setReg .eax v with input := rest, flags := none}
  | "write" =>
    match m.stack with
    | [] => .error .noArgument
    | v :: _ => .ok {m.clobberCallerSaved with output := m.output ++ [v], flags := none}
  | name => .error (.unknownRoutine name)

/-- One instruction that the processor accepts. -/
def execute (m : Machine) : Instr → Except Fault Machine
  | .mov s d => do m.write d (← m.read s)
  | .alu .cmp s d => do
    let a ← m.read d
    let b ← m.read s
    return {m with flags := some (a, b)}
  | .alu op s d => do
    let a ← m.read d
    let b ← m.read s
    return {← m.write d (alu op a b) with flags := none}
  | .cltd => .ok (m.setReg .edx (if m.regs .eax < 0 then -1 else 0))
  | .idiv s => do m.divide (← m.read s)
  | .set c b =>
    match m.flags with
    | none => .error .noFlags
    | some (x, y) =>
      .ok (m.setReg b.full ((m.regs b.full &&& ~~~0xff) ||| if holds c x y then 1 else 0))
  | .push s => do
    let v ← m.read s
    return {m with stack := v :: m.stack}
  | .pop d =>
    match m.stack with
    | [] => .error .emptyStack
    | v :: rest => ({m with stack := rest} : Machine).write d v
  | .call name => m.callRoutine name
  | .ret | .line _ => .ok m

def step (m : Machine) (i : Instr) : Except Fault Machine :=
  if i.isMemoryToMemory then .error (.memoryToMemory i) else m.execute i

/-! ### Runs -/

/-- Why a run stopped. -/
inductive Stop where
  | ended
  | returned
  | faulted (fault : Fault)
  deriving DecidableEq, Repr

def Stop.fault? : Stop → Option Fault
  | ended | returned => none
  | faulted f => some f

/-- A run's end: the machine as it then was, which for a fault is the machine before the
instruction that failed. -/
structure Halt where
  machine : Machine
  stop : Stop

def run (m : Machine) : List Instr → Halt
  | [] => ⟨m, .ended⟩
  | i :: rest =>
    match m.step i with
    | .error f => ⟨m, .faulted f⟩
    | .ok m' => if i = .ret then ⟨m', .returned⟩ else m'.run rest

/-- Code that runs to its end hands its machine to what follows; code that stops before stops the
whole. -/
theorem run_append (m : Machine) (a b : List Instr) :
    m.run (a ++ b) =
      match (m.run a).stop with
      | .ended => (m.run a).machine.run b
      | _ => m.run a := by
  induction a generalizing m with
  | nil => rfl
  | cons i a ih =>
    simp only [List.cons_append, run]
    cases m.step i with
    | error f => rfl
    | ok m' =>
      by_cases hr : i = .ret
      · simp [hr]
      · simp [hr, ih]

end Machine

end StackBackend
