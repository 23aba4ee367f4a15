import StackBackend.Lowering.Op

/-! Code as it is written.

Code generation writes one instruction after the other behind the code so far, and what was written
before a failure stays. An operation therefore looks for everything that it can lack before it
writes its first instruction. What is written for a template or an operation is the code that
`Lowering.move` and its like or `Op.lower` give as a value. -/
namespace StackBackend

/-- Writing behind the code so far, with a result or a failure of type `ε` at the end. -/
abbrev Emission (ε : Type) := EStateM ε (Array Instr)

namespace Emission

open Lowering (additive connective condition endangered)

variable {ε : Type}

def put (i : Instr) : Emission ε Unit := modify (·.push i)

/-! ### Templates -/

def move (src dst : Operand) : Emission ε Unit := do
  if src.inMemory && dst.inMemory then
    put (.mov src Reg.eax)
    put (.mov Reg.eax dst)
  else
    put (.mov src dst)

def combine (op : Alu) (src dst : Operand) : Emission ε Unit := do
  if src.inMemory && dst.inMemory then
    put (.mov src Reg.edx)
    put (.alu op Reg.edx dst)
  else
    put (.alu op src dst)

def clear (r : Reg) : Emission ε Unit := put (.alu .xor r r)

def truth (o : Operand) (byte : ByteReg) : Emission ε Unit := do
  clear byte.full
  put (.alu .cmp (.imm 0) o)
  put (.set .notEqual byte)

def logical (op : Alu) (src dst : Operand) : Emission ε Unit := do
  truth dst .al
  truth src .dl
  put (.alu op Reg.edx Reg.eax)
  put (.mov Reg.eax dst)

def comparison (c : Cond) (src dst : Operand) : Emission ε Unit := do
  clear .eax
  combine .cmp src dst
  put (.set c .al)
  put (.mov Reg.eax dst)

def multiply (src dst : Operand) : Emission ε Unit := do
  if dst.inRegister then
    put (.alu .mul src dst)
  else
    put (.mov dst Reg.eax)
    put (.alu .mul src Reg.eax)
    put (.mov Reg.eax dst)

def divide (src dst : Operand) (result : Reg) : Emission ε Unit := do
  put (.mov dst Reg.eax)
  put .cltd
  put (.idiv src)
  move result dst

def operator (op : Operator) (src dst : Operand) : Emission ε Unit :=
  match op.family with
  | .arithmetic a => combine (additive a) src dst
  | .logical c => logical (connective c) src dst
  | .comparison r => comparison (condition r) src dst
  | .multiplicative .mul => multiply src dst
  | .multiplicative .quotient => divide src dst .eax
  | .multiplicative .remainder => divide src dst .edx

/-- The registers to save are known before the first of them is pushed. -/
def call (routine : String) (argument : Option Operand) (p : Placement) :
    Emission Refusal Unit := do
  let saved ← ofExcept ((endangered p.live).mapError .fault)
  saved.forM fun r => put (.push r)
  argument.toList.forM fun o => put (.push o)
  put (.call routine)
  argument.toList.forM fun _ => put (.pop Reg.eax)
  saved.reverse.forM fun r => put (.pop r)

end Emission

open Emission (put move operator call) in
/-- Writes the code of an operation at a placement, and gives the placement after it. -/
def Op.emit (op : Op) (p : Placement) : Emission Refusal Placement :=
  match op with
  | read => do
    let (dst, q) ← ofExcept (p.allocate.mapError .fault)
    call "read" none q
    move Reg.eax dst
    return q.push dst
  | write => do
    let (value, q) ← ofExcept (p.pop.mapError .underflow)
    call "write" (some value) q
    return q
  | const v => do
    let (dst, q) ← ofExcept (p.allocate.mapError .fault)
    put (.mov (.imm v) dst)
    return q.push dst
  | load x => do
    let (dst, q) ← ofExcept ((p.addGlobal x).allocate.mapError .fault)
    move (.ofGlobal x) dst
    return q.push dst
  | store x => do
    let (src, q) ← ofExcept ((p.addGlobal x).pop.mapError .underflow)
    move src (.ofGlobal x)
    return q
  | binary op => do
    let (src, dst, q) ← ofExcept (p.pop2.mapError .underflow)
    operator op src dst
    return q.push dst

end StackBackend
