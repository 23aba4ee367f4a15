import StackBackend.Lowering.Operator
import StackBackend.Placement
import StackBackend.Stack.Op

/-! Code for one operation, and what the operation does to the placement.

Input and output are calls of routines that may overwrite some registers. Those of them that
hold pending values are saved around the call. -/
namespace StackBackend

/-- Why an operation has no code. -/
inductive Refusal where
  | underflow (cause : Underflow)
  | fault (cause : Fault)
  deriving DecidableEq, Repr

namespace Lowering

/-- The live registers that a called routine may overwrite. -/
def endangered : List Reg → Except Fault (List Reg)
  | [] => .ok []
  | r :: rest => do
    let saved ← r.isCallerSaved
    let more ← endangered rest
    return if saved then r :: more else more

/-- A call with the argument on the stack, if it has one; the registers of `p` survive it. -/
def call (routine : String) (argument : Option Operand) (p : Placement) :
    Except Fault (List Instr) := do
  let saved ← endangered p.live
  return saved.map (.push ·) ++ argument.toList.map (.push ·) ++ [.call routine] ++
    argument.toList.map (fun _ => .pop Reg.eax) ++ saved.reverse.map (.pop ·)

end Lowering

namespace Op

open Lowering (call move operator)

/-- The code of an operation at a placement, and the placement after it. -/
def lower (op : Op) (p : Placement) : Except Refusal (List Instr × Placement) :=
  match op with
  | read => do
    let (dst, q) ← p.allocate.mapError .fault
    let code ← (call "read" none q).mapError .fault
    return (code ++ move Reg.eax dst, q.push dst)
  | write => do
    let (value, q) ← p.pop.mapError .underflow
    let code ← (call "write" (some value) q).mapError .fault
    return (code, q)
  | const v => do
    let (dst, q) ← p.allocate.mapError .fault
    return ([.mov (.imm v) dst], q.push dst)
  | load x => do
    let (dst, q) ← (p.addGlobal x).allocate.mapError .fault
    return (move (.ofGlobal x) dst, q.push dst)
  | store x => do
    let (src, q) ← (p.addGlobal x).pop.mapError .underflow
    return (move src (.ofGlobal x), q)
  | binary op => do
    let (src, dst, q) ← p.pop2.mapError .underflow
    return (operator op src dst, q.push dst)

/-- The messages that the choice of a location for the operation's value gives rise to. -/
def growth (op : Op) (p : Placement) : List Log.Entry :=
  match op with
  | read | const _ | load _ => p.growth
  | write | store _ | binary _ => []

end Op

end StackBackend
