import StackBackend.Log
import StackBackend.Target.Operand

/-! Where pending values live.

While code is generated, a placement stands for the evaluation stack: for every pending value it
holds the location that was chosen for it. The choice looks at the top of the stack only. The
first value goes to the first register, the value above a register to the next one while there is
one, the value above the last register to slot 0, and the value above a slot to the next slot. A
placement also counts the slots that the frame must have and collects the globals that were
named, in the order of their first mention. -/
namespace StackBackend

structure Placement where
  /-- The location of every pending value, the newest first. -/
  pending : List Operand
  /-- The most slots in use at once so far. -/
  frame : UInt32
  globals : List String
  /-- How many registers, from the start of their table, may hold values. -/
  registers : UInt8
  deriving DecidableEq, Repr

/-- Too few pending values. -/
structure Underflow where
  needed : Nat
  depth : Nat
  deriving DecidableEq, Repr

def Underflow.message (u : Underflow) : String :=
  "stack underflow: needs " ++ toString u.needed ++ (if u.needed = 1 then " value" else " values") ++
    ", stack holds " ++ toString u.depth

namespace Placement

/-- The registers that may be used when `requested` are asked for: at least one and at most those
that the table allows. -/
def usable (requested : UInt8) : UInt8 :=
  if requested < 1 then 1
  else if Reg.maxAllocatable < requested then Reg.maxAllocatable
  else requested

def empty (requested : UInt8) : Placement := ⟨[], 0, [], usable requested⟩

/-- The pending locations, the oldest first. -/
def stack (p : Placement) : List Operand := p.pending.reverse

def depth (p : Placement) : Nat := p.pending.length

/-- The registers that hold pending values, the oldest value's first. -/
def live (p : Placement) : List Reg := p.stack.filterMap (·.reg?)

def push (p : Placement) (o : Operand) : Placement := {p with pending := o :: p.pending}

def pop (p : Placement) : Except Underflow (Operand × Placement) :=
  match p.pending with
  | [] => .error ⟨1, 0⟩
  | top :: rest => .ok (top, {p with pending := rest})

/-- The newest two values, the newest first. -/
def pop2 (p : Placement) : Except Underflow (Operand × Operand × Placement) :=
  match p.pending with
  | top :: second :: rest => .ok (top, second, {p with pending := rest})
  | _ => .error ⟨2, p.depth⟩

def addGlobal (p : Placement) (name : String) : Placement :=
  if name ∈ p.globals then p else {p with globals := p.globals ++ [name]}

/-! ### Choosing a location -/

/-- The largest slot index. -/
def lastSlot : UInt32 := 0xFFFFFFFF

/-- The location above the newest value. -/
def next (p : Placement) : Except Fault Operand :=
  match p.pending with
  | [] => .ok (.reg ⟨0⟩)
  | .slot n :: _ => if n = lastSlot then .error .addOverflow else .ok (.slot (n + 1))
  | .reg r :: _ =>
    if r.index = 255 then .error .addOverflow
    else if r.index + 1 < p.registers then .ok (.reg ⟨r.index + 1⟩)
    else .ok (.slot 0)
  | .mem _ :: _ | .imm _ :: _ => .ok (.slot 0)

/-- The placement with a frame that holds `o`, when `o` is a slot. -/
def cover (p : Placement) (o : Operand) : Except Fault Placement :=
  match o with
  | .slot k =>
    if k = lastSlot then .error .addOverflow else .ok {p with frame := max p.frame (k + 1)}
  | .reg _ | .mem _ | .imm _ => .ok p

/-- A location for one more value, which is not pending yet. -/
def allocate (p : Placement) : Except Fault (Operand × Placement) := do
  let o ← p.next
  return (o, ← p.cover o)

/-- The message about a frame that has grown to a number of slots. -/
def spillEntry (slots : Nat) : Log.Entry :=
  ⟨.debug, "spill: frame grows to " ++ toString slots ++ " slot(s)"⟩

/-- The messages of `allocate`: one when it makes the frame grow. -/
def growth (p : Placement) : List Log.Entry :=
  match p.allocate with
  | .ok (_, q) => if p.frame < q.frame then [spillEntry q.frame.toNat] else []
  | .error _ => []

@[simp] theorem stack_push (p : Placement) (o : Operand) : (p.push o).stack = p.stack ++ [o] := by
  simp [stack, push]

@[simp] theorem depth_push (p : Placement) (o : Operand) : (p.push o).depth = p.depth + 1 := rfl

theorem length_stack (p : Placement) : p.stack.length = p.depth := by
  simp [stack, depth]

end Placement

end StackBackend
