import StackBackend.Stack.Op

/-! What stack code means, apart from any machine.

Values are 32 bits wide, and sums, differences and products wrap. Quotients are rounded toward
zero, comparisons and connectives yield 0 or 1, and a global that was never stored holds 0. One
quotient does not fit: that of the least value by minus one. Strict evaluation refuses it, and
evaluation that is not strict wraps it, which leaves no remainder. -/
namespace StackBackend

/-- Why an operation cannot be evaluated. -/
inductive Trap where
  | underflow
  | inputExhausted
  | divisionByZero
  | divisionOverflow
  deriving DecidableEq, Repr

namespace Operator

def ofBool (b : Bool) : Int32 := if b then 1 else 0

/-- The value of an operator on its left and its right value, for a right value by which it can
divide. -/
def value (op : Operator) (l r : Int32) : Int32 :=
  match op with
  | add => l + r
  | sub => l - r
  | mul => l * r
  | div => .ofInt (l.toInt.tdiv r.toInt)
  | mod => .ofInt (l.toInt.tmod r.toInt)
  | eq => ofBool (l = r)
  | ne => ofBool (l ≠ r)
  | lt => ofBool (l < r)
  | le => ofBool (l ≤ r)
  | gt => ofBool (r < l)
  | ge => ofBool (r ≤ l)
  | and => ofBool (l ≠ 0 ∧ r ≠ 0)
  | or => ofBool (l ≠ 0 ∨ r ≠ 0)

def divides (op : Operator) : Bool := op = div || op = mod

def eval (strict : Bool) (op : Operator) (l r : Int32) : Except Trap Int32 :=
  if op.divides && r = 0 then .error .divisionByZero
  else if strict && op.divides && l = Int32.minValue && r = -1 then .error .divisionOverflow
  else .ok (op.value l r)

end Operator

/-- The state between two operations. -/
structure EvalState where
  /-- The newest value first. -/
  stack : List Int32
  globals : String → Int32
  input : List Int32
  output : List Int32

namespace EvalState

def start (input : List Int32) : EvalState := ⟨[], fun _ => 0, input, []⟩

def step (strict : Bool) (s : EvalState) : Op → Except Trap EvalState
  | .read =>
    match s.input with
    | [] => .error .inputExhausted
    | v :: rest => .ok {s with stack := v :: s.stack, input := rest}
  | .write =>
    match s.stack with
    | [] => .error .underflow
    | v :: rest => .ok {s with stack := rest, output := s.output ++ [v]}
  | .const v => .ok {s with stack := v :: s.stack}
  | .load x => .ok {s with stack := s.globals x :: s.stack}
  | .store x =>
    match s.stack with
    | [] => .error .underflow
    | v :: rest =>
      .ok {s with stack := rest, globals := fun y => if y = x then v else s.globals y}
  | .binary op =>
    match s.stack with
    | r :: l :: rest => (op.eval strict l r).map fun v => {s with stack := v :: rest}
    | _ => .error .underflow

def run (strict : Bool) (s : EvalState) : List Op → Except Trap EvalState
  | [] => .ok s
  | op :: rest =>
    match s.step strict op with
    | .ok t => t.run strict rest
    | .error trap => .error trap

theorem run_append (strict : Bool) (s : EvalState) (a b : List Op) :
    s.run strict (a ++ b) =
      match s.run strict a with
      | .ok t => t.run strict b
      | .error trap => .error trap := by
  induction a generalizing s with
  | nil => rfl
  | cons op a ih =>
    simp only [List.cons_append, run]
    cases s.step strict op with
    | ok t => exact ih t
    | error trap => rfl

end EvalState

end StackBackend
