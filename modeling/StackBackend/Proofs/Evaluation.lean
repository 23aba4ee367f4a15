import StackBackend.Stack.Eval

/-! How evaluation goes, told from the operations.

The depth of the stack after an operation follows from the depth before it, whatever the values
are. Evaluation takes its values from a stack that is deep enough (`run_supplied`). Strict
evaluation refuses one quotient and is otherwise the same (`run_of_strict`). -/
namespace StackBackend

/-! ### Depth -/

namespace Op

/-- The depth after an operation that finds the depth `d`. -/
def depthAfter (op : Op) (d : Nat) : Nat := d - op.pops + op.pushes

/-- From the depth `d` on, every operation finds the values that it takes. -/
def Supplied (d : Nat) : List Op → Prop
  | [] => True
  | op :: rest => op.pops ≤ d ∧ Supplied (op.depthAfter d) rest

/-- The greatest depth that some operations reach from the depth `d` on. -/
def peak (d : Nat) : List Op → Nat
  | [] => d
  | op :: rest => max d (peak (op.depthAfter d) rest)

theorem le_peak (d : Nat) (ops : List Op) : d ≤ peak d ops := by
  cases ops with
  | nil => exact Nat.le_refl d
  | cons op rest => exact Nat.le_max_left ..

end Op

namespace Operator

variable {op : Operator} {l r v : Int32}

/-- Evaluation that is not strict stops at a zero divisor only. -/
theorem eval_eq_ok (h : op.eval false l r = .ok v) :
    (op.divides = true → r ≠ 0) ∧ op.value l r = v := by
  unfold eval at h
  split at h
  next => cases h
  next hz =>
    refine ⟨fun hd hr => hz (by simp [hd, hr]), ?_⟩
    simpa using h

/-- A value that strict evaluation finds is the value. -/
theorem eval_of_strict (h : op.eval true l r = .ok v) : op.eval false l r = .ok v := by
  unfold eval at h ⊢
  split at h
  next => cases h
  next hz =>
    split at h
    next => cases h
    next =>
      rw [if_neg hz]
      simpa using h

end Operator

/-! ### States -/

namespace EvalState

variable {strict : Bool} {s t : EvalState} {op : Op}

/-- What evaluation does with an operation, in one rule for each kind. -/
inductive Steps (strict : Bool) (s : EvalState) : Op → EvalState → Prop where
  | read {v rest} : s.input = v :: rest →
      Steps strict s .read {s with stack := v :: s.stack, input := rest}
  | write {v rest} : s.stack = v :: rest →
      Steps strict s .write {s with stack := rest, output := s.output ++ [v]}
  | const {v} : Steps strict s (.const v) {s with stack := v :: s.stack}
  | load {x} : Steps strict s (.load x) {s with stack := s.globals x :: s.stack}
  | store {x v rest} : s.stack = v :: rest →
      Steps strict s (.store x)
        {s with stack := rest, globals := fun y => if y = x then v else s.globals y}
  | binary {op r l rest v} : s.stack = r :: l :: rest → op.eval strict l r = .ok v →
      Steps strict s (.binary op) {s with stack := v :: rest}

theorem step_eq_ok : s.step strict op = .ok t ↔ Steps strict s op t := by
  constructor
  · intro h
    cases op with
    | read =>
      simp only [step] at h
      split at h
      next => cases h
      next v rest hi => cases h; exact .read hi
    | write =>
      simp only [step] at h
      split at h
      next => cases h
      next v rest hs => cases h; exact .write hs
    | const v => cases h; exact .const
    | load x => cases h; exact .load
    | store x =>
      simp only [step] at h
      split at h
      next => cases h
      next v rest hs => cases h; exact .store hs
    | binary op =>
      simp only [step] at h
      split at h
      next r l rest hs =>
        cases hv : op.eval strict l r with
        | error e => rw [hv] at h; cases h
        | ok v => rw [hv] at h; cases h; exact .binary hs hv
      next => cases h
  · rintro (hi | hs | _ | _ | hs | ⟨hs, hv⟩)
    · simp only [step, hi]
    · simp only [step, hs]
    · rfl
    · rfl
    · simp only [step, hs]
    · simp only [step, hs, hv]
      rfl

theorem Steps.depth (h : Steps strict s op t) :
    op.pops ≤ s.stack.length ∧ t.stack.length = op.depthAfter s.stack.length := by
  cases h with
  | read hi => exact ⟨Nat.zero_le _, rfl⟩
  | write hs => simp [Op.pops, Op.depthAfter, Op.pushes, hs]
  | const => exact ⟨Nat.zero_le _, rfl⟩
  | load => exact ⟨Nat.zero_le _, rfl⟩
  | store hs => simp [Op.pops, Op.depthAfter, Op.pushes, hs]
  | binary hs hv => simp [Op.pops, Op.depthAfter, Op.pushes, hs]

theorem run_cons_eq_ok {ops : List Op} : s.run strict (op :: ops) = .ok t ↔
    ∃ u, s.step strict op = .ok u ∧ u.run strict ops = .ok t := by
  simp only [run]
  cases s.step strict op <;> simp

/-- Operations that can be evaluated find the values that they take. -/
theorem run_supplied {ops : List Op} (h : s.run strict ops = .ok t) :
    Op.Supplied s.stack.length ops := by
  induction ops generalizing s with
  | nil => trivial
  | cons op ops ih =>
    obtain ⟨u, hu, hrun⟩ := run_cons_eq_ok.mp h
    obtain ⟨hpops, hdepth⟩ := (step_eq_ok.mp hu).depth
    have hrest := ih hrun
    rw [hdepth] at hrest
    exact ⟨hpops, hrest⟩

/-! ### Strict evaluation -/

theorem step_of_strict (h : s.step true op = .ok t) : s.step false op = .ok t := by
  rw [step_eq_ok] at h ⊢
  cases h with
  | read hi => exact .read hi
  | write hs => exact .write hs
  | const => exact .const
  | load => exact .load
  | store hs => exact .store hs
  | binary hs hv => exact .binary hs (Operator.eval_of_strict hv)

theorem run_of_strict {ops : List Op} (h : s.run true ops = .ok t) : s.run false ops = .ok t := by
  induction ops generalizing s with
  | nil => exact h
  | cons op ops ih =>
    obtain ⟨u, hu, hrun⟩ := run_cons_eq_ok.mp h
    exact run_cons_eq_ok.mpr ⟨u, step_of_strict hu, ih hrun⟩

end EvalState

end StackBackend
