import StackBackend.Proofs.FrameSize
import StackBackend.Proofs.Rejection

/-! What one operation does to a placement of any shape and to the code so far.

A placement need not come from code generation: its stack may hold operands of every kind, in any
order, and its frame and globals may be anything. Whether an operation is refused for want of values
still depends on the depth alone (`depth_lt_of_underflow`), and when it has code the new placement
is the old one up to the few things that the operation is about (`Lowers.effect`). The code is
written behind whatever stands, and an operation that is refused leaves no trace there, so one can
go on with the next operation (`emit_effect`). -/
namespace StackBackend

/-! ### Refusals -/

namespace Placement

variable {p : Placement} {u : Underflow}

theorem depth_of_pop_error (h : p.pop = .error u) : p.depth < 1 := by
  unfold pop at h
  split at h
  next hp => simp [depth, hp]
  next => cases h

theorem depth_of_pop2_error (h : p.pop2 = .error u) : p.depth < 2 := by
  unfold pop2 at h
  split at h
  next => cases h
  next hp =>
    cases hpending : p.pending with
    | nil => simp [depth, hpending]
    | cons top rest =>
      cases rest with
      | nil => simp [depth, hpending]
      | cons second rest => exact absurd hpending (hp top second rest)

end Placement

/-- An operation is refused for want of values only when there are too few. -/
theorem depth_lt_of_underflow {op : Op} {p : Placement} {u : Underflow}
    (h : op.lower p = .error (.underflow u)) : p.depth < op.pops := by
  cases op with
  | read => simp [Op.lower, bind_eq_error, mapError_eq_error, pure, Except.pure] at h
  | const v => simp [Op.lower, bind_eq_error, mapError_eq_error, pure, Except.pure] at h
  | load x => simp [Op.lower, bind_eq_error, mapError_eq_error, pure, Except.pure] at h
  | write =>
    simp only [Op.lower, bind_eq_error, mapError_eq_error] at h
    obtain ⟨u, hpop, -⟩ | ⟨_, -, ⟨_, -, h⟩ | ⟨_, -, h⟩⟩ := h
    · exact Placement.depth_of_pop_error hpop
    · cases h
    · cases h
  | store x =>
    simp only [Op.lower, bind_eq_error, mapError_eq_error] at h
    obtain ⟨u, hpop, -⟩ | ⟨_, -, h⟩ := h
    · have hdepth : (p.addGlobal x).depth = p.depth := congrArg List.length (p.addGlobal_pending x)
      exact hdepth ▸ Placement.depth_of_pop_error hpop
    · cases h
  | binary op =>
    simp only [Op.lower, bind_eq_error, mapError_eq_error] at h
    obtain ⟨u, hpop, -⟩ | ⟨_, -, h⟩ := h
    · exact Placement.depth_of_pop2_error hpop
    · cases h

/-! ### Effects -/

/-- Some names with one more behind them, unless it is among them. -/
def Placement.noted (names : List String) : Option String → List String
  | some x => if x ∈ names then names else names ++ [x]
  | none => names

theorem Placement.addGlobal_globals (p : Placement) (x : String) :
    (p.addGlobal x).globals = noted p.globals (some x) := by
  by_cases hx : x ∈ p.globals <;> simp [addGlobal, noted, hx]

/-- The location of the value that an operation leaves: one that is chosen for it, or that of the
left value. -/
def Op.target? (op : Op) (p : Placement) : Option Operand :=
  match op with
  | read | const _ | load _ => p.allocate.toOption.map (·.1)
  | write | store _ => none
  | binary _ => p.pending[1]?

/-- What an operation that has code makes of a placement. -/
structure Effect (op : Op) (p q : Placement) : Prop where
  /-- The values that the operation takes are gone, and behind all others is the one it leaves. -/
  stack : q.stack = p.stack.take (p.depth - op.pops) ++ (op.target? p).toList
  pushes : (op.target? p).toList.length = op.pushes
  registers : q.registers = p.registers
  frame : p.frame.toNat ≤ q.frame.toNat
  globals : q.globals = Placement.noted p.globals op.global?

namespace Lowers

variable {p q : Placement} {op : Op} {code : List Instr}

theorem globals_eq (h : Lowers p op code q) : q.globals = Placement.noted p.globals op.global? := by
  cases h with
  | read ha _ => exact (Placement.allocate_grown ha).globals
  | write hp _ => rfl
  | const ha => exact (Placement.allocate_grown ha).globals
  | load ha => exact (Placement.allocate_grown ha).globals.trans (p.addGlobal_globals _)
  | store hp => exact p.addGlobal_globals _
  | binary hp => rfl

/-- The stack after an operation whose value goes to a new location. -/
theorem stack_of_allocate {dst : Operand} (ha : p.allocate = .ok (dst, q)) :
    (q.push dst).stack = p.stack.take (p.depth - 0) ++ [dst] := by
  have hwhole : p.stack.take (p.depth - 0) = p.stack :=
    List.take_of_length_le (Nat.le_of_eq p.length_stack)
  have hpending := (Placement.allocate_grown ha).pending
  rw [Placement.stack_push, hwhole, Placement.stack, hpending]
  rfl

theorem stack_eq (h : Lowers p op code q) :
    q.stack = p.stack.take (p.depth - op.pops) ++ (op.target? p).toList := by
  cases h with
  | read ha _ =>
    simp only [Op.target?, ha]
    exact stack_of_allocate ha
  | const ha =>
    simp only [Op.target?, ha]
    exact stack_of_allocate ha
  | load ha =>
    obtain ⟨_, ha', -⟩ := Placement.allocate_of_addGlobal ha
    have hstack := stack_of_allocate ha
    simp only [Op.target?, ha']
    simp only [Placement.stack, Placement.depth, Placement.addGlobal_pending] at hstack
    exact hstack
  | write hp _ => simp [Placement.stack, Placement.depth, Op.target?, Op.pops, hp]
  | store hp => simp [Placement.stack, Placement.depth, Op.target?, Op.pops, hp]
  | binary hp => simp [Placement.stack, Placement.depth, Op.target?, Op.pops, hp]

theorem length_target (h : Lowers p op code q) : (op.target? p).toList.length = op.pushes := by
  cases h with
  | read ha _ => simp [Op.target?, ha, Except.toOption, Op.pushes]
  | const ha => simp [Op.target?, ha, Except.toOption, Op.pushes]
  | load ha =>
    obtain ⟨_, ha', -⟩ := Placement.allocate_of_addGlobal ha
    simp [Op.target?, ha', Except.toOption, Op.pushes]
  | write hp _ => rfl
  | store hp => rfl
  | binary hp => simp [Op.target?, hp, Op.pushes]

theorem effect (h : Lowers p op code q) : Effect op p q where
  stack := h.stack_eq
  pushes := h.length_target
  registers := h.registers
  frame := h.frame_le
  globals := h.globals_eq

end Lowers

/-! ### What is written -/

namespace Op

/-- **An operation is written whole or not at all.** At any placement and behind any code, an
operation that does not meet a fault is refused exactly when fewer values are pending than it takes;
the refusal gives both numbers, and the code so far is as it was. Otherwise the code so far stands,
what is behind it is the code of the operation, and the placement changes as `Effect` says: the
values taken are replaced by the value left, all deeper ones and the number of registers stay, the
frame does not shrink, and no global comes in but the operation's own, at the end. -/
theorem emit_effect (op : Op) (p : Placement) (out : Array Instr)
    (hfault : ∀ c left, (op.emit p).run out ≠ .error (.fault c) left) :
    ((∃ e left, (op.emit p).run out = .error e left) ↔ p.depth < op.pops) ∧
    (∀ e left, (op.emit p).run out = .error e left →
      e = .underflow ⟨op.pops, p.depth⟩ ∧ left = out) ∧
    ∀ q written, (op.emit p).run out = .ok q written →
      out.toList <+: written.toList ∧
      op.lower p = .ok (written.toList.drop out.size, q) ∧ Effect op p q := by
  have hshort {e : Refusal} {left : Array Instr} (h : (op.emit p).run out = .error e left) :
      p.depth < op.pops := by
    cases e with
    | underflow u => exact depth_lt_of_underflow (emit_eq_error.mp h).1
    | fault c => exact absurd h (hfault c left)
  refine ⟨⟨?_, ?_⟩, ?_, ?_⟩
  · intro h
    obtain ⟨e, left, h⟩ := h
    exact hshort h
  · intro h
    exact ⟨_, out, emit_eq_error.mpr ⟨Lowering.lower_of_short h, rfl⟩⟩
  · intro e left h
    obtain ⟨hlower, rfl⟩ := emit_eq_error.mp h
    rw [Lowering.lower_of_short (hshort h)] at hlower
    cases hlower
    exact ⟨rfl, rfl⟩
  · intro q written h
    obtain ⟨code, hlower, rfl⟩ := emit_eq_ok.mp h
    rw [Array.toList_append, ← Array.length_toList, List.drop_left]
    exact ⟨List.prefix_append .., hlower, (lower_eq_ok.mp hlower).effect⟩

/-- A placement that no code generation leads to: operands of every kind, one of them a register
that does not exist, more registers than there are and a frame that does not hold its slot. -/
def disordered : Placement := ⟨[.imm 7, .mem "x", .slot 9, .reg ⟨9⟩], 3, ["x"], 200⟩

theorem disordered_effect :
    (∃ q written, ((load "y").emit disordered).run #[.ret] = .ok q written ∧
      [.ret] <+: written.toList ∧
      written.toList.drop 1 = [.mov (.ofGlobal "y") Reg.eax, .mov Reg.eax (.slot 0)] ∧
      q.stack = [.reg ⟨9⟩, .slot 9, .mem "x", .imm 7, .slot 0] ∧ q.globals = ["x", "y"]) ∧
    ((store "y").emit (.empty 2)).run #[.ret] = .error (.underflow ⟨1, 0⟩) #[.ret] ∧
    ((binary .add).emit ⟨[.imm 7], 0, [], 4⟩).run #[.ret] = .error (.underflow ⟨2, 1⟩) #[.ret] := by
  have hkept (op : Op) (p : Placement) (hshort : p.depth < op.pops)
      (hfault : ∀ c left, (op.emit p).run #[.ret] ≠ .error (.fault c) left) :
      (op.emit p).run #[.ret] = .error (.underflow ⟨op.pops, p.depth⟩) #[.ret] := by
    obtain ⟨hrefused, hcause, -⟩ := emit_effect op p #[.ret] hfault
    obtain ⟨e, left, he⟩ := hrefused.mpr hshort
    obtain ⟨rfl, rfl⟩ := hcause e left he
    exact he
  obtain ⟨-, -, hloaded⟩ := emit_effect (load "y") disordered #[.ret] fun c left h => by cases h
  obtain ⟨hstands, -, heffect⟩ := hloaded _ _ rfl
  refine ⟨⟨_, _, rfl, hstands, rfl, heffect.stack, heffect.globals⟩,
    hkept (store "y") (.empty 2) (by decide) ?_, hkept (binary .add) _ (by decide) ?_⟩
  · intro c left h
    cases h
  · intro c left h
    cases h

end Op

end StackBackend
