import StackBackend.Proofs.Acceptance

/-! What any history of a placement leads to.

A placement can be asked for a location, with or without a value to put there, values can be taken
away one or two at a time, globals can be named, and code can be generated. `after` takes a list of
such actions in any order. One action keeps the placement canonical (`apply_canonical`), so a whole
history does (`after_canonical`), and `stack_by_depth` says what that means: every pending value is
where its depth puts it, no two share a location, and the next location is always a free one. -/
namespace StackBackend.Placement

/-! ### Histories -/

inductive Action where
  /-- A location is chosen and a value is put there. -/
  | fresh
  /-- A location is chosen and nothing is put there. -/
  | allocate
  | pop
  | pop2
  | addGlobal (name : String)
  /-- The code of an operation is generated. -/
  | lower (op : Op)
  deriving DecidableEq, Repr

def Action.apply (p : Placement) : Action → Except Refusal Placement
  | fresh => do
    let (o, q) ← p.allocate.mapError .fault
    return q.push o
  | allocate => do
    let (_, q) ← p.allocate.mapError .fault
    return q
  | pop => do
    let (_, q) ← p.pop.mapError .underflow
    return q
  | pop2 => do
    let (_, _, q) ← p.pop2.mapError .underflow
    return q
  | addGlobal x => return p.addGlobal x
  | lower op => do
    let (_, q) ← op.lower p
    return q

/-- The placement after some actions. An action that is refused leaves it as it was. -/
def after (p : Placement) : List Action → Placement
  | [] => p
  | a :: rest =>
    match a.apply p with
    | .ok q => q.after rest
    | .error _ => p.after rest

variable {p q : Placement}

theorem apply_canonical {a : Action} (h : a.apply p = .ok q) (hc : p.Canonical) :
    q.Canonical ∧ q.registers = p.registers := by
  cases a with
  | fresh =>
    simp only [Action.apply, bind_eq_ok, mapError_eq_ok, pure_eq_ok] at h
    obtain ⟨⟨o, q'⟩, ha, rfl⟩ := h
    exact ⟨(hc.allocate ha).2.2, (allocate_grown ha).registers⟩
  | allocate =>
    simp only [Action.apply, bind_eq_ok, mapError_eq_ok, pure_eq_ok] at h
    obtain ⟨⟨o, q'⟩, ha, rfl⟩ := h
    exact ⟨(hc.allocate ha).2.1, (allocate_grown ha).registers⟩
  | pop =>
    simp only [Action.apply, bind_eq_ok, mapError_eq_ok, pure_eq_ok] at h
    obtain ⟨⟨o, q'⟩, hp, rfl⟩ := h
    obtain ⟨rest, hpending, rfl⟩ := pop_eq_ok.mp hp
    exact ⟨hc.pop hpending, rfl⟩
  | pop2 =>
    simp only [Action.apply, bind_eq_ok, mapError_eq_ok, pure_eq_ok] at h
    obtain ⟨⟨o, o', q'⟩, hp, rfl⟩ := h
    obtain ⟨rest, hpending, rfl⟩ := pop2_eq_ok.mp hp
    exact ⟨(hc.pop hpending).pop rfl, rfl⟩
  | addGlobal x =>
    cases h
    exact ⟨hc.addGlobal x, p.addGlobal_registers x⟩
  | lower op =>
    simp only [Action.apply, bind_eq_ok, pure_eq_ok] at h
    obtain ⟨⟨code, q'⟩, hl, rfl⟩ := h
    exact ⟨(lower_eq_ok.mp hl).canonical hc, (lower_eq_ok.mp hl).registers⟩

theorem after_canonical (actions : List Action) (hc : p.Canonical) :
    (p.after actions).Canonical ∧ (p.after actions).registers = p.registers := by
  induction actions generalizing p with
  | nil => exact ⟨hc, rfl⟩
  | cons a rest ih =>
    simp only [after]
    cases ha : a.apply p with
    | error e => exact ih hc
    | ok q =>
      obtain ⟨hq, hregs⟩ := apply_canonical ha hc
      exact ⟨(ih hq).1, (ih hq).2.trans hregs⟩

/-! ### The stack from its oldest value -/

theorem reverse_layout (registers : UInt8) (n : Nat) :
    (layout registers n).reverse = (List.range n).map (location registers) := by
  induction n with
  | zero => rfl
  | succ n ih => simp only [layout, List.reverse_cons, ih, List.range_succ, List.map_append,
      List.map_cons, List.map_nil]

namespace Canonical

variable {o : Operand}

theorem stack (h : p.Canonical) : p.stack = (List.range p.depth).map (location p.registers) := by
  rw [Placement.stack, h.pending, reverse_layout]

theorem mem_stack (h : p.Canonical) (ho : o ∈ p.stack) : p.Within o :=
  h.within (List.mem_reverse.mp ho)

theorem nodup_stack (h : p.Canonical) : p.stack.Nodup := by
  have hlt := h.depth_lt
  rw [h.stack, List.Nodup, List.pairwise_map]
  refine List.Pairwise.imp_of_mem ?_ List.pairwise_lt_range
  intro i j hi hj hij heq
  have hi := List.mem_range.mp hi
  have hj := List.mem_range.mp hj
  have := location_inj (by omega) (by omega) heq
  omega

/-- The location that is handed out belongs to a depth that no pending value has. -/
theorem allocate_not_mem (h : p.Canonical) (ha : p.allocate = .ok (o, q)) : o ∉ p.stack := by
  have hnodup := (h.allocate ha).2.2.nodup_stack
  have hstack : q.stack = p.stack := congrArg List.reverse (allocate_grown ha).pending
  rw [stack_push, hstack] at hnodup
  intro ho
  exact (List.pairwise_append.mp hnodup).2.2 o ho o (List.mem_singleton.mpr rfl) rfl

end Canonical

/-- **Pending values lie where their depth says**, whatever has been done to the placement. No two
share a location, none is in named memory, in a number or in a register with another use, and a
location is handed out only while it is free. There is always a next location until the slots
cannot be counted any more; to count registers never goes wrong. -/
theorem stack_by_depth (requested : UInt8) (actions : List Action) (p : Placement)
    (hp : (empty requested).after actions = p) :
    p.registers.toNat = max 1 (min requested.toNat 4) ∧
    p.depth ≤ p.registers.toNat + 4294967295 ∧
    p.stack = (List.range p.depth).map (location p.registers) ∧
    p.stack.Nodup ∧
    (∀ o ∈ p.stack, (∀ x, o ≠ .mem x) ∧ (∀ v, o ≠ .imm v) ∧
      ∀ x ∈ [Reg.eax, .edx, .ebp, .esp], o ≠ .reg x) ∧
    (∀ o q, p.allocate = .ok (o, q) → o ∉ p.stack) ∧
    (∀ x, p.stack.getLast? = some (.reg x) → x.index.toNat + 1 < 256) ∧
    (p.depth < p.registers.toNat + 4294967295 → ∃ o q, p.allocate = .ok (o, q)) ∧
    ∀ (op : Op) (code : List Instr) (q : Placement), op.lower p = .ok (code, q) →
      op.pops ≤ p.depth ∧ q.depth = p.depth - op.pops + op.pushes := by
  obtain ⟨hc, hregs⟩ := after_canonical actions (canonical_empty requested)
  rw [hp] at hc hregs
  have hroom := hc.room
  have hframe := p.frame.toNat_lt
  have hfour := hc.le_four
  have hindex {x : Reg} (hx : Operand.reg x ∈ p.stack) : x.index.toNat < p.registers.toNat :=
    hc.mem_stack hx
  refine ⟨?_, by omega, hc.stack, hc.nodup_stack, ?_, fun o q => hc.allocate_not_mem, ?_,
    hc.allocate_of_lt, fun op code q hl => (lower_eq_ok.mp hl).depth⟩
  · rw [hregs]
    exact toNat_usable_eq requested
  · intro o ho
    refine ⟨?_, ?_, ?_⟩
    · intro x hx
      subst hx
      exact hc.mem_stack ho
    · intro v hv
      subst hv
      exact hc.mem_stack ho
    · intro x hx heq
      subst heq
      have hlt := hindex ho
      have hother : ∀ x ∈ [Reg.eax, .edx, .ebp, .esp], 4 ≤ x.index.toNat := by decide
      have := hother x hx
      omega
  · intro x hx
    have hlt := hindex (List.mem_of_getLast? hx)
    omega

/-- A history in which a register and a slot are used again and one location is not used at all. -/
def reusing : List Action :=
  [.fresh, .lower .read, .fresh, .allocate, .pop2, .pop2, .lower (.const 3), .addGlobal "x", .fresh]

def reused : Placement := ⟨[.slot 0, Reg.ecx, Reg.ebx], 2, ["x"], 2⟩

theorem reusing_stack_by_depth :
    (empty 2).after reusing = reused ∧ reused.depth = 3 ∧
    reused.stack = (List.range 3).map (location 2) ∧
    (∀ o q, reused.allocate = .ok (o, q) → o ∉ [Operand.reg .ebx, .reg .ecx, .slot 0]) ∧
    ∃ o q, reused.allocate = .ok (o, q) := by
  have hreused : (empty 2).after reusing = reused := rfl
  obtain ⟨-, -, hstack, -, -, hfree, -, hnext, -⟩ := stack_by_depth 2 reusing reused hreused
  exact ⟨hreused, rfl, hstack, hfree, hnext (by decide)⟩

end StackBackend.Placement
