import StackBackend.Proofs.Acceptance
import StackBackend.Proofs.Calls
import StackBackend.Proofs.Operators

/-! The code of an operation does what the operation means.

`Matches` ties a machine to the state of an evaluation: every pending value is at the location that
the placement has for it, every global is in its cell, and input and output are the same. The code
of an operation takes a machine that matches to one that matches again (`Lowers.takes`), unless the
operation is blocked, and then the code fails with nothing put out and no global changed
(`Lowers.fails`). In between, the code keeps what is not its own to use (`Spares`). -/
namespace StackBackend

open Lowering (scratch clobbered clobbered_not_live)
open Machine (AgreeOutside)

/-- The machine is where the evaluation is. -/
structure Matches (p : Placement) (s : EvalState) (m : Machine) : Prop where
  pending : p.pending.map m.read = s.stack.map .ok
  globals : ∀ x, m.globals ("global_" ++ x) = s.globals x
  /-- Cells that are no global's are not used. -/
  unnamed : ∀ y, (∀ x, y ≠ "global_" ++ x) → m.globals y = 0
  input : m.input = s.input
  output : m.output = s.output

/-- The code has kept what is not its own to use: the stack, and the registers beyond those for
pending values that a routine must preserve. -/
structure Spares (registers : UInt8) (m m' : Machine) : Prop where
  regs : ∀ r, registers.toNat ≤ r.index.toNat → r ∉ Reg.callerSaved → m'.regs r = m.regs r
  stack : m'.stack = m.stack

variable {p q : Placement} {s t : EvalState} {m m' m'' : Machine} {o : Operand} {v : Int32}
  {op : Op} {code : List Instr}

/-! ### What is kept -/

namespace Spares

variable {registers : UInt8}

theorem trans (h : Spares registers m m') (g : Spares registers m' m'') : Spares registers m m'' :=
  ⟨fun r hr hs => (g.regs r hr hs).trans (h.regs r hr hs), g.stack.trans h.stack⟩

theorem agree {rs : List Reg} (ha : AgreeOutside rs m m') (hrs : ∀ r ∈ rs, r ∈ Reg.callerSaved) :
    Spares registers m m' :=
  ⟨fun r _ hs => ha.regs r fun hr => hs (hrs r hr), ha.stack⟩

/-- Locations that a placement hands out are its own. -/
theorem put (ho : p.Within o) (m : Machine) (v : Int32) : Spares p.registers m (m.put o v) := by
  refine ⟨fun r hr _ => ?_, m.put_stack o v⟩
  apply Machine.put_regs_of_ne
  rintro rfl
  have hlt : r.index.toNat < p.registers.toNat := ho
  omega

end Spares

namespace Matches

theorem of_pending (h : Matches p s m) (hp : q.pending = p.pending) : Matches q s m :=
  ⟨by rw [hp]; exact h.pending, h.globals, h.unnamed, h.input, h.output⟩

/-- Every cell is a global's or unused, so machines at the same state agree in all of them. -/
theorem globals_eq (h : Matches p s m) (h' : Matches q s m') : m'.globals = m.globals := by
  funext y
  by_cases hy : ∃ x, y = "global_" ++ x
  · obtain ⟨x, rfl⟩ := hy
    rw [h.globals, h'.globals]
  · have hnot : ∀ x, y ≠ "global_" ++ x := fun x hx => hy ⟨x, hx⟩
    rw [h.unnamed y hnot, h'.unnamed y hnot]

theorem withInput (h : Matches p s m) (input : List Int32) :
    Matches p {s with input := input} {m with input := input} :=
  ⟨h.pending, h.globals, h.unnamed, rfl, h.output⟩

theorem withOutput (h : Matches p s m) (v : Int32) :
    Matches p {s with output := s.output ++ [v]} {m with output := m.output ++ [v]} :=
  ⟨h.pending, h.globals, h.unnamed, h.input, congrArg (· ++ [v]) h.output⟩

/-- Registers without pending values do not matter. -/
theorem agree {rs : List Reg} (h : Matches p s m) (ha : AgreeOutside rs m m')
    (hrs : ∀ r ∈ rs, r ∉ p.live) : Matches p s m' := by
  refine ⟨?_, ?_, ?_, ha.input.trans h.input, ha.output.trans h.output⟩
  · rw [← h.pending]
    apply List.map_congr_left
    intro o ho
    apply ha.read
    rintro r hr rfl
    exact hrs r hr (Placement.mem_live.mpr ho)
  · intro x
    rw [ha.globals]
    exact h.globals x
  · intro y hy
    rw [ha.globals]
    exact h.unnamed y hy

theorem push (h : Matches p s m) (ho : o ∉ p.pending) (hw : o.Writable) (hn : ∀ x, o ≠ .mem x)
    (v : Int32) : Matches (p.push o) {s with stack := v :: s.stack} (m.put o v) := by
  refine ⟨?_, ?_, ?_, ?_, ?_⟩
  · have hrest : p.pending.map (m.put o v).read = p.pending.map m.read := by
      apply List.map_congr_left
      intro o' ho'
      exact m.read_put_of_ne v fun he => ho (he ▸ ho')
    show (m.put o v).read o :: p.pending.map (m.put o v).read = .ok v :: s.stack.map .ok
    rw [hrest, h.pending, m.read_put_self v hw]
  · intro x
    rw [m.put_globals_of_ne v (hn _)]
    exact h.globals x
  · intro y hy
    rw [m.put_globals_of_ne v (hn _)]
    exact h.unnamed y hy
  · rw [m.put_input]
    exact h.input
  · rw [m.put_output]
    exact h.output

/-- The newest value, and the state without it. -/
theorem pop {rest : List Operand} (h : Matches p s m) (hp : p.pending = o :: rest) :
    ∃ v vs, s.stack = v :: vs ∧ m.read o = .ok v ∧
      Matches {p with pending := rest} {s with stack := vs} m := by
  have hpending := h.pending
  rw [hp] at hpending
  cases hs : s.stack with
  | nil =>
    rw [hs] at hpending
    cases hpending
  | cons v vs =>
    rw [hs, List.map_cons, List.map_cons] at hpending
    obtain ⟨hread, hrest⟩ := List.cons.inj hpending
    exact ⟨v, vs, rfl, hread, hrest, h.globals, h.unnamed, h.input, h.output⟩

theorem store (h : Matches p s m) (hn : ∀ y, .mem y ∉ p.pending) (x : String) (v : Int32) :
    Matches p {s with globals := fun y => if y = x then v else s.globals y}
      (m.put (.ofGlobal x) v) := by
  refine ⟨?_, ?_, ?_, h.input, h.output⟩
  · rw [← h.pending]
    apply List.map_congr_left
    intro o ho
    apply m.read_put_of_ne v
    rintro rfl
    exact hn _ ho
  · intro y
    show (if "global_" ++ y = "global_" ++ x then v else m.globals ("global_" ++ y)) = _
    rw [h.globals y]
    simp only [String.append_right_inj]
  · intro y hy
    rw [m.put_globals_of_ne v (by rintro ⟨⟩; exact hy x rfl)]
    exact h.unnamed y hy

end Matches

/-! ### Canonical placements -/

theorem scratch_not_live (hc : p.Canonical) : ∀ r ∈ scratch, r ∉ p.live := by
  intro r hr hlive
  have hlt := hc.live_lt hlive
  have hge : ∀ r ∈ scratch, 4 ≤ r.index.toNat := by decide
  have := hge r hr
  omega

theorem apart_of_mem (hc : p.Canonical) (ho : o ∈ p.pending) : ∀ r ∈ scratch, o ≠ .reg r := by
  rintro r hr rfl
  exact scratch_not_live hc r hr (Placement.mem_live.mpr ho)

theorem writable_of_mem (hc : p.Canonical) (ho : o ∈ p.pending) : o.Writable := by
  have hw := hc.within ho
  cases o with
  | reg r => exact hc.index_lt r (Placement.mem_live.mpr ho)
  | slot k => trivial
  | mem x => trivial
  | imm n => exact hw.elim

theorem mem_not_pending (hc : p.Canonical) (x : String) : .mem x ∉ p.pending :=
  fun ho => hc.within ho

/-- A value that is left at the next location is the newest pending one. -/
theorem Matches.pushed (hm : Matches p s m) (hc : (p.push o).Canonical)
    (ha : AgreeOutside scratch (m.put o v) m') :
    Matches (p.push o) {s with stack := v :: s.stack} m' ∧ Spares p.registers m m' := by
  have ho : o ∈ (p.push o).pending := List.mem_cons_self ..
  have hn : ∀ x, o ≠ .mem x := by
    rintro x rfl
    exact mem_not_pending hc x ho
  have hput := hm.push (hc.head_not_mem rfl) (writable_of_mem hc ho) hn v
  refine ⟨hput.agree ha (scratch_not_live hc), ?_⟩
  have hspares : Spares p.registers m (m.put o v) := .put (hc.within ho) m v
  exact hspares.trans (.agree ha (by decide))

/-! ### The code of one operation -/

/-- The code ends with a machine that matches, and has kept what is not its own. -/
def Takes (m : Machine) (code : List Instr) (registers : UInt8) (q : Placement) (t : EvalState) :
    Prop :=
  ∃ m', m.Ends code m' ∧ Matches q t m' ∧ Spares registers m m'

theorem read_takes {dst : Operand} {rest : List Int32} (hc : p.Canonical) (hm : Matches p s m)
    (ha : p.allocate = .ok (dst, q)) (hl : ∀ r ∈ q.live, r.index < 8)
    (hi : s.input = v :: rest) :
    Takes m (Lowering.around q [.call "read"] ++ Lowering.move Reg.eax dst) p.registers (q.push dst)
      {s with stack := v :: s.stack, input := rest} := by
  obtain ⟨-, hq, hpush⟩ := hc.allocate ha
  have hg := Placement.allocate_grown ha
  have heax := scratch_not_live hq _ Lowering.eax_mem_scratch
  obtain ⟨m₁, hcall, hv, ha₁⟩ := Lowering.read_call_ends hl heax (hm.input.trans hi)
  have hread : m₁.read (.reg .eax) = .ok v := by rw [m₁.read_reg (by decide), hv]
  obtain ⟨m₂, hmove, ha₂⟩ :=
    Lowering.move_ends hread (writable_of_mem hpush (List.mem_cons_self ..))
  have hm₁ := ((hm.of_pending hg.pending).withInput rest).agree ha₁ (clobbered_not_live q)
  obtain ⟨hm₂, hkept₂⟩ := hm₁.pushed hpush (ha₂.mono (by decide))
  have hkept : Spares p.registers m {m with input := rest} := ⟨fun _ _ _ => rfl, rfl⟩
  have hkept₁ : Spares p.registers {m with input := rest} m₁ :=
    .agree ha₁ fun r hr => (List.mem_filter.mp hr).1
  rw [hg.registers] at hkept₂
  exact ⟨m₂, hcall.append hmove, hm₂, (hkept.trans hkept₁).trans hkept₂⟩

theorem write_takes {value : Operand} {rest : List Operand} {vs : List Int32}
    (hm : Matches p s m) (hp : p.pending = value :: rest)
    (hl : ∀ r ∈ ({p with pending := rest} : Placement).live, r.index < 8)
    (hs : s.stack = v :: vs) :
    Takes m (Lowering.around {p with pending := rest} [.push value, .call "write", .pop Reg.eax])
      p.registers {p with pending := rest} {s with stack := vs, output := s.output ++ [v]} := by
  obtain ⟨v', vs', hs', hread, hrest⟩ := hm.pop hp
  cases hs.symm.trans hs'
  obtain ⟨m₁, hcall, ha⟩ := Lowering.write_call_ends hl hread
  have hm₁ := (hrest.withOutput v).agree ha (clobbered_not_live _)
  have hkept : Spares p.registers m {m with output := m.output ++ [v]} := ⟨fun _ _ _ => rfl, rfl⟩
  exact ⟨m₁, hcall, hm₁, hkept.trans (.agree ha fun r hr => (List.mem_filter.mp hr).1)⟩

theorem const_takes {dst : Operand} (hc : p.Canonical) (hm : Matches p s m)
    (ha : p.allocate = .ok (dst, q)) (v : Int32) :
    Takes m [.mov (.imm v) dst] p.registers (q.push dst) {s with stack := v :: s.stack} := by
  obtain ⟨-, -, hpush⟩ := hc.allocate ha
  have hg := Placement.allocate_grown ha
  have hstep : m.step (.mov (.imm v) dst) = .ok (m.put dst v) :=
    Machine.step_mov (by simp [Operand.inMemory]) rfl (writable_of_mem hpush (List.mem_cons_self ..))
  obtain ⟨hm', hkept⟩ := (hm.of_pending hg.pending).pushed hpush (.refl _ (m.put dst v))
  rw [hg.registers] at hkept
  exact ⟨_, .one hstep, hm', hkept⟩

theorem load_takes {dst : Operand} {x : String} (hc : p.Canonical) (hm : Matches p s m)
    (ha : (p.addGlobal x).allocate = .ok (dst, q)) :
    Takes m (Lowering.move (.ofGlobal x) dst) p.registers (q.push dst)
      {s with stack := s.globals x :: s.stack} := by
  obtain ⟨-, -, hpush⟩ := (hc.addGlobal x).allocate ha
  have hg := Placement.allocate_grown ha
  have hread : m.read (.ofGlobal x) = .ok (s.globals x) := congrArg _ (hm.globals x)
  obtain ⟨m₁, hmove, ha₁⟩ :=
    Lowering.move_ends hread (writable_of_mem hpush (List.mem_cons_self ..))
  have hm₀ := hm.of_pending (hg.pending.trans (p.addGlobal_pending x))
  obtain ⟨hm₁, hkept⟩ := hm₀.pushed hpush (ha₁.mono (by decide))
  rw [hg.registers, p.addGlobal_registers x] at hkept
  exact ⟨m₁, hmove, hm₁, hkept⟩

theorem store_takes {src : Operand} {rest : List Operand} {vs : List Int32} {x : String}
    (hc : p.Canonical) (hm : Matches p s m) (hp : p.pending = src :: rest)
    (hs : s.stack = v :: vs) :
    Takes m (Lowering.move src (.ofGlobal x)) p.registers {p.addGlobal x with pending := rest}
      {s with stack := vs, globals := fun y => if y = x then v else s.globals y} := by
  obtain ⟨v', vs', hs', hread, hrest⟩ := hm.pop hp
  cases hs.symm.trans hs'
  have hcrest := hc.pop hp
  have hcell : (Operand.ofGlobal x).Writable := trivial
  obtain ⟨m₁, hmove, ha⟩ := Lowering.move_ends hread hcell
  have hm₁ := (hrest.store (mem_not_pending hcrest) x v).agree ha fun r hr =>
    scratch_not_live hcrest r (by revert r; decide)
  have hkept : Spares p.registers m (m.put (.ofGlobal x) v) := ⟨fun _ _ _ => rfl, rfl⟩
  exact ⟨m₁, hmove, hm₁.of_pending rfl, hkept.trans (.agree ha (by decide))⟩

/-- The two values of an operator, where the code of the operator expects them. -/
theorem Matches.operands {src dst : Operand} {rest : List Operand} {vs : List Int32} {l r : Int32}
    (hm : Matches p s m) (hc : p.Canonical) (hp : p.pending = src :: dst :: rest)
    (hs : s.stack = r :: l :: vs) :
    Lowering.Operands m src dst l r ∧ Matches {p with pending := rest} {s with stack := vs} m := by
  obtain ⟨r', vs₁, hs₁, hsrc, hm₁⟩ := hm.pop hp
  cases hs.symm.trans hs₁
  obtain ⟨l', vs₂, hs₂, hdst, hm₂⟩ := hm₁.pop rfl
  cases hs₂
  have hmem : dst ∈ p.pending := by rw [hp]; simp
  exact ⟨⟨hsrc, hdst, writable_of_mem hc hmem, apart_of_mem hc (by rw [hp]; simp),
    apart_of_mem hc hmem⟩, hm₂⟩

theorem binary_takes {op : Operator} {src dst : Operand} {rest : List Operand} {vs : List Int32}
    {l r : Int32} (hc : p.Canonical) (hm : Matches p s m) (hp : p.pending = src :: dst :: rest)
    (hs : s.stack = r :: l :: vs) (hv : op.eval false l r = .ok v) :
    Takes m (Lowering.operator op src dst) p.registers {p with pending := dst :: rest}
      {s with stack := v :: vs} := by
  obtain ⟨hop, hm₀⟩ := hm.operands hc hp hs
  obtain ⟨hdivisor, rfl⟩ := Operator.eval_eq_ok hv
  obtain ⟨m₁, hend, ha⟩ := Lowering.operator_ends hop hdivisor
  obtain ⟨hm₁, hkept⟩ := hm₀.pushed (hc.pop hp) ha
  exact ⟨m₁, hend, hm₁, hkept⟩

/-- **The code of an operation does what the operation means**, and keeps what is not its own. -/
theorem Lowers.takes (h : Lowers p op code q) (hc : p.Canonical) (hm : Matches p s m)
    (hs : EvalState.Steps false s op t) : Takes m code p.registers q t := by
  cases h with
  | read ha hl =>
    cases hs with
    | read hi => exact read_takes hc hm ha hl hi
  | write hp hl =>
    cases hs with
    | write hs => exact write_takes hm hp hl hs
  | const ha =>
    cases hs with
    | const => exact const_takes hc hm ha _
  | load ha =>
    cases hs with
    | load => exact load_takes hc hm ha
  | store hp =>
    cases hs with
    | store hs => exact store_takes hc hm hp hs
  | binary hp =>
    cases hs with
    | binary hs hv => exact binary_takes hc hm hp hs hv

/-! ### Operations that cannot be taken -/

/-- An operation that finds its values and yet cannot be taken, and the fault of its code. -/
inductive Blocked (s : EvalState) : Op → Machine.Fault → Prop where
  | input : s.input = [] → Blocked s .read .inputExhausted
  | divisor {op l vs} : op.divides = true → s.stack = 0 :: l :: vs →
      Blocked s (.binary op) .divisionByZero

theorem Blocked.fault {f : Machine.Fault} (h : Blocked s op f) :
    f = .inputExhausted ∨ f = .divisionByZero := by
  cases h with
  | input => exact .inl rfl
  | divisor => exact .inr rfl

/-- **The code of a blocked operation fails**, and up to there it has put nothing out and changed
no global. -/
theorem Lowers.fails {f : Machine.Fault} (h : Lowers p op code q) (hc : p.Canonical)
    (hm : Matches p s m) (hb : Blocked s op f) :
    ∃ m', m.Fails code m' f ∧ m'.output = m.output ∧ m'.globals = m.globals := by
  cases hb with
  | input hi =>
    cases h with
    | read ha hl =>
      exact ⟨_, (Lowering.read_call_fails hl (hm.input.trans hi)).append _, rfl, rfl⟩
  | divisor hd hs =>
    cases h with
    | binary hp =>
      obtain ⟨hop, -⟩ := hm.operands hc hp hs
      exact ⟨_, Lowering.operator_fails hop hd, rfl, rfl⟩

/-- Nothing else keeps an operation that finds its values from being taken. -/
theorem steps_or_blocked (h : op.pops ≤ s.stack.length) :
    (∃ t, EvalState.Steps false s op t) ∨ ∃ f, Blocked s op f := by
  cases op with
  | read =>
    cases hi : s.input with
    | nil => exact .inr ⟨_, .input hi⟩
    | cons v rest => exact .inl ⟨_, .read hi⟩
  | write =>
    cases hs : s.stack with
    | nil => simp [hs, Op.pops] at h
    | cons v vs => exact .inl ⟨_, .write hs⟩
  | const v => exact .inl ⟨_, .const⟩
  | load x => exact .inl ⟨_, .load⟩
  | store x =>
    cases hs : s.stack with
    | nil => simp [hs, Op.pops] at h
    | cons v vs => exact .inl ⟨_, .store hs⟩
  | binary op =>
    cases hs : s.stack with
    | nil => simp [hs, Op.pops] at h
    | cons r vs =>
      cases vs with
      | nil => simp [hs, Op.pops] at h
      | cons l vs =>
        by_cases hz : op.divides = true ∧ r = 0
        · obtain ⟨hd, rfl⟩ := hz
          exact .inr ⟨_, .divisor hd hs⟩
        · have hv : op.eval false l r = .ok (op.value l r) := by
            simp [Operator.eval, hz]
          exact .inl ⟨_, .binary hs hv⟩

end StackBackend
