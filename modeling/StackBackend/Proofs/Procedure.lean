import StackBackend.Program
import StackBackend.Proofs.Correctness

/-! The procedure around a body keeps the calling convention.

A frame of fewer than 2^29 slots can be reserved, and then the procedure is its body between two
sequences of instructions that undo each other (`instructions_eq_ok`). `program_returns`: from any
machine, a procedure whose body does not fail returns zero, and its caller finds the stack and the
registers that belong to it as they were. -/
namespace StackBackend

theorem Reg.getElem?_table {r : Reg} (h : r.index.toNat < 8) : table[r.index.toNat]? = some r := by
  have htable : ∀ k < 8, table[k]? = some ⟨.ofNat k⟩ := by decide
  have hget := htable r.index.toNat h
  rw [UInt8.ofNat_toNat] at hget
  exact hget

namespace Program

/-! ### The parts of a procedure -/

/-- The instructions before the frame pointer is set. -/
def opening (p : Program) : List Instr :=
  .line ("\t.globl\t" ++ entry) :: p.data ++ [.line "\t.text", .line (entry ++ ":"), .push Reg.ebp]

/-- The frame is reserved by one instruction, if it has slots. -/
def reserved (p : Program) : List Instr :=
  if p.frame = 0 then [] else [.alu .sub (.imm (.ofInt (4 * p.frame.toNat))) Reg.esp]

/-- The code of a procedure up to where its registers are saved. -/
def entered (p : Program) : List Instr := p.opening ++ .mov Reg.esp Reg.ebp :: p.reserved

/-- The body with some registers saved around it. -/
def sheltered (p : Program) (rs : List Reg) : List Instr :=
  (rs.map fun r => .push (.reg r)) ++ p.body ++ rs.reverse.map fun r => .pop (.reg r)

/-- The code of a procedure from where its registers are restored. -/
def closing : List Instr := [.alu .xor Reg.eax Reg.eax, .mov Reg.ebp Reg.esp, .pop Reg.ebp, .ret]

/-- All instructions of a program, given those that reserve its frame. -/
def listed (p : Program) (reserved : List Instr) : List Instr :=
  p.opening ++ .mov Reg.esp Reg.ebp :: (reserved ++ (p.sheltered p.calleeSaved ++ closing))

variable {p : Program} {reserved : List Instr}

theorem frameBytes_eq_ok (h : p.frame.toNat < 536870912) :
    p.frameBytes = .ok (.ofInt (4 * p.frame.toNat)) := by
  have hslots : p.frame.toInt32.toInt = p.frame.toNat :=
    BitVec.toInt_eq_toNat_of_lt (by
      show 2 * p.frame.toNat < 4294967296
      omega)
  have hbytes : p.frame.toInt32.toInt * Operand.wordSize = 4 * p.frame.toNat := by
    rw [hslots, Int.mul_comm]
    rfl
  unfold frameBytes
  rw [hbytes, if_pos (by omega)]

theorem reserve_eq_ok (h : p.frame.toNat < 536870912) : p.reserve = .ok p.reserved := by
  unfold reserve reserved
  split
  · rfl
  · rw [frameBytes_eq_ok h]
    rfl

theorem instructions_eq (p : Program) : p.instructions = p.reserve.map p.listed := by
  unfold instructions prologue
  cases p.reserve with
  | error f => rfl
  | ok reserved =>
    refine congrArg Except.ok ?_
    simp [listed, epilogue, opening, sheltered, closing]

theorem reserve_eq_ok_iff : p.reserve = .ok reserved ↔ (p.frame = 0 ∧ reserved = []) ∨
    (p.frame ≠ 0 ∧ ∃ bytes, p.frameBytes = .ok bytes ∧
      [.alu .sub (.imm bytes) Reg.esp] = reserved) := by
  unfold reserve
  split
  next h => simp [h, eq_comm]
  next h =>
    simp only [h, bind_eq_ok, pure_eq_ok, ne_eq, not_false_eq_true, true_and, false_and, false_or]

/-- What holds of all instructions of a program. -/
theorem forall_mem_listed {P : Instr → Prop} (hreserve : p.reserve = .ok reserved)
    (hfixed : ∀ i ∈ [.line ("\t.globl\t" ++ entry), .line "\t.data", .line "\t.text",
      .line (entry ++ ":"), .push Reg.ebp, .mov Reg.esp Reg.ebp] ++ closing, P i)
    (hcells : ∀ x ∈ p.globals, P (cell x)) (hframe : ∀ v, P (.alu .sub (.imm v) Reg.esp))
    (hsaved : ∀ r ∈ p.calleeSaved, P (.push (.reg r)) ∧ P (.pop (.reg r)))
    (hbody : ∀ i ∈ p.body, P i) : ∀ i ∈ p.listed reserved, P i := by
  obtain ⟨hlines, hclosing⟩ := List.forall_mem_append.mp hfixed
  simp only [List.forall_mem_cons] at hlines
  obtain ⟨hglobl, hdata, htext, hentry, hpush, hmov, hnil⟩ := hlines
  have hreserved : ∀ i ∈ reserved, P i := by
    obtain ⟨-, rfl⟩ | ⟨-, bytes, -, rfl⟩ := reserve_eq_ok_iff.mp hreserve
    · exact hnil
    · exact List.forall_mem_singleton.mpr (hframe bytes)
  simp only [listed, opening, data, sheltered, List.forall_mem_append, List.forall_mem_cons,
    List.forall_mem_map, List.mem_reverse]
  exact ⟨⟨⟨hglobl, hdata, hcells⟩, htext, hentry, hpush, hnil⟩, hmov, hreserved,
    ⟨⟨fun r hr => (hsaved r hr).1, hbody⟩, fun r hr => (hsaved r hr).2⟩, hclosing⟩

theorem instructions_eq_ok (h : p.frame.toNat < 536870912) :
    p.instructions = .ok (p.entered ++ p.sheltered p.calleeSaved ++ closing) := by
  rw [instructions_eq, reserve_eq_ok h]
  simp [Except.map, listed, entered]

/-! ### The registers of the caller -/

theorem index_lt_of_mem_calleeSaved {registers : UInt8} {r : Reg}
    (h : r ∈ calleeSavedUpTo registers) : r.index < 8 := by
  have htable : ∀ r ∈ Reg.table, r.index < 8 := by decide
  exact htable r (List.mem_of_mem_take (List.mem_filter.mp h).1)

/-- A register that may be used is one that a call may change, or it is saved. -/
theorem mem_calleeSavedUpTo {registers : UInt8} {r : Reg} (hregs : registers.toNat ≤ 8)
    (hlt : r.index.toNat < registers.toNat) (hr : r ∉ Reg.callerSaved) :
    r ∈ calleeSavedUpTo registers := by
  have hget := Reg.getElem?_table (by omega : r.index.toNat < 8)
  rw [← List.getElem?_take_of_lt hlt] at hget
  exact List.mem_filter.mpr ⟨List.mem_of_getElem? hget, by simpa using hr⟩

end Program

/-! ### Runs -/

namespace Machine

variable {m : Machine} {p : Program}

theorem lines_end (m : Machine) {code : List Instr} (h : ∀ i ∈ code, i.isLine = true) :
    m.Ends code m := by
  induction code with
  | nil => exact .nil m
  | cons i code ih =>
    have hrest := ih fun j hj => h j (List.mem_cons_of_mem _ hj)
    cases i with
    | line text => exact .cons rfl hrest
    | _ => simp [Instr.isLine] at h

theorem opening_ends (m : Machine) (p : Program) :
    m.Ends p.opening {m with stack := m.regs .ebp :: m.stack} := by
  have hlines : ∀ i ∈ .line ("\t.globl\t" ++ Program.entry) :: p.data ++
      [.line "\t.text", .line (Program.entry ++ ":")], i.isLine = true := by
    intro i hi
    simp only [Program.data, Program.cell, List.cons_append, List.mem_cons, List.mem_append,
      List.mem_map, List.not_mem_nil, or_false] at hi
    rcases hi with rfl | rfl | ⟨x, -, rfl⟩ | rfl | rfl <;> rfl
  have hpush := step_push (m.read_reg (by decide : Reg.ebp.index < 8))
  have hend := (m.lines_end hlines).append (.one hpush)
  simpa [Program.opening] using hend

/-- Reserving the frame moves the stack pointer only. -/
theorem reserved_ends (m : Machine) (p : Program) :
    ∃ m', m.Ends p.reserved m' ∧ AgreeOutside [.esp] m m' := by
  unfold Program.reserved
  split
  · exact ⟨m, .nil m, .refl _ m⟩
  · have hstep := step_alu (s := .imm (.ofInt (4 * p.frame.toNat))) (by decide : Alu.sub ≠ .cmp)
      (by simp [Operand.inMemory]) (m.read_reg (by decide : Reg.esp.index < 8)) rfl
      (by decide : Reg.esp.index < 8)
    exact ⟨_, .one hstep,
      (AgreeOutside.scratch (List.mem_singleton.mpr rfl) m _).trans (.flags _ _ _)⟩

/-- What the body finds: the caller's frame pointer on top of the stack, the caller's stack
pointer in its place, and everything else as it was. -/
theorem entered_ends (m : Machine) (p : Program) :
    ∃ m', m.Ends p.entered m' ∧ m'.regs .ebp = m.regs .esp ∧
      AgreeOutside [.ebp, .esp] {m with stack := m.regs .ebp :: m.stack} m' := by
  let m₁ : Machine := {m with stack := m.regs .ebp :: m.stack}
  have hmov : m₁.step (.mov Reg.esp Reg.ebp) = .ok (m₁.put (.reg .ebp) (m.regs .esp)) :=
    step_mov (by simp [Operand.inMemory]) (m₁.read_reg (by decide : Reg.esp.index < 8))
      (by decide : Reg.ebp.index < 8)
  obtain ⟨m₂, hend, ha⟩ := reserved_ends (m₁.put (.reg .ebp) (m.regs .esp)) p
  refine ⟨m₂, (m.opening_ends p).append (.cons hmov hend), ?_, ?_⟩
  · rw [ha.regs .ebp (by decide), put_reg_regs, if_pos rfl]
  · exact (AgreeOutside.scratch (by decide) m₁ _).trans (ha.mono (by decide))

/-- The end of a procedure: zero is the result, the stack pointer is what the frame pointer was,
and the frame pointer comes from the stack. -/
theorem closing_returns {v : Int32} {rest : List Int32} (hm : m.stack = v :: rest) :
    ∃ m', m.run Program.closing = ⟨m', .returned⟩ ∧ m'.regs .eax = 0 ∧
      m'.regs .esp = m.regs .ebp ∧ m'.regs .ebp = v ∧
      AgreeOutside [.eax, .esp, .ebp] {m with stack := rest} m' := by
  let m₁ : Machine := {m.put (.reg .eax) 0 with flags := none}
  have hclear : m.step (.alu .xor Reg.eax Reg.eax) = .ok m₁ := Lowering.step_clear m (by decide)
  let m₂ := m₁.put (.reg .esp) (m.regs .ebp)
  have hmov : m₁.step (.mov Reg.ebp Reg.esp) = .ok m₂ :=
    step_mov (by simp [Operand.inMemory]) (m₁.read_reg (by decide : Reg.ebp.index < 8))
      (by decide : Reg.esp.index < 8)
  let m₃ := ({m₂ with stack := rest} : Machine).put (.reg .ebp) v
  have hpop : m₂.step (.pop Reg.ebp) = .ok m₃ := step_pop hm (by decide : Reg.ebp.index < 8)
  have hend : m.Ends [.alu .xor Reg.eax Reg.eax, .mov Reg.ebp Reg.esp, .pop Reg.ebp] m₃ :=
    .cons hclear (.cons hmov (.one hpop))
  refine ⟨m₃, hend.run_append [.ret], rfl, rfl, rfl, ?_⟩
  refine ⟨fun r hr => ?_, rfl, rfl, rfl, rfl, rfl⟩
  simp only [List.mem_cons, List.not_mem_nil, or_false, not_or] at hr
  simp [m₃, m₂, m₁, put_reg_regs, hr]

end Machine

variable {l : Lowering} {ops : List (Located Op)} {r : Lowered} {input : List Int32}
  {t : EvalState} {m n : Machine}

/-- The body between the pushes and the pops of the registers that it uses and its caller expects
back. `n` is any machine at the end of the evaluation. -/
theorem sheltered_ends (hcode : l.code (.empty l.registers) ops = .ok (r.body, r.placement))
    (ht : (EvalState.start input).run false (ops.map (·.val)) = .ok t) (hm : m.Fresh input)
    (hn : Matches r.placement t n) :
    ∃ m', m.Ends ((Program.ofLowered r).sheltered (Program.ofLowered r).calleeSaved) m' ∧
      (∀ x, x ∉ Reg.callerSaved → m'.regs x = m.regs x) ∧ m'.stack = m.stack ∧
      m'.output = n.output ∧ m'.globals = n.globals := by
  let rs := Program.calleeSavedUpTo r.placement.registers
  let m₁ : Machine := {m with stack := (rs.map m.regs).reverse ++ m.stack}
  have hfresh : m₁.Fresh input := ⟨hm.input, hm.output, hm.globals⟩
  have hc := Placement.canonical_empty l.registers
  obtain ⟨m₂, hend, hm₂, hkept⟩ := code_takes hcode hc (hfresh.matches _) ht
  obtain ⟨hlast, hregs, -⟩ := Lowering.code_canonical hcode hc
  rw [← hregs] at hkept
  have hglobals : m₂.globals = n.globals := hn.globals_eq hm₂
  refine ⟨_, m.saved_end rs (fun x hx => Program.index_lt_of_mem_calleeSaved hx) m₂ hend hkept.stack,
    fun x hx => ?_, rfl, hm₂.output.trans hn.output.symm, hglobals⟩
  show (if x ∈ rs then m.regs x else m₂.regs x) = m.regs x
  split
  next => rfl
  next hsaved =>
    -- The body has no use for a register that it may change and that is not saved.
    have hfour := hlast.le_four
    have hbeyond : r.placement.registers.toNat ≤ x.index.toNat := by
      apply Nat.le_of_not_lt
      exact fun hlt => hsaved (Program.mem_calleeSavedUpTo (by omega) hlt hx)
    exact hkept.regs x hbeyond hx

/-- **A procedure keeps the calling convention.** If the frame has fewer than 2^29 slots and the body
does not fail on an input, then the whole procedure returns zero on it, from any machine, with the
caller's registers and stack as they were and the output and the globals of the body. -/
theorem program_returns (registers : UInt8) (comments : Bool) (ops : List (Located Op)) (r : Lowered)
    (hr : (Lowering.ofOptions registers comments).lower ops = .ok r)
    (hframe : r.placement.frame.toNat < 536870912) (input : List Int32) (n : Machine)
    (hn : n.Fresh input) (hbody : ∀ f, (n.run r.body).stop ≠ .faulted f) :
    ∃ code, (Program.ofLowered r).instructions = .ok code ∧
      ∀ m : Machine, m.Fresh input → ∃ m', m.run code = ⟨m', .returned⟩ ∧ m'.regs .eax = 0 ∧
        (∀ x ∈ [Reg.ebx, .esi, .edi, .ebp, .esp], m'.regs x = m.regs x) ∧ m'.stack = m.stack ∧
        m'.output = (n.run r.body).machine.output ∧
        m'.globals = (n.run r.body).machine.globals := by
  have hcode := (Lowering.lower_eq_ok_iff.mp hr).1
  refine ⟨_, Program.instructions_eq_ok hframe, fun m hm => ?_⟩
  obtain ⟨t, ht⟩ := taken_of_not_faulted hcode hn hbody
  have hc := Placement.canonical_empty (Placement.usable registers)
  obtain ⟨n', hrun, hn', -⟩ := code_takes hcode hc (hn.matches _) ht
  rw [show n.run r.body = ⟨n', .ended⟩ from hrun]
  -- Entry, body and end of the procedure, one after the other.
  obtain ⟨m₁, hentry, hebp, ha₁⟩ := m.entered_ends (Program.ofLowered r)
  have hm₁ : m₁.Fresh input :=
    ⟨ha₁.input.trans hm.input, ha₁.output.trans hm.output, fun x => by
      rw [ha₁.globals]
      exact hm.globals x⟩
  obtain ⟨m₂, hend, hregs₂, hstack₂, houtput₂, hglobals₂⟩ := sheltered_ends hcode ht hm₁ hn'
  obtain ⟨m₃, hreturn, heax, hesp, hebp₃, ha₃⟩ :=
    Machine.closing_returns (hstack₂.trans ha₁.stack)
  have hkept : ∀ x, x ∉ Reg.callerSaved → x ≠ .ebp → x ≠ .esp → m₃.regs x = m.regs x := by
    intro x hx hxp hxs
    have hxa : x ≠ .eax := by
      rintro rfl
      exact hx (by decide)
    rw [ha₃.regs x (by simp [hxa, hxs, hxp])]
    exact (hregs₂ x hx).trans (ha₁.regs x (by simp [hxp, hxs]))
  refine ⟨m₃, ?_, heax, ?_, ha₃.stack, ha₃.output.trans houtput₂, ha₃.globals.trans hglobals₂⟩
  · rw [(hentry.append hend).run_append, hreturn]
  · simp only [List.mem_cons, List.not_mem_nil, or_false, forall_eq_or_imp, forall_eq]
    refine ⟨hkept _ (by decide) (by decide) (by decide), hkept _ (by decide) (by decide) (by decide),
      hkept _ (by decide) (by decide) (by decide), hebp₃, ?_⟩
    rw [hesp, hregs₂ .ebp (by decide), hebp]

/-- A listing that repeats an input while the values in both of its registers are pending. -/
def repeating : List (Located Op) :=
  [.const 1, .const 2, .read, .write, .binary .add, .store "x"].map (⟨·, .nowhere⟩)

def repeatingCode : Lowered where
  body := [.mov (.imm 1) Reg.ebx, .mov (.imm 2) Reg.ecx, .push Reg.ecx, .call "read", .pop Reg.ecx,
    .mov Reg.eax (.slot 0), .push Reg.ecx, .push (.slot 0), .call "write", .pop Reg.eax,
    .pop Reg.ecx, .alu .add Reg.ecx Reg.ebx, .mov Reg.ebx (.mem "global_x")]
  placement := ⟨[], 1, ["x"], 2⟩
  warnings := []

/-- A caller with something in every register and on the stack. -/
def busyCaller : Machine :=
  {Machine.start [7] with regs := fun r => .ofNat (100 + r.index.toNat), stack := [-1, -2]}

theorem repeating_returns :
    (Lowering.ofOptions 2 false).lower repeating = .ok repeatingCode ∧
    repeatingCode.placement.frame.toNat < 536870912 ∧ busyCaller.Fresh [7] ∧
    (∀ f, ((Machine.start [7]).run repeatingCode.body).stop ≠ .faulted f) ∧
    ∃ code m', (Program.ofLowered repeatingCode).instructions = .ok code ∧
      busyCaller.run code = ⟨m', .returned⟩ ∧ m'.regs .eax = 0 ∧ m'.regs .ebx = 100 ∧
      m'.regs .esp = 107 ∧ m'.stack = [-1, -2] ∧ m'.output = [7] ∧ m'.globals "global_x" = 3 := by
  have hlower : (Lowering.ofOptions 2 false).lower repeating = .ok repeatingCode := rfl
  have hframe : repeatingCode.placement.frame.toNat < 536870912 := by decide
  have hfresh : busyCaller.Fresh [7] := ⟨rfl, rfl, fun _ => rfl⟩
  have hbody : ∀ f, ((Machine.start [7]).run repeatingCode.body).stop ≠ .faulted f := by
    have hended : ((Machine.start [7]).run repeatingCode.body).stop = .ended := rfl
    simp [hended]
  obtain ⟨code, hcode, hrun⟩ := program_returns 2 false repeating repeatingCode hlower hframe [7] _
    (Machine.start_fresh [7]) hbody
  obtain ⟨m', hreturn, heax, hregs, hstack, houtput, hglobals⟩ := hrun busyCaller hfresh
  exact ⟨hlower, hframe, hfresh, hbody, code, m', hcode, hreturn, heax, hregs .ebx (by decide),
    hregs .esp (by decide), hstack, houtput, congrFun hglobals _⟩

end StackBackend
