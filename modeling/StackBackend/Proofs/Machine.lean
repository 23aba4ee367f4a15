import StackBackend.Target.Machine

/-! Running straight code, one instruction at a time.

`Ends` and `Fails` are the two ways in which code without a return can stop, and they compose along
`++`. A location is written by `put`, which is what `write` does where it succeeds. `AgreeOutside`
says that two machines differ in some registers and in the flags at most: code that uses scratch
registers is described by the machine it would leave without them, up to `AgreeOutside`. -/
namespace StackBackend

namespace Operand

/-- Whether a value can be left there. -/
def Writable : Operand → Prop
  | reg r => r.index < 8
  | slot _ | mem _ => True
  | imm _ => False

end Operand

namespace Machine

/-! ### Cells -/

/-- The machine with `v` at a location. A number is no location. -/
def put (m : Machine) (o : Operand) (v : Int32) : Machine :=
  match o with
  | .reg r => m.setReg r v
  | .slot i => {m with slots := update m.slots i (some v)}
  | .mem x => {m with globals := update m.globals x v}
  | .imm _ => m

theorem write_eq_put (m : Machine) {o : Operand} (v : Int32) (h : o.Writable) :
    m.write o v = .ok (m.put o v) := by
  cases o with
  | reg r =>
    have hr : r.index < 8 := h
    simp [write, put, hr]
  | slot i => rfl
  | mem x => rfl
  | imm n => exact h.elim

@[simp] theorem put_stack (m : Machine) (o : Operand) (v : Int32) : (m.put o v).stack = m.stack := by
  cases o <;> rfl

@[simp] theorem put_input (m : Machine) (o : Operand) (v : Int32) : (m.put o v).input = m.input := by
  cases o <;> rfl

@[simp] theorem put_output (m : Machine) (o : Operand) (v : Int32) :
    (m.put o v).output = m.output := by
  cases o <;> rfl

theorem put_reg_regs (m : Machine) (r r' : Reg) (v : Int32) :
    (m.put (.reg r) v).regs r' = if r' = r then v else m.regs r' := rfl

/-- Registers other than the one written stay. -/
theorem put_regs_of_ne (m : Machine) {o : Operand} {r : Reg} (v : Int32) (h : o ≠ .reg r) :
    (m.put o v).regs r = m.regs r := by
  cases o with
  | reg r' =>
    have hr : r ≠ r' := fun he => h (by rw [he])
    simp [put_reg_regs, hr]
  | slot i => rfl
  | mem x => rfl
  | imm n => rfl

theorem put_globals_of_ne (m : Machine) {o : Operand} {x : String} (v : Int32) (h : o ≠ .mem x) :
    (m.put o v).globals x = m.globals x := by
  cases o with
  | reg r => rfl
  | slot i => rfl
  | mem y =>
    have hx : x ≠ y := fun he => h (by rw [he])
    simp [put, update, hx]
  | imm n => rfl

theorem put_slots_of_ne (m : Machine) {o : Operand} {i : UInt32} (v : Int32) (h : o ≠ .slot i) :
    (m.put o v).slots i = m.slots i := by
  cases o with
  | reg r => rfl
  | slot j =>
    have hi : i ≠ j := fun he => h (by rw [he])
    simp [put, update, hi]
  | mem x => rfl
  | imm n => rfl

theorem read_put_self (m : Machine) {o : Operand} (v : Int32) (h : o.Writable) :
    (m.put o v).read o = .ok v := by
  cases o with
  | reg r =>
    have hr : r.index < 8 := h
    simp [read, put_reg_regs, hr]
  | slot i => simp [read, put, update]
  | mem x => simp [read, put, update]
  | imm n => exact h.elim

/-- What is at other locations stays. -/
theorem read_put_of_ne (m : Machine) {o d : Operand} (v : Int32) (h : o ≠ d) :
    (m.put d v).read o = m.read o := by
  cases o with
  | reg r => simp only [read, put_regs_of_ne m v h.symm]
  | slot i =>
    cases d with
    | slot j =>
      have hi : i ≠ j := fun he => h (by rw [he])
      simp [read, put, update, hi]
    | reg r => rfl
    | mem x => rfl
    | imm n => rfl
  | mem x => simp only [read, put_globals_of_ne m v h.symm]
  | imm n => rfl

theorem read_reg (m : Machine) {r : Reg} (h : r.index < 8) : m.read (.reg r) = .ok (m.regs r) := by
  simp [read, h]

/-- What can be read can be written, numbers apart. -/
theorem writable_of_read {m : Machine} {o : Operand} {v : Int32} (h : m.read o = .ok v)
    (ho : ∀ n, o ≠ .imm n) : o.Writable := by
  cases o with
  | reg r =>
    simp only [read] at h
    split at h
    next hr => exact hr
    next => cases h
  | slot i => trivial
  | mem x => trivial
  | imm n => exact absurd rfl (ho n)

/-! ### Machines that agree outside some registers -/

/-- Equal apart from the registers `rs` and the flags. -/
structure AgreeOutside (rs : List Reg) (m m' : Machine) : Prop where
  regs : ∀ r, r ∉ rs → m'.regs r = m.regs r
  slots : m'.slots = m.slots
  globals : m'.globals = m.globals
  stack : m'.stack = m.stack
  input : m'.input = m.input
  output : m'.output = m.output

namespace AgreeOutside

variable {rs : List Reg} {m m' m'' : Machine}

theorem refl (rs : List Reg) (m : Machine) : AgreeOutside rs m m :=
  ⟨fun _ _ => rfl, rfl, rfl, rfl, rfl, rfl⟩

theorem trans (h : AgreeOutside rs m m') (g : AgreeOutside rs m' m'') : AgreeOutside rs m m'' :=
  ⟨fun r hr => (g.regs r hr).trans (h.regs r hr), g.slots.trans h.slots, g.globals.trans h.globals,
    g.stack.trans h.stack, g.input.trans h.input, g.output.trans h.output⟩

theorem mono {ss : List Reg} (h : AgreeOutside rs m m') (hs : ∀ r ∈ rs, r ∈ ss) :
    AgreeOutside ss m m' :=
  ⟨fun r hr => h.regs r fun hm => hr (hs r hm), h.slots, h.globals, h.stack, h.input, h.output⟩

/-- Flags are not compared. -/
theorem flags (rs : List Reg) (m : Machine) (f : Option (Int32 × Int32)) :
    AgreeOutside rs m {m with flags := f} :=
  ⟨fun _ _ => rfl, rfl, rfl, rfl, rfl, rfl⟩

/-- One of the registers that are not compared is written. -/
theorem scratch {r : Reg} (hr : r ∈ rs) (m : Machine) (v : Int32) :
    AgreeOutside rs m (m.put (.reg r) v) := by
  refine ⟨fun r' hr' => ?_, rfl, rfl, rfl, rfl, rfl⟩
  apply put_regs_of_ne
  rintro ⟨⟩
  exact hr' hr

/-- The same value is left at the same location of both. -/
theorem put (h : AgreeOutside rs m m') (o : Operand) (v : Int32) :
    AgreeOutside rs (m.put o v) (m'.put o v) := by
  cases o with
  | reg r =>
    refine ⟨fun r' hr' => ?_, h.slots, h.globals, h.stack, h.input, h.output⟩
    simp only [put_reg_regs, h.regs r' hr']
  | slot i =>
    refine ⟨h.regs, ?_, h.globals, h.stack, h.input, h.output⟩
    simp only [Machine.put, h.slots]
  | mem x =>
    refine ⟨h.regs, h.slots, ?_, h.stack, h.input, h.output⟩
    simp only [Machine.put, h.globals]
  | imm n => exact h

/-- A location that is none of the registers holds the same value in both. -/
theorem read (h : AgreeOutside rs m m') {o : Operand} (ho : ∀ r ∈ rs, o ≠ .reg r) :
    m'.read o = m.read o := by
  cases o with
  | reg r =>
    have hr : r ∉ rs := fun hm => ho r hm rfl
    simp only [Machine.read, h.regs r hr]
  | slot i => simp only [Machine.read, h.slots]
  | mem x => simp only [Machine.read, h.globals]
  | imm n => rfl

end AgreeOutside

/-! ### Runs that end and runs that fail -/

/-- The code runs to its end and leaves `m'`. -/
def Ends (m : Machine) (code : List Instr) (m' : Machine) : Prop := m.run code = ⟨m', .ended⟩

/-- The code stops with a fault, at an instruction that finds `m'`. -/
def Fails (m : Machine) (code : List Instr) (m' : Machine) (f : Fault) : Prop :=
  m.run code = ⟨m', .faulted f⟩

variable {m m₁ m₂ : Machine} {a b : List Instr} {i : Instr} {f : Fault}

theorem Ends.nil (m : Machine) : m.Ends [] m := rfl

theorem Ends.cons (h : m.step i = .ok m₁) (ht : m₁.Ends a m₂) (hr : i ≠ .ret := by simp) :
    m.Ends (i :: a) m₂ := by
  unfold Ends at *
  simp only [run, h, hr, if_false, ht]

theorem Ends.one (h : m.step i = .ok m₁) (hr : i ≠ .ret := by simp) : m.Ends [i] m₁ :=
  .cons h (.nil m₁) hr

/-- Code that ends leaves the rest of the run to what follows it. -/
theorem Ends.run_append (h : m.Ends a m₁) (b : List Instr) : m.run (a ++ b) = m₁.run b := by
  unfold Ends at h
  rw [Machine.run_append, h]

theorem Ends.append (h : m.Ends a m₁) (g : m₁.Ends b m₂) : m.Ends (a ++ b) m₂ :=
  (h.run_append b).trans g

theorem Fails.head (h : m.step i = .error f) : m.Fails (i :: a) m f := by
  unfold Fails
  simp only [run, h]

/-- What follows the failing instruction is not run. -/
theorem Fails.append (h : m.Fails a m₁ f) (b : List Instr) : m.Fails (a ++ b) m₁ f := by
  unfold Fails at *
  rw [run_append, h]

theorem Ends.append_fails (h : m.Ends a m₁) (g : m₁.Fails b m₂ f) : m.Fails (a ++ b) m₂ f :=
  (h.run_append b).trans g

/-! ### Single instructions -/

variable {s d : Operand} {v w : Int32}

theorem step_mov (h : (s.inMemory && d.inMemory) = false) (hs : m.read s = .ok v)
    (hd : d.Writable) : m.step (.mov s d) = .ok (m.put d v) := by
  simp only [step, Instr.isMemoryToMemory_mov, h, execute, hs]
  exact write_eq_put m v hd

theorem step_alu {op : Alu} (hop : op ≠ .cmp) (h : (s.inMemory && d.inMemory) = false)
    (hd : m.read d = .ok v) (hs : m.read s = .ok w) (hw : d.Writable) :
    m.step (.alu op s d) = .ok {m.put d (alu op v w) with flags := none} := by
  have he : m.execute (.alu op s d) = .ok {m.put d (alu op v w) with flags := none} := by
    cases op <;> simp_all [execute, write_eq_put m _ hw, bind, Except.bind, pure, Except.pure]
  simp only [step, Instr.isMemoryToMemory_alu, h, he]
  rfl

theorem step_cmp (h : (s.inMemory && d.inMemory) = false) (hd : m.read d = .ok v)
    (hs : m.read s = .ok w) : m.step (.alu .cmp s d) = .ok {m with flags := some (v, w)} := by
  simp only [step, Instr.isMemoryToMemory_alu, h, execute, hd, hs]
  rfl

theorem step_push (hs : m.read s = .ok v) :
    m.step (.push s) = .ok {m with stack := v :: m.stack} := by
  simp only [step, Instr.isMemoryToMemory_push, execute, hs]
  rfl

theorem step_pop {rest : List Int32} (hm : m.stack = v :: rest) (hd : d.Writable) :
    m.step (.pop d) = .ok (({m with stack := rest} : Machine).put d v) := by
  simp only [step, Instr.isMemoryToMemory_pop, execute, hm]
  exact write_eq_put _ v hd

theorem step_set {c : Cond} {byte : ByteReg} (hf : m.flags = some (v, w)) :
    m.step (.set c byte) =
      .ok (m.put (.reg byte.full)
        ((m.regs byte.full &&& ~~~0xff) ||| if holds c v w then 1 else 0)) := by
  simp only [step, execute, hf]
  rfl

theorem step_idiv (hs : m.read s = .ok v) : m.step (.idiv s) = m.divide v := by
  simp only [step, Instr.isMemoryToMemory_idiv, execute, hs]
  rfl

theorem step_call_read {rest : List Int32} (hi : m.input = v :: rest) : m.step (.call "read") =
    .ok {m.clobberCallerSaved.setReg .eax v with input := rest, flags := none} := by
  show m.callRoutine "read" = _
  simp only [callRoutine, hi]

theorem step_call_read_nil (hi : m.input = []) :
    m.step (.call "read") = .error .inputExhausted := by
  show m.callRoutine "read" = _
  simp only [callRoutine, hi]

theorem step_call_write {rest : List Int32} (hm : m.stack = v :: rest) : m.step (.call "write") =
    .ok {m.clobberCallerSaved with output := m.output ++ [v], flags := none} := by
  show m.callRoutine "write" = _
  simp only [callRoutine, hm]

/-! ### Saved registers -/

theorem pushes_end (m : Machine) (rs : List Reg) (h : ∀ r ∈ rs, r.index < 8) :
    m.Ends (rs.map fun r => .push (.reg r)) {m with stack := (rs.map m.regs).reverse ++ m.stack} := by
  induction rs generalizing m with
  | nil => exact .nil m
  | cons r rs ih =>
    have hstep := step_push (m.read_reg (h r (List.mem_cons_self ..)))
    have hrest := ih {m with stack := m.regs r :: m.stack} fun x hx => h x (List.mem_cons_of_mem _ hx)
    simp only [List.map_cons, List.reverse_cons, List.append_assoc, List.singleton_append]
    exact .cons hstep hrest

theorem pops_end (m : Machine) (rs : List Reg) (old : Reg → Int32) (rest : List Int32)
    (h : ∀ r ∈ rs, r.index < 8) (hm : m.stack = rs.map old ++ rest) :
    m.Ends (rs.map fun r => .pop (.reg r))
      {m with regs := fun r => if r ∈ rs then old r else m.regs r, stack := rest} := by
  induction rs generalizing m with
  | nil =>
    obtain rfl : m.stack = rest := hm
    exact .nil m
  | cons r rs ih =>
    let m₁ := ({m with stack := rs.map old ++ rest} : Machine).put (.reg r) (old r)
    have hstep : m.step (.pop (.reg r)) = .ok m₁ := step_pop hm (h r (List.mem_cons_self ..))
    have hrest := ih m₁ (fun x hx => h x (List.mem_cons_of_mem _ hx)) rfl
    -- A register that is popped again later gets the same value again.
    have hregs : (fun x => if x ∈ rs then old x else m₁.regs x) =
        fun x => if x ∈ r :: rs then old x else m.regs x := by
      funext x
      by_cases hx : x ∈ rs
      · simp [hx]
      · by_cases hr : x = r
        · simp [hr, m₁, put_reg_regs]
        · simp [hx, hr, m₁, put_reg_regs]
    rw [hregs] at hrest
    exact .cons hstep hrest

/-- Registers pushed before some code and popped after it hold their old values in the end, if
the code leaves the stack as it found it. -/
theorem saved_end (m : Machine) (rs : List Reg) (h : ∀ r ∈ rs, r.index < 8) (m₁ : Machine)
    (ha : ({m with stack := (rs.map m.regs).reverse ++ m.stack} : Machine).Ends a m₁)
    (hs : m₁.stack = (rs.map m.regs).reverse ++ m.stack) :
    m.Ends ((rs.map fun r => .push (.reg r)) ++ a ++ rs.reverse.map fun r => .pop (.reg r))
      {m₁ with regs := fun r => if r ∈ rs then m.regs r else m₁.regs r, stack := m.stack} := by
  rw [← List.map_reverse] at hs
  have hpops := pops_end m₁ rs.reverse m.regs m.stack (fun r hr => h r (List.mem_reverse.mp hr)) hs
  simp only [List.mem_reverse] at hpops
  exact ((m.pushes_end rs h).append ha).append hpops

end Machine

end StackBackend
