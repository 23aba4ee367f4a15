import StackBackend.Lowering.Operator
import StackBackend.Proofs.Machine
import StackBackend.Stack.Eval

/-! The code of an operator computes the operator.

`operator_ends`: from any machine in which `src` holds the right value and `dst` the left one, the
code ends with the operator's value in `dst`, and nothing else has changed but the scratch
registers and the flags. `operator_fails`: a quotient or a remainder by zero is the one exception,
and it is noticed before anything but the scratch registers has changed. `operator_computes` states
both, location by location.

Both locations may be anything but a scratch register, and they may be the same. -/
namespace StackBackend.Lowering

open Machine (AgreeOutside)

/-- The registers that the operators' code uses for itself. -/
def scratch : List Reg := [.eax, .edx]

/-- Where the values of an operator are: the right one in `src`, the left one in `dst`. -/
structure Operands (m : Machine) (src dst : Operand) (l r : Int32) : Prop where
  right : m.read src = .ok r
  left : m.read dst = .ok l
  writable : dst.Writable
  srcApart : ∀ x ∈ scratch, src ≠ .reg x
  dstApart : ∀ x ∈ scratch, dst ≠ .reg x

/-- The code ends with `v` in `o`; apart from that it changes scratch registers and flags only. -/
def Leaves (m : Machine) (code : List Instr) (o : Operand) (v : Int32) : Prop :=
  ∃ m', m.Ends code m' ∧ AgreeOutside scratch (m.put o v) m'

variable {m m₁ : Machine} {src dst : Operand} {l r v : Int32}

theorem Operands.agree (h : Operands m src dst l r) (ha : AgreeOutside scratch m m₁) :
    Operands m₁ src dst l r :=
  ⟨by rw [ha.read h.srcApart, h.right], by rw [ha.read h.dstApart, h.left], h.writable,
    h.srcApart, h.dstApart⟩

theorem eax_mem_scratch : Reg.eax ∈ scratch := by decide

theorem edx_mem_scratch : Reg.edx ∈ scratch := by decide

/-! ### Pieces of code -/

/-- A value taken to a scratch register. -/
theorem load_scratch {x : Reg} (hx : x ∈ scratch) (hs : m.read src = .ok v) :
    m.step (.mov src (.reg x)) = .ok (m.put (.reg x) v) ∧
      (m.put (.reg x) v).read (.reg x) = .ok v ∧ AgreeOutside [x] m (m.put (.reg x) v) := by
  have hscratch : ∀ x ∈ scratch, x.index < 8 := by decide
  have hlt : (Operand.reg x).Writable := hscratch x hx
  exact ⟨Machine.step_mov (by simp [Operand.inMemory]) hs hlt, m.read_put_self v hlt,
    .scratch (List.mem_singleton.mpr rfl) m v⟩

/-- A move goes by way of `%eax` at most. -/
theorem move_ends (hs : m.read src = .ok v) (hd : dst.Writable) :
    ∃ m', m.Ends (move src dst) m' ∧ AgreeOutside [.eax] (m.put dst v) m' := by
  unfold move
  split
  next hmem =>
    obtain ⟨hload, hread, ha⟩ := load_scratch eax_mem_scratch hs
    have hstore := Machine.step_mov (by simp [Operand.inMemory]) hread hd
    exact ⟨_, .cons hload (.one hstore), ha.put dst v⟩
  next hmem =>
    have hstep := Machine.step_mov (m := m) (by simpa using hmem) hs hd
    exact ⟨_, .one hstep, .refl _ _⟩

@[simp] theorem clear_ne_ret (x : Reg) : clear x ≠ .ret := by
  simp [clear]

theorem step_clear (m : Machine) {x : Reg} (hx : x.index < 8) :
    m.step (clear x) = .ok {m.put (.reg x) 0 with flags := none} := by
  have hread := m.read_reg hx
  have hstep := Machine.step_alu (by decide : Alu.xor ≠ .cmp) (by simp [Operand.inMemory]) hread hread hx
  have hzero : Machine.alu .xor (m.regs x) (m.regs x) = 0 := Int32.xor_self
  rw [hzero] at hstep
  exact hstep

/-- A condition set in a cleared register. -/
theorem set_byte (b : Bool) :
    (((0 : Int32) &&& ~~~0xff) ||| if b then 1 else 0) = Operator.ofBool b := by
  cases b <;> decide

theorem step_set_cleared {c : Cond} {byte : ByteReg} (hf : m.flags = some (l, r))
    (hz : m.regs byte.full = 0) : m.step (.set c byte) =
      .ok (m.put (.reg byte.full) (Operator.ofBool (Machine.holds c l r))) := by
  rw [Machine.step_set hf, hz, set_byte]

theorem full_lt (byte : ByteReg) : byte.full.index < 8 := by
  cases byte <;> decide

theorem truth_ends {o : Operand} (byte : ByteReg) (hv : m.read o = .ok v)
    (ho : o ≠ .reg byte.full) :
    ∃ m', m.Ends (truth o byte) m' ∧ m'.regs byte.full = Operator.ofBool (v ≠ 0) ∧
      AgreeOutside [byte.full] m m' := by
  have hmem : byte.full ∈ [byte.full] := List.mem_singleton.mpr rfl
  let m₁ : Machine := {m.put (.reg byte.full) 0 with flags := none}
  have ha₁ : AgreeOutside [byte.full] m m₁ := (AgreeOutside.scratch hmem m 0).trans (.flags _ _ _)
  have hv₁ : m₁.read o = .ok v := by
    rw [ha₁.read (by simpa using ho), hv]
  let m₂ : Machine := {m₁ with flags := some (v, 0)}
  have hcmp : m₁.step (.alu .cmp (.imm 0) o) = .ok m₂ :=
    Machine.step_cmp (by simp [Operand.inMemory]) hv₁ rfl
  have hzero : m₂.regs byte.full = 0 := by simp [m₂, m₁, Machine.put_reg_regs]
  let m₃ := m₂.put (.reg byte.full) (Operator.ofBool (Machine.holds .notEqual v 0))
  have hset : m₂.step (.set .notEqual byte) = .ok m₃ := step_set_cleared rfl hzero
  refine ⟨m₃, ?_, ?_, ?_⟩
  · exact .cons (step_clear m (full_lt byte)) (.cons hcmp (.one hset))
  · simp [m₃, Machine.put_reg_regs, Machine.holds]
  · exact ha₁.trans ((AgreeOutside.flags _ _ _).trans (.scratch hmem m₂ _))

/-- The last instruction of most operators: the result goes from a scratch register to `dst`. -/
theorem deliver (h : Operands m src dst l r) (ha : AgreeOutside scratch m m₁) {x : Reg}
    (hx : x.index < 8) (hv : m₁.regs x = v) :
    ∃ m', m₁.Ends [.mov (.reg x) dst] m' ∧ AgreeOutside scratch (m.put dst v) m' := by
  have hread : m₁.read (.reg x) = .ok v := by rw [m₁.read_reg hx, hv]
  exact ⟨m₁.put dst v,
    .one (Machine.step_mov (by simp [Operand.inMemory]) hread h.writable), ha.put dst v⟩

/-! ### Families of operators -/

theorem combine_ends (h : Operands m src dst l r) {op : Alu} (hop : op ≠ .cmp) :
    Leaves m (combine op src dst) dst (Machine.alu op l r) := by
  unfold combine
  split
  next hmem =>
    obtain ⟨hload, hread, ha⟩ := load_scratch edx_mem_scratch h.right
    have ha' : AgreeOutside scratch m (m.put (.reg .edx) r) := ha.mono (by decide)
    have hstep := Machine.step_alu hop (by simp [Operand.inMemory]) (h.agree ha').left hread
      h.writable
    exact ⟨_, .cons hload (.one hstep), (ha'.put dst _).trans (.flags _ _ _)⟩
  next hmem =>
    have hstep := Machine.step_alu hop (by simpa using hmem) h.left h.right h.writable
    exact ⟨_, .one hstep, .flags _ _ _⟩

theorem compare_ends (h : Operands m src dst l r) :
    ∃ m', m.Ends (combine .cmp src dst) m' ∧ m'.flags = some (l, r) ∧ AgreeOutside [.edx] m m' := by
  unfold combine
  split
  next hmem =>
    obtain ⟨hload, hread, ha⟩ := load_scratch edx_mem_scratch h.right
    have hleft := (h.agree (ha.mono (by decide))).left
    have hstep := Machine.step_cmp (by simp [Operand.inMemory]) hleft hread
    exact ⟨_, .cons hload (.one hstep), rfl, ha.trans (.flags _ _ _)⟩
  next hmem =>
    have hstep := Machine.step_cmp (by simpa using hmem) h.left h.right
    exact ⟨_, .one hstep, rfl, .flags _ _ _⟩

theorem comparison_ends (h : Operands m src dst l r) (c : Cond) :
    Leaves m (comparison c src dst) dst (Operator.ofBool (Machine.holds c l r)) := by
  let m₁ : Machine := {m.put (.reg .eax) 0 with flags := none}
  have hclear : m.step (clear .eax) = .ok m₁ := step_clear m (by decide)
  have ha₁ : AgreeOutside scratch m m₁ :=
    (AgreeOutside.scratch eax_mem_scratch m 0).trans (.flags _ _ _)
  obtain ⟨m₂, hcmp, hflags, ha₂⟩ := compare_ends (h.agree ha₁)
  -- Clearing comes first: the comparison leaves `%eax` alone, and its flags are still there.
  have hzero : m₂.regs ByteReg.al.full = 0 := by
    show m₂.regs .eax = 0
    rw [ha₂.regs .eax (by decide)]
    rfl
  let m₃ := m₂.put (.reg .eax) (Operator.ofBool (Machine.holds c l r))
  have hset : m₂.step (.set c .al) = .ok m₃ := step_set_cleared hflags hzero
  have ha₃ : AgreeOutside scratch m m₃ :=
    (ha₁.trans (ha₂.mono (by decide))).trans (.scratch eax_mem_scratch m₂ _)
  obtain ⟨m₄, hmov, ha₄⟩ := deliver h ha₃ (x := .eax) (by decide) rfl
  exact ⟨m₄, .cons hclear (hcmp.append (.cons hset hmov)), ha₄⟩

theorem logical_ends (h : Operands m src dst l r) {op : Alu} (hop : op ≠ .cmp) :
    Leaves m (logical op src dst) dst
      (Machine.alu op (Operator.ofBool (l ≠ 0)) (Operator.ofBool (r ≠ 0))) := by
  obtain ⟨m₁, hdst, hl, ha₁⟩ := truth_ends .al h.left (h.dstApart _ eax_mem_scratch)
  have ha₁' : AgreeOutside scratch m m₁ := ha₁.mono (by decide)
  obtain ⟨m₂, hsrc, hr, ha₂⟩ :=
    truth_ends .dl (h.agree ha₁').right (h.srcApart _ edx_mem_scratch)
  have hl₂ : m₂.read (.reg .eax) = .ok (Operator.ofBool (l ≠ 0)) := by
    rw [m₂.read_reg (by decide), ha₂.regs .eax (by decide)]
    exact congrArg _ hl
  have hr₂ : m₂.read (.reg .edx) = .ok (Operator.ofBool (r ≠ 0)) := by
    rw [m₂.read_reg (by decide)]
    exact congrArg _ hr
  let m₃ : Machine := {m₂.put (.reg .eax)
    (Machine.alu op (Operator.ofBool (l ≠ 0)) (Operator.ofBool (r ≠ 0))) with flags := none}
  have hstep : m₂.step (.alu op Reg.edx Reg.eax) = .ok m₃ :=
    Machine.step_alu hop (by simp [Operand.inMemory]) hl₂ hr₂ (by decide : (4 : UInt8) < 8)
  have ha₃ : AgreeOutside scratch m m₃ :=
    (ha₁'.trans (ha₂.mono (by decide))).trans
      ((AgreeOutside.scratch eax_mem_scratch m₂ _).trans (.flags _ _ _))
  obtain ⟨m₄, hmov, ha₄⟩ := deliver h ha₃ (x := .eax) (by decide) rfl
  exact ⟨m₄, (hdst.append hsrc).append (.cons hstep hmov), ha₄⟩

theorem multiply_ends (h : Operands m src dst l r) : Leaves m (multiply src dst) dst (l * r) := by
  unfold multiply
  split
  next hreg =>
    have hmem : (src.inMemory && dst.inMemory) = false := by
      cases dst <;> simp_all [Operand.inRegister, Operand.inMemory]
    have hstep := Machine.step_alu (by decide : Alu.mul ≠ .cmp) hmem h.left h.right h.writable
    exact ⟨_, .one hstep, .flags _ _ _⟩
  next hreg =>
    let m₁ := m.put (.reg .eax) l
    obtain ⟨hload, hread, ha⟩ := load_scratch eax_mem_scratch h.left
    have ha₁ : AgreeOutside scratch m m₁ := ha.mono (by decide)
    let m₂ : Machine := {m₁.put (.reg .eax) (l * r) with flags := none}
    have hstep : m₁.step (.alu .mul src Reg.eax) = .ok m₂ :=
      Machine.step_alu (by decide : Alu.mul ≠ .cmp) (by simp [Operand.inMemory]) hread
        (h.agree ha₁).right (by decide : (4 : UInt8) < 8)
    have ha₂ : AgreeOutside scratch m m₂ :=
      ha₁.trans ((AgreeOutside.scratch eax_mem_scratch m₁ _).trans (.flags _ _ _))
    obtain ⟨m₃, hmov, ha₃⟩ := deliver h ha₂ (x := .eax) (by decide) rfl
    exact ⟨m₃, .cons hload (.cons hstep hmov), ha₃⟩

/-! ### Division -/

/-- What a division finds: the left value, sign-extended over both scratch registers. -/
def extended (m : Machine) (l : Int32) : Machine :=
  (m.put (.reg .eax) l).put (.reg .edx) (if l < 0 then -1 else 0)

/-- The two halves together are the left value again. -/
theorem dividend_extended (m : Machine) (l : Int32) : (extended m l).dividend = l.toInt := by
  have hbits : (l.toUInt32.toNat : Int) = l.toInt + if l < 0 then 4294967296 else 0 := by
    have hlt := l.toBitVec.isLt
    have hsign : l < 0 ↔ l.toBitVec.toInt < 0 := Int32.lt_iff_toInt_lt
    have hcond := BitVec.toInt_eq_toNat_cond l.toBitVec
    show (l.toBitVec.toNat : Int) = l.toBitVec.toInt + _
    simp only [hsign]
    split at hcond <;> split <;> omega
  have hhigh : (extended m l).regs .edx = if l < 0 then -1 else 0 := rfl
  have hlow : (extended m l).regs .eax = l := rfl
  unfold Machine.dividend
  rw [hhigh, hlow, hbits]
  split
  · have hneg : (-1 : Int32).toInt = -1 := by decide
    rw [hneg]
    omega
  · have hzero : (0 : Int32).toInt = 0 := by decide
    rw [hzero]
    omega

theorem extend_ends (h : Operands m src dst l r) :
    m.Ends [.mov dst Reg.eax, .cltd] (extended m l) ∧ AgreeOutside scratch m (extended m l) := by
  have hload := (load_scratch eax_mem_scratch h.left).1
  have hcltd : (m.put (.reg .eax) l).step .cltd = .ok (extended m l) := rfl
  exact ⟨.cons hload (.one hcltd),
    (AgreeOutside.scratch eax_mem_scratch m l).trans (.scratch edx_mem_scratch _ _)⟩

/-- A division of 32-bit values never overflows the 64-bit one. -/
theorem divide_extended (m : Machine) (l : Int32) (hr : r ≠ 0) :
    (extended m l).divide r =
      .ok {((extended m l).put (.reg .eax) (.ofInt (l.toInt.tdiv r.toInt))).put (.reg .edx)
        (.ofInt (l.toInt.tmod r.toInt)) with flags := none} := by
  have hfits : ¬ (l.toInt = -9223372036854775808 ∧ r = -1) := by
    rintro ⟨hl, -⟩
    have hle := l.le_toInt
    omega
  simp only [Machine.divide, dividend_extended, hr, hfits, if_false]
  rfl

theorem divide_ends (h : Operands m src dst l r) (hr : r ≠ 0) :
    Leaves m (divide src dst .eax) dst (.ofInt (l.toInt.tdiv r.toInt)) ∧
      Leaves m (divide src dst .edx) dst (.ofInt (l.toInt.tmod r.toInt)) := by
  obtain ⟨hext, ha⟩ := extend_ends h
  let m₁ : Machine :=
    {((extended m l).put (.reg .eax) (.ofInt (l.toInt.tdiv r.toInt))).put (.reg .edx)
      (.ofInt (l.toInt.tmod r.toInt)) with flags := none}
  have hdiv : (extended m l).step (.idiv src) = .ok m₁ := by
    rw [Machine.step_idiv (h.agree ha).right, divide_extended m l hr]
  have ha₁ : AgreeOutside scratch m m₁ :=
    ha.trans ((AgreeOutside.scratch eax_mem_scratch _ _).trans
      ((AgreeOutside.scratch edx_mem_scratch _ _).trans (.flags _ _ _)))
  have hcode (x : Reg) : divide src dst x =
      [.mov dst Reg.eax, .cltd] ++ ([.idiv src] ++ [.mov (.reg x) dst]) := by
    simp [divide, move, Operand.inMemory]
  constructor
  · obtain ⟨m₂, hmov, ha₂⟩ := deliver h ha₁ (x := .eax) (by decide) rfl
    rw [hcode]
    exact ⟨m₂, hext.append (.cons hdiv hmov), ha₂⟩
  · obtain ⟨m₂, hmov, ha₂⟩ := deliver h ha₁ (x := .edx) (by decide) rfl
    rw [hcode]
    exact ⟨m₂, hext.append (.cons hdiv hmov), ha₂⟩

theorem divide_fails (h : Operands m src dst l 0) (x : Reg) :
    m.Fails (divide src dst x) (extended m l) .divisionByZero := by
  obtain ⟨hext, ha⟩ := extend_ends h
  have hdiv : (extended m l).step (.idiv src) = .error .divisionByZero := by
    rw [Machine.step_idiv (h.agree ha).right]
    rfl
  exact hext.append_fails (b := .idiv src :: move x dst) (.head hdiv)

/-! ### All operators -/

/-- **The code of an operator leaves the operator's value** in the left value's place. -/
theorem operator_ends (h : Operands m src dst l r) {op : Operator}
    (hop : op.divides = true → r ≠ 0) : Leaves m (operator op src dst) dst (op.value l r) := by
  cases op with
  | add => exact combine_ends h (by decide)
  | sub => exact combine_ends h (by decide)
  | mul => exact multiply_ends h
  | div => exact (divide_ends h (hop rfl)).1
  | mod => exact (divide_ends h (hop rfl)).2
  | eq => exact comparison_ends h .equal
  | ne => exact comparison_ends h .notEqual
  | lt => exact comparison_ends h .less
  | le => exact comparison_ends h .lessEq
  | gt => exact comparison_ends h .greater
  | ge => exact comparison_ends h .greaterEq
  | and =>
    have hand : Machine.alu .and (Operator.ofBool (l ≠ 0)) (Operator.ofBool (r ≠ 0)) =
        Operator.value .and l r := by
      by_cases hl : l = 0 <;> by_cases hr : r = 0 <;>
        simp [Machine.alu, Operator.value, Operator.ofBool, hl, hr]
    rw [← hand]
    exact logical_ends h (by decide)
  | or =>
    have hor : Machine.alu .or (Operator.ofBool (l ≠ 0)) (Operator.ofBool (r ≠ 0)) =
        Operator.value .or l r := by
      by_cases hl : l = 0 <;> by_cases hr : r = 0 <;>
        simp [Machine.alu, Operator.value, Operator.ofBool, hl, hr]
    rw [← hor]
    exact logical_ends h (by decide)

/-- **A division by zero is noticed** with the left value in the scratch registers. -/
theorem operator_fails {op : Operator} (h : Operands m src dst l 0) (hop : op.divides = true) :
    m.Fails (operator op src dst) (extended m l) .divisionByZero := by
  cases op with
  | div => exact divide_fails h .eax
  | mod => exact divide_fails h .edx
  | _ => simp [Operator.divides] at hop

theorem Operands.of_read (hright : m.read src = .ok r) (hleft : m.read dst = .ok l)
    (hsrc : src ≠ .reg .eax ∧ src ≠ .reg .edx) (hdst : dst ≠ .reg .eax ∧ dst ≠ .reg .edx)
    (hplace : ∀ v, dst ≠ .imm v) : Operands m src dst l r where
  right := hright
  left := hleft
  writable := Machine.writable_of_read hleft hplace
  srcApart := by simpa [scratch] using hsrc
  dstApart := by simpa [scratch] using hdst

/-- **The code of an operator computes the operator and disturbs nothing else.** Let `src` and
`dst` be locations that can be read, neither of them a scratch register and `dst` not a number; they
may be the same. A quotient or a remainder by zero fails, with nothing changed but the scratch
registers. In all other cases the code ends with the operator's value in `dst`, and all other
registers, slots and globals, the stack, the input and the output are as they were. -/
theorem operator_computes (op : Operator) (m : Machine) (src dst : Operand) (l r : Int32)
    (hright : m.read src = .ok r) (hleft : m.read dst = .ok l)
    (hsrc : src ≠ .reg .eax ∧ src ≠ .reg .edx) (hdst : dst ≠ .reg .eax ∧ dst ≠ .reg .edx)
    (hplace : ∀ v, dst ≠ .imm v) :
    ((op = .div ∨ op = .mod) ∧ r = 0 → ∃ a d, m.run (operator op src dst) =
      ⟨(m.setReg .eax a).setReg .edx d, .faulted .divisionByZero⟩) ∧
    (¬ ((op = .div ∨ op = .mod) ∧ r = 0) → ∃ m', m.run (operator op src dst) = ⟨m', .ended⟩ ∧
      m'.read dst = .ok (op.value l r) ∧
      (∀ x, x ≠ .eax → x ≠ .edx → dst ≠ .reg x → m'.regs x = m.regs x) ∧
      (∀ i, dst ≠ .slot i → m'.slots i = m.slots i) ∧
      (∀ x, dst ≠ .mem x → m'.globals x = m.globals x) ∧
      m'.stack = m.stack ∧ m'.input = m.input ∧ m'.output = m.output) := by
  have h := Operands.of_read hright hleft hsrc hdst hplace
  have hdivides : op.divides = true ↔ op = .div ∨ op = .mod := by simp [Operator.divides]
  constructor
  · intro hzero
    obtain ⟨hop, rfl⟩ := hzero
    exact ⟨_, _, operator_fails h (hdivides.mpr hop)⟩
  · intro hnonzero
    obtain ⟨m', hend, ha⟩ := operator_ends h fun hop hr => hnonzero ⟨hdivides.mp hop, hr⟩
    refine ⟨m', hend, ?_, ?_, ?_, ?_, ?_, ?_, ?_⟩
    · rw [ha.read h.dstApart, m.read_put_self _ h.writable]
    · intro x hxa hxd hx
      rw [ha.regs x (by simp [scratch, hxa, hxd]), m.put_regs_of_ne _ hx]
    · intro i hi
      rw [ha.slots, m.put_slots_of_ne _ hi]
    · intro x hx
      rw [ha.globals, m.put_globals_of_ne _ hx]
    · rw [ha.stack, m.put_stack]
    · rw [ha.input, m.put_input]
    · rw [ha.output, m.put_output]

/-- A machine with the least value in a slot and minus one in a global. -/
def leastInSlot : Machine :=
  {Machine.start [5] with
    slots := fun i => if i = 3 then some Int32.minValue else none
    globals := fun x => if x = "global_d" then -1 else 0
    stack := [8] }

/-- The quotient that does not fit, between two cells of memory; and a remainder where both values
are one location, which is zero. -/
theorem leastInSlot_computes :
    (∃ m', leastInSlot.run (operator .div (.mem "global_d") (.slot 3)) = ⟨m', .ended⟩ ∧
      m'.read (.slot 3) = .ok Int32.minValue ∧ m'.globals "global_d" = -1 ∧ m'.stack = [8]) ∧
    ∃ a d, leastInSlot.run (operator .mod Reg.ebx Reg.ebx) =
      ⟨(leastInSlot.setReg .eax a).setReg .edx d, .faulted .divisionByZero⟩ := by
  obtain ⟨-, hdiv⟩ := operator_computes .div leastInSlot (.mem "global_d") (.slot 3)
    Int32.minValue (-1) rfl rfl (by decide) (by decide) (by simp)
  obtain ⟨hmod, -⟩ := operator_computes .mod leastInSlot Reg.ebx Reg.ebx 0 0
    rfl rfl (by decide) (by decide) (by simp)
  obtain ⟨m', hend, hvalue, -, -, hglobals, hstack, -⟩ := hdiv (by decide)
  exact ⟨⟨m', hend, hvalue, hglobals "global_d" (by decide), hstack⟩, hmod (by decide)⟩

end StackBackend.Lowering
