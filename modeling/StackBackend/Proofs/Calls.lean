import StackBackend.Proofs.Code
import StackBackend.Proofs.Machine

/-! Calls of the routines that read and write.

A called routine may overwrite three registers. Those of them that hold pending values are pushed
before the call and popped after it, in the reverse order, so that a call changes, of all registers,
only those in `clobbered` (`write_call_ends`, `read_call_ends`). The pending locations are arbitrary
here: registers may be repeated among them, and scratch registers may occur. `calls_keep_pending`
says what this means for the code of the two operations that call. -/
namespace StackBackend

namespace Lowering

open Machine (AgreeOutside)

/-- The registers that a call changes: those that it may change and nobody saves. -/
def clobbered (p : Placement) : List Reg := Reg.callerSaved.filter (· ∉ p.live)

variable {p : Placement} {m m₁ n : Machine} {code : List Instr}

/-- The machine with the endangered registers pushed. -/
def guarded (p : Placement) (m : Machine) : Machine :=
  {m with stack := ((saved p).map m.regs).reverse ++ m.stack}

theorem read_guarded (p : Placement) (m : Machine) (o : Operand) :
    (guarded p m).read o = m.read o := by
  cases o <;> rfl

theorem clobbered_not_live (p : Placement) : ∀ r ∈ clobbered p, r ∉ p.live :=
  fun r hr => by simpa using (List.mem_filter.mp hr).2

theorem index_lt_of_mem_saved (hl : ∀ r ∈ p.live, r.index < 8) : ∀ r ∈ saved p, r.index < 8 :=
  fun r hr => hl r (List.mem_filter.mp hr).1

theorem not_mem_callerSaved {r : Reg} (hs : r ∉ saved p) (hc : r ∉ clobbered p) :
    r ∉ Reg.callerSaved := by
  intro hr
  by_cases hlive : r ∈ p.live
  · exact hs (List.mem_filter.mpr ⟨hlive, by simpa using hr⟩)
  · exact hc (List.mem_filter.mpr ⟨hr, by simpa using hlive⟩)

/-- What the saved registers hold is back after code that changes registers as a call may. The
registers that are not saved are as that code leaves them. -/
theorem around_ends (hl : ∀ r ∈ p.live, r.index < 8) (hend : (guarded p m).Ends code m₁)
    (ha : AgreeOutside Reg.callerSaved {n with stack := (guarded p m).stack} m₁)
    (hregs : n.regs = m.regs) (hstack : n.stack = m.stack) :
    ∃ m', m.Ends (around p code) m' ∧ AgreeOutside (clobbered p) n m' ∧
      ∀ r, r ∉ saved p → m'.regs r = m₁.regs r := by
  refine ⟨_, m.saved_end (saved p) (index_lt_of_mem_saved hl) m₁ hend ha.stack, ?_, ?_⟩
  · refine ⟨fun r hr => ?_, ha.slots, ha.globals, hstack.symm, ha.input, ha.output⟩
    show (if r ∈ saved p then m.regs r else m₁.regs r) = n.regs r
    split
    next => rw [hregs]
    next hs => exact ha.regs r (not_mem_callerSaved hs hr)
  · intro r hr
    show (if r ∈ saved p then m.regs r else m₁.regs r) = m₁.regs r
    rw [if_neg hr]

theorem clobber_agrees (m : Machine) : AgreeOutside Reg.callerSaved m m.clobberCallerSaved :=
  ((AgreeOutside.scratch (by decide) m _).trans (.scratch (by decide) _ _)).trans
    (.scratch (by decide) _ _)

/-- **A call that writes** sends its argument to the output and keeps what is pending. -/
theorem write_call_ends {value : Operand} {v : Int32} (hl : ∀ r ∈ p.live, r.index < 8)
    (hv : m.read value = .ok v) :
    ∃ m', m.Ends (around p [.push value, .call "write", .pop Reg.eax]) m' ∧
      AgreeOutside (clobbered p) {m with output := m.output ++ [v]} m' := by
  let m₁ : Machine := {guarded p m with stack := v :: (guarded p m).stack}
  have hpush : (guarded p m).step (.push value) = .ok m₁ :=
    Machine.step_push (by rw [read_guarded, hv])
  let m₂ : Machine := {m₁.clobberCallerSaved with output := m.output ++ [v], flags := none}
  have hcall : m₁.step (.call "write") = .ok m₂ := Machine.step_call_write rfl
  let m₃ : Machine := ({m₂ with stack := (guarded p m).stack} : Machine).put (.reg .eax) v
  have hpop : m₂.step (.pop Reg.eax) = .ok m₃ := Machine.step_pop rfl (by decide : (4 : UInt8) < 8)
  have hregs : ∀ r, r ∉ Reg.callerSaved → m₃.regs r = m.regs r := by
    intro r hr
    have hne : Operand.reg .eax ≠ .reg r := by
      rintro ⟨⟩
      exact hr (by decide)
    rw [Machine.put_regs_of_ne _ v hne]
    exact (clobber_agrees m₁).regs r hr
  obtain ⟨m', hend, ha, -⟩ := around_ends (n := {m with output := m.output ++ [v]}) hl
    (.cons hpush (.cons hcall (.one hpop)))
    ⟨hregs, rfl, rfl, rfl, rfl, rfl⟩ rfl rfl
  exact ⟨m', hend, ha⟩

/-- **A call that reads** takes the first input to `%eax` and keeps what is pending. -/
theorem read_call_ends {v : Int32} {rest : List Int32} (hl : ∀ r ∈ p.live, r.index < 8)
    (heax : Reg.eax ∉ p.live) (hi : m.input = v :: rest) :
    ∃ m', m.Ends (around p [.call "read"]) m' ∧ m'.regs .eax = v ∧
      AgreeOutside (clobbered p) {m with input := rest} m' := by
  let m₁ : Machine :=
    {(guarded p m).clobberCallerSaved.setReg .eax v with input := rest, flags := none}
  have hcall : (guarded p m).step (.call "read") = .ok m₁ := Machine.step_call_read hi
  have hregs : ∀ r, r ∉ Reg.callerSaved → m₁.regs r = m.regs r := by
    intro r hr
    have hne : Operand.reg .eax ≠ .reg r := by
      rintro ⟨⟩
      exact hr (by decide)
    have hput := Machine.put_regs_of_ne (guarded p m).clobberCallerSaved v hne
    exact hput.trans ((clobber_agrees (guarded p m)).regs r hr)
  obtain ⟨m', hend, ha, hunsaved⟩ := around_ends (n := {m with input := rest}) hl
    (.one hcall) ⟨hregs, rfl, rfl, rfl, rfl, rfl⟩ rfl rfl
  refine ⟨m', hend, ?_, ha⟩
  rw [hunsaved .eax fun hs => heax (List.mem_filter.mp hs).1]
  rfl

/-- Without input the call fails, with nothing done but the pushes before it. -/
theorem read_call_fails (hl : ∀ r ∈ p.live, r.index < 8) (hi : m.input = []) :
    m.Fails (around p [.call "read"]) (guarded p m) .inputExhausted := by
  have hcall : (guarded p m).step (.call "read") = .error .inputExhausted :=
    Machine.step_call_read_nil hi
  have hpushes := m.pushes_end (saved p) (index_lt_of_mem_saved hl)
  exact (hpushes.append_fails (.head hcall)).append _

end Lowering

/-! ### A location above any others -/

namespace Placement

variable {p : Placement}

/-- Whatever is pending, the next location can be written to and has no name, as long as the slots
can be counted. -/
theorem next_of_room (hregs : p.registers ≤ Reg.maxAllocatable) (hlive : ∀ r ∈ p.live, r.index < 8)
    (hroom : ∀ i, p.pending.head? = some (.slot i) → i.toNat < 4294967294) :
    ∃ o, p.next = .ok o ∧ o.Writable ∧ (∀ x, o ≠ .mem x) ∧ o ≠ .slot lastSlot := by
  have hfirst : ∃ o : Operand, (.ok (.slot 0) : Except Fault Operand) = .ok o ∧ o.Writable ∧
      (∀ x, o ≠ .mem x) ∧ o ≠ .slot lastSlot := ⟨_, rfl, trivial, by simp, by decide⟩
  unfold next
  cases hp : p.pending with
  | nil => exact ⟨_, rfl, (by decide : (0 : UInt8) < 8), by simp, by simp⟩
  | cons top rest =>
    cases top with
    | slot i =>
      have hi : i.toNat < 4294967294 := hroom i (by simp [hp])
      have hlast : lastSlot.toNat = 4294967295 := rfl
      have hnext : (i + 1).toNat = i.toNat + 1 := by
        rw [UInt32.toNat_add]
        show (i.toNat + 1) % 4294967296 = _
        omega
      have hi_ne : i ≠ lastSlot := by
        intro he
        rw [he] at hi
        omega
      have hnext_ne : i + 1 ≠ lastSlot := by
        intro he
        rw [he] at hnext
        omega
      simp only [if_neg hi_ne]
      exact ⟨_, rfl, trivial, by simp, by simpa using hnext_ne⟩
    | reg r =>
      have hr : r.index < 8 := hlive r (mem_live.mpr (by simp [hp]))
      have hr_ne : r.index ≠ 255 := by
        intro he
        rw [he] at hr
        exact absurd hr (by decide)
      simp only [if_neg hr_ne]
      split
      next hlt =>
        have hwrite : r.index + 1 < 8 :=
          UInt8.lt_trans (UInt8.lt_of_lt_of_le hlt hregs) (by decide)
        exact ⟨_, rfl, hwrite, by simp, by simp⟩
      next => exact hfirst
    | mem x => exact hfirst
    | imm v => exact hfirst

theorem allocate_of_room (hregs : p.registers ≤ Reg.maxAllocatable)
    (hlive : ∀ r ∈ p.live, r.index < 8)
    (hroom : ∀ i, p.pending.head? = some (.slot i) → i.toNat < 4294967294) :
    ∃ o q, p.allocate = .ok (o, q) ∧ o.Writable ∧ ∀ x, o ≠ .mem x := by
  obtain ⟨o, hnext, hwrite, hname, hlast⟩ := next_of_room hregs hlive hroom
  suffices hcover : ∃ q, p.cover o = .ok q by
    obtain ⟨q, hq⟩ := hcover
    exact ⟨o, q, allocate_eq_ok.mpr ⟨hnext, hq⟩, hwrite, hname⟩
  cases o with
  | slot k =>
    have hk : k ≠ lastSlot := by simpa using hlast
    simp only [cover, if_neg hk]
    exact ⟨_, rfl⟩
  | reg r => exact ⟨p, rfl⟩
  | mem x => exact ⟨p, rfl⟩
  | imm v => exact ⟨p, rfl⟩

end Placement

/-! ### Operations that call -/

namespace Lowering

open Machine (AgreeOutside)

variable {p q : Placement} {m m' n : Machine} {v : Int32}

/-- A call changes no register that holds a pending value. -/
theorem read_of_clobbered {o : Operand} (ha : AgreeOutside (clobbered p) n m') (ho : o ∈ p.stack) :
    m'.read o = n.read o := by
  apply ha.read
  intro r hr heq
  subst heq
  exact clobbered_not_live p r hr (Placement.mem_live.mpr (List.mem_reverse.mp ho))

theorem write_ends {value : Operand} {rest : List Operand} (hlive : ∀ r ∈ p.live, r.index < 8)
    (hp : p.pending = value :: rest) (hv : m.read value = .ok v) :
    ∃ code m', Op.write.lower p = .ok (code, {p with pending := rest}) ∧ m.Ends code m' ∧
      AgreeOutside (clobbered {p with pending := rest}) {m with output := m.output ++ [v]} m' := by
  have hrest : ∀ r ∈ ({p with pending := rest} : Placement).live, r.index < 8 := by
    intro r hr
    apply hlive r
    rw [Placement.mem_live, hp]
    exact List.mem_cons_of_mem _ (Placement.mem_live.mp hr)
  obtain ⟨m', hend, ha⟩ := write_call_ends hrest hv
  exact ⟨_, m', lower_eq_ok.mpr (.write hp hrest), hend, ha⟩

/-- The value that was read goes to its location when the saved registers are back already, so a
register that is saved and then chosen again ends with the new value. -/
theorem read_ends {dst : Operand} {rest : List Int32} (hlive : ∀ r ∈ p.live, r.index < 8)
    (heax : Reg.eax ∉ p.live) (ha : p.allocate = .ok (dst, q)) (hdst : dst.Writable)
    (hi : m.input = v :: rest) :
    ∃ code m', Op.read.lower p = .ok (code, q.push dst) ∧ m.Ends code (m'.put dst v) ∧
      AgreeOutside (clobbered p) {m with input := rest} m' := by
  have hsame : q.live = p.live := by
    simp only [Placement.live, Placement.stack, (Placement.allocate_grown ha).pending]
  rw [← hsame] at hlive heax
  obtain ⟨m', hcall, hv, hagree⟩ := read_call_ends hlive heax hi
  have hread : m'.read (.reg .eax) = .ok v := by rw [m'.read_reg (by decide), hv]
  have hmove : m'.Ends (move Reg.eax dst) (m'.put dst v) := by
    simp only [move, Operand.inMemory_reg, Bool.false_and]
    exact .one (Machine.step_mov (by simp) hread hdst)
  refine ⟨_, m', lower_eq_ok.mpr (.read ha hlive), hcall.append hmove, ?_⟩
  simpa only [clobbered, hsame] using hagree

/-- **Calls keep every pending value.** The pending locations are arbitrary, as long as their
registers exist; new values go to the registers meant for them, as in every placement that starts
empty. Writing sends the newest value to the output and leaves the others where they were.
Reading, when there is input, leaves the first input at a new location, unless the slots cannot be
counted any more or `%eax`, in which the value arrives, is itself taken; all pending values but one
that had this very location are where they were. Both leave the stack, and memory other than that
location, as they found it. -/
theorem calls_keep_pending (p : Placement) (m : Machine) (hregs : p.registers ≤ Reg.maxAllocatable)
    (hlive : ∀ r, .reg r ∈ p.stack → r.index < 8) :
    (∀ below value v, p.stack = below ++ [value] → m.read value = .ok v →
      ∃ code q m', Op.write.lower p = .ok (code, q) ∧ q.stack = below ∧
        m.run code = ⟨m', .ended⟩ ∧
        m'.output = m.output ++ [v] ∧ m'.input = m.input ∧
        (∀ o ∈ below, m'.read o = m.read o) ∧
        m'.stack = m.stack ∧ m'.slots = m.slots ∧ m'.globals = m.globals) ∧
    (∀ v rest, .reg .eax ∉ p.stack →
      (∀ i, p.stack.getLast? = some (.slot i) → i.toNat < 4294967294) → m.input = v :: rest →
      ∃ code q dst m', Op.read.lower p = .ok (code, q) ∧ q.stack = p.stack ++ [dst] ∧
        m.run code = ⟨m', .ended⟩ ∧
        m'.read dst = .ok v ∧ m'.input = rest ∧ m'.output = m.output ∧
        (∀ o ∈ p.stack, o ≠ dst → m'.read o = m.read o) ∧
        m'.stack = m.stack ∧ (∀ i, dst ≠ .slot i → m'.slots i = m.slots i) ∧
        m'.globals = m.globals) := by
  have hmem {r : Reg} : r ∈ p.live ↔ .reg r ∈ p.stack := by
    rw [Placement.mem_live, Placement.stack, List.mem_reverse]
  have hindex : ∀ r ∈ p.live, r.index < 8 := fun r hr => hlive r (hmem.mp hr)
  constructor
  · intro below value v hstack hv
    have hp : p.pending = value :: below.reverse := by
      have hreverse := congrArg List.reverse hstack
      simpa [Placement.stack] using hreverse
    obtain ⟨code, m', hlower, hend, ha⟩ := write_ends hindex hp hv
    have hbelow : ({p with pending := below.reverse} : Placement).stack = below := by
      simp [Placement.stack]
    refine ⟨code, _, m', hlower, hbelow, hend, ha.output, ha.input, ?_, ha.stack, ha.slots,
      ha.globals⟩
    intro o ho
    rw [read_of_clobbered ha (hbelow.symm ▸ ho)]
    cases o <;> rfl
  · intro v rest heax hroom hi
    have htop : p.pending.head? = p.stack.getLast? := by simp [Placement.stack]
    obtain ⟨dst, q, ha, hdst, hname⟩ :=
      Placement.allocate_of_room hregs hindex fun i hi => hroom i (htop ▸ hi)
    obtain ⟨code, m₁, hlower, hend, hagree⟩ :=
      read_ends hindex (fun h => heax (hmem.mp h)) ha hdst hi
    have hstack : (q.push dst).stack = p.stack ++ [dst] := by
      simp [Placement.stack, Placement.push, (Placement.allocate_grown ha).pending]
    refine ⟨code, _, dst, _, hlower, hstack, hend, m₁.read_put_self v hdst, ?_, ?_, ?_, ?_, ?_, ?_⟩
    · rw [m₁.put_input, hagree.input]
    · rw [m₁.put_output, hagree.output]
    · intro o ho hne
      rw [m₁.read_put_of_ne v hne, read_of_clobbered hagree ho]
      cases o <;> rfl
    · rw [m₁.put_stack, hagree.stack]
    · intro i hne
      rw [m₁.put_slots_of_ne v hne, hagree.slots]
    · funext x
      rw [m₁.put_globals_of_ne v (hname x), hagree.globals]

/-- Registers that a routine may overwrite, each of them twice. -/
def crowded : Placement := ⟨[Reg.eax, Reg.ecx, Reg.eax, Reg.ecx], 0, [], 2⟩

/-- The location above the newest value is that of the oldest one. -/
def overlapping : Placement := ⟨[Reg.ebx, Reg.edx, Reg.ecx], 0, [], 2⟩

/-- Every register holds its index, and the stack is not empty. -/
def numbered : Machine :=
  {Machine.start [70, 80] with regs := fun r => .ofNat r.index.toNat, stack := [5]}

theorem crowded_calls_keep :
    (∃ code q m', Op.write.lower crowded = .ok (code, q) ∧ numbered.run code = ⟨m', .ended⟩ ∧
      m'.output = [4] ∧ m'.read Reg.eax = .ok 4 ∧ m'.read Reg.ecx = .ok 1 ∧ m'.stack = [5]) ∧
    ∃ code q m', Op.read.lower overlapping = .ok (code, q) ∧
      numbered.run code = ⟨m', .ended⟩ ∧ m'.input = [80] ∧
      q.stack = [.reg .ecx, .reg .edx, .reg .ebx, .reg .ecx] ∧ m'.read Reg.ecx = .ok 70 ∧
      m'.read Reg.edx = .ok 5 ∧ m'.read Reg.ebx = .ok 0 ∧ m'.stack = [5] := by
  have hindex {p : Placement} (h : ∀ r ∈ p.live, r.index < 8) : ∀ r, .reg r ∈ p.stack →
      r.index < 8 := fun r hr => h r (Placement.mem_live.mpr (List.mem_reverse.mp hr))
  obtain ⟨hwrite, -⟩ :=
    calls_keep_pending crowded numbered (by decide) (hindex (by decide))
  obtain ⟨-, hread⟩ :=
    calls_keep_pending overlapping numbered (by decide) (hindex (by decide))
  obtain ⟨code, q, m', hlower, -, hrun, houtput, -, hkept, hstack, -⟩ :=
    hwrite [Reg.ecx, Reg.eax, Reg.ecx] Reg.eax 4 rfl rfl
  obtain ⟨code', q', dst, n', hlower', hq, hrun', hvalue, hinput, -, hkept', hstack', -⟩ :=
    hread 70 [80] (by decide) (by simp [overlapping, Placement.stack]) rfl
  obtain rfl : dst = Reg.ecx := by
    cases hlower'
    cases hq
    rfl
  refine ⟨⟨code, q, m', hlower, hrun, houtput, ?_, ?_, hstack⟩,
    code', q', n', hlower', hrun', hinput, hq, hvalue, ?_, ?_, hstack'⟩
  · exact hkept Reg.eax (by decide)
  · exact hkept Reg.ecx (by decide)
  · exact hkept' Reg.edx (by decide) (by decide)
  · exact hkept' Reg.ebx (by decide) (by decide)

end Lowering

end StackBackend
