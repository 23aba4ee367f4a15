import StackBackend.Proofs.Procedure

/-! All code that is generated can be encoded.

The target has no instruction with two operands in memory. Nothing can be written to a number and
nothing divided by one, and a product is formed in a register. The templates obey the first rule
wherever their operands lie, and the others as long as no pending value is a number
(`Lowers.not_memoryToMemory`, `Lowers.fits`). No value ever becomes a number, so every instruction
of a program obeys all of them (`code_encodable`). -/
namespace StackBackend

def Operand.isNumber : Operand → Bool
  | .imm _ => true
  | .reg _ | .slot _ | .mem _ => false

@[simp] theorem Operand.isNumber_reg (r : Reg) : (Operand.reg r).isNumber = false := rfl

namespace Instr

/-- Whether the destination, or the divisor, is of a kind that the instruction takes. -/
def fits : Instr → Bool
  | mov _ d | pop d => !d.isNumber
  | alu op _ d => !d.isNumber && (op != .mul || d.inRegister)
  | idiv s => !s.isNumber
  | cltd | set _ _ | push _ | call _ | ret | line _ => true

/-- Whether the target has the instruction with such operands. -/
def encodable (i : Instr) : Bool := !i.isMemoryToMemory && i.fits

theorem encodable_iff {i : Instr} : i.encodable ↔ i.isMemoryToMemory = false ∧ i.fits = true := by
  simp [encodable]

end Instr

namespace Lowering

variable {src dst : Operand} {code : List Instr} {p : Placement}

/-! ### Templates -/

theorem around_forall {P : Instr → Prop} (hpush : ∀ r, P (.push (.reg r)))
    (hpop : ∀ r, P (.pop (.reg r))) (h : ∀ i ∈ code, P i) : ∀ i ∈ around p code, P i := by
  intro i hi
  simp only [around, List.mem_append, List.mem_map] at hi
  obtain (⟨r, -, rfl⟩ | hi) | ⟨r, -, rfl⟩ := hi
  · exact hpush r
  · exact h i hi
  · exact hpop r

theorem move_not_memoryToMemory (src dst : Operand) :
    ∀ i ∈ move src dst, i.isMemoryToMemory = false := by
  unfold move
  split
  next => simp
  next h => simpa using h

theorem combine_not_memoryToMemory (op : Alu) (src dst : Operand) :
    ∀ i ∈ combine op src dst, i.isMemoryToMemory = false := by
  unfold combine
  split
  next => simp
  next h => simpa using h

theorem operator_not_memoryToMemory (op : Operator) (src dst : Operand) :
    ∀ i ∈ operator op src dst, i.isMemoryToMemory = false := by
  unfold operator
  cases op.family with
  | arithmetic a => exact combine_not_memoryToMemory _ src dst
  | logical c => simp [logical, truth, clear]
  | comparison r =>
    have hcompare := combine_not_memoryToMemory .cmp src dst
    exact List.forall_mem_cons.mpr ⟨rfl, List.forall_mem_append.mpr ⟨hcompare, by simp⟩⟩
  | multiplicative product =>
    have hmove (r : Reg) := move_not_memoryToMemory (.reg r) dst
    cases product with
    | mul =>
      simp only [multiply]
      split
      next hdst =>
        cases dst with
        | reg r => simp
        | _ => simp [Operand.inRegister] at hdst
      next => simp
    | quotient => exact List.forall_mem_append.mpr ⟨by simp, hmove .eax⟩
    | remainder => exact List.forall_mem_append.mpr ⟨by simp, hmove .edx⟩

theorem move_fits (src : Operand) (hd : dst.isNumber = false) : ∀ i ∈ move src dst, i.fits := by
  unfold move
  split <;> simp [Instr.fits, hd]

theorem combine_fits {op : Alu} (hop : op ≠ .mul) (src : Operand) (hd : dst.isNumber = false) :
    ∀ i ∈ combine op src dst, i.fits := by
  unfold combine
  split <;> simp [Instr.fits, hd, hop]

theorem operator_fits (op : Operator) (hs : src.isNumber = false) (hd : dst.isNumber = false) :
    ∀ i ∈ operator op src dst, i.fits := by
  unfold operator
  cases op.family with
  | arithmetic a => exact combine_fits (by cases a <;> decide) src hd
  | logical c =>
    have hop : connective c ≠ .mul := by cases c <;> decide
    simp [logical, truth, clear, Instr.fits, hs, hd, hop]
  | comparison r =>
    have hcompare := combine_fits (by decide : Alu.cmp ≠ .mul) src hd
    refine List.forall_mem_cons.mpr ⟨rfl, List.forall_mem_append.mpr ⟨hcompare, ?_⟩⟩
    simp [Instr.fits, hd]
  | multiplicative product =>
    have hdivide : ∀ i ∈ [Instr.mov dst Reg.eax, .cltd, .idiv src], i.fits := by
      simp [Instr.fits, hs]
    cases product with
    | mul =>
      simp only [multiply]
      split
      next hdst => simp [Instr.fits, hd, hdst]
      next => simp [Instr.fits, Operand.inRegister, hd]
    | quotient => exact List.forall_mem_append.mpr ⟨hdivide, move_fits _ hd⟩
    | remainder => exact List.forall_mem_append.mpr ⟨hdivide, move_fits _ hd⟩

end Lowering

/-! ### Operations -/

/-- No pending value is a number. -/
def Placement.Stored (p : Placement) : Prop := ∀ o ∈ p.pending, o.isNumber = false

namespace Placement

variable {p q : Placement} {o : Operand}

theorem next_not_number (h : p.next = .ok o) : o.isNumber = false := by
  unfold next at h
  split at h
  · cases h; rfl
  · split at h
    · cases h
    · cases h; rfl
  · split at h
    · cases h
    · split at h <;> cases h <;> rfl
  · cases h; rfl
  · cases h; rfl

theorem Stored.allocate (hp : p.Stored) (ha : p.allocate = .ok (o, q)) :
    o.isNumber = false ∧ q.Stored ∧ (q.push o).Stored := by
  have ho := next_not_number (allocate_eq_ok.mp ha).1
  have hq : q.Stored := by
    unfold Stored
    rw [(allocate_grown ha).pending]
    exact hp
  exact ⟨ho, hq, List.forall_mem_cons.mpr ⟨ho, hq⟩⟩

theorem Stored.addGlobal (hp : p.Stored) (x : String) : (p.addGlobal x).Stored := by
  unfold Stored
  rw [addGlobal_pending]
  exact hp

end Placement

namespace Lowers

open Lowering

variable {p q : Placement} {op : Op} {code : List Instr}

theorem not_memoryToMemory (h : Lowers p op code q) : ∀ i ∈ code, i.isMemoryToMemory = false := by
  cases h with
  | read ha _ =>
    refine List.forall_mem_append.mpr ⟨?_, move_not_memoryToMemory _ _⟩
    exact around_forall (by simp) (by simp) (by simp)
  | write hp _ => exact around_forall (by simp) (by simp) (by simp)
  | const ha => simp
  | load ha => exact move_not_memoryToMemory _ _
  | store hp => exact move_not_memoryToMemory _ _
  | binary hp => exact operator_not_memoryToMemory _ _ _

theorem fits (h : Lowers p op code q) (hp : p.Stored) : (∀ i ∈ code, i.fits) ∧ q.Stored := by
  cases h with
  | read ha _ =>
    obtain ⟨hdst, -, hq⟩ := hp.allocate ha
    refine ⟨List.forall_mem_append.mpr ⟨?_, move_fits _ hdst⟩, hq⟩
    exact around_forall (by simp [Instr.fits]) (by simp [Instr.fits]) (by simp [Instr.fits])
  | write hpending _ =>
    unfold Placement.Stored at hp
    rw [hpending] at hp
    refine ⟨?_, (List.forall_mem_cons.mp hp).2⟩
    exact around_forall (by simp [Instr.fits]) (by simp [Instr.fits]) (by simp [Instr.fits])
  | const ha =>
    obtain ⟨hdst, -, hq⟩ := hp.allocate ha
    exact ⟨by simp [Instr.fits, hdst], hq⟩
  | load ha =>
    obtain ⟨hdst, -, hq⟩ := (hp.addGlobal _).allocate ha
    exact ⟨move_fits _ hdst, hq⟩
  | store hpending =>
    unfold Placement.Stored at hp
    rw [hpending] at hp
    exact ⟨move_fits _ rfl, (List.forall_mem_cons.mp hp).2⟩
  | binary hpending =>
    unfold Placement.Stored at hp
    rw [hpending] at hp
    obtain ⟨hsrc, hrest⟩ := List.forall_mem_cons.mp hp
    exact ⟨operator_fits _ hsrc (List.forall_mem_cons.mp hrest).1, hrest⟩

theorem encodable (h : Lowers p op code q) (hp : p.Stored) : ∀ i ∈ code, i.encodable :=
  fun i hi => Instr.encodable_iff.mpr ⟨h.not_memoryToMemory i hi, (h.fits hp).1 i hi⟩

end Lowers

/-! ### Programs -/

theorem code_encodable {l : Lowering} {p last : Placement} {ops : List (Located Op)}
    {body : List Instr} (h : l.code p ops = .ok (body, last)) (hp : p.Stored) :
    ∀ i ∈ body, i.encodable := by
  induction ops generalizing p body with
  | nil =>
    obtain ⟨rfl, -⟩ := Lowering.code_nil_eq_ok.mp h
    intro i hi
    cases hi
  | cons op ops ih =>
    obtain ⟨own, q, more, hl, hm, rfl⟩ := Lowering.code_cons_eq_ok.mp h
    have hheading : ∀ i ∈ l.heading op.val, i.encodable := by
      unfold Lowering.heading
      split <;> simp [Instr.encodable_iff, Instr.fits, Instr.isMemoryToMemory, Instr.operands]
    have hown := List.forall_mem_append.mpr ⟨hheading, hl.encodable hp⟩
    exact List.forall_mem_append.mpr ⟨hown, ih hm (hl.fits hp).2⟩

theorem Program.instructions_encodable {p : Program} {code : List Instr}
    (h : p.instructions = .ok code) (hbody : ∀ i ∈ p.body, i.encodable) :
    ∀ i ∈ code, i.encodable := by
  rw [instructions_eq, map_eq_ok] at h
  obtain ⟨reserved, hreserve, rfl⟩ := h
  exact forall_mem_listed hreserve (by decide) (fun _ _ => rfl) (fun _ => rfl)
    (fun _ _ => ⟨rfl, rfl⟩) hbody

theorem Placement.stored_iff {p : Placement} : p.Stored ↔ ∀ v, .imm v ∉ p.stack := by
  simp only [Stored, stack, List.mem_reverse]
  constructor
  · intro h v hv
    cases h _ hv
  · intro h o ho
    cases o with
    | imm v => exact absurd ho (h v)
    | _ => rfl

/-- **All generated code can be encoded.** The code of an operation has no instruction from memory
to memory, wherever the pending values lie; while none of them is a number, it obeys all rules for
operands and leaves none that is a number. So does every instruction of a whole program, and there
is a program whenever the frame has fewer than 2^29 slots. -/
theorem lowered_encodable :
    (∀ (p : Placement) (op : Op) (code : List Instr) (q : Placement), op.lower p = .ok (code, q) →
      (∀ i ∈ code, i.isMemoryToMemory = false) ∧
      ((∀ v, .imm v ∉ p.stack) → (∀ i ∈ code, i.encodable) ∧ ∀ v, .imm v ∉ q.stack)) ∧
    ∀ (registers : UInt8) (comments : Bool) (ops : List (Located Op)) (r : Lowered),
      (Lowering.ofOptions registers comments).lower ops = .ok r →
      (r.placement.frame.toNat < 536870912 →
        ∃ code, (Program.ofLowered r).instructions = .ok code) ∧
      ∀ code, (Program.ofLowered r).instructions = .ok code → ∀ i ∈ code, i.encodable := by
  refine ⟨?_, ?_⟩
  · intro p op code q hlower
    have hl := lower_eq_ok.mp hlower
    refine ⟨hl.not_memoryToMemory, fun hp => ?_⟩
    have hstored := Placement.stored_iff.mpr hp
    exact ⟨hl.encodable hstored, Placement.stored_iff.mp (hl.fits hstored).2⟩
  · intro registers comments ops r hr
    refine ⟨fun hframe => ⟨_, Program.instructions_eq_ok hframe⟩, fun code hcode => ?_⟩
    have hempty : (Placement.empty (Placement.usable registers)).Stored := by
      intro o ho
      cases ho
    exact Program.instructions_encodable hcode
      (code_encodable (Lowering.lower_eq_ok_iff.mp hr).1 hempty)

/-- Pending values where no listing would put them. -/
def scattered : Placement := ⟨[.mem "a", .slot 3, Reg.ebp, Reg.ebp], 0, [], 4⟩

theorem scattered_encodable :
    (Op.binary .mul).lower scattered =
      .ok ([.mov (.slot 3) Reg.eax, .alu .mul (.mem "a") Reg.eax, .mov Reg.eax (.slot 3)],
        {scattered with pending := [.slot 3, Reg.ebp, Reg.ebp]}) ∧
    (∀ v, .imm v ∉ scattered.stack) ∧
    (∀ i ∈ [Instr.mov (.slot 3) Reg.eax, .alu .mul (.mem "a") Reg.eax, .mov Reg.eax (.slot 3)],
      i.encodable) ∧
    (Lowering.ofOptions 2 false).lower repeating = .ok repeatingCode ∧
    ∃ code, (Program.ofLowered repeatingCode).instructions = .ok code ∧
      ∀ i ∈ code, i.encodable := by
  have hmul : (Op.binary .mul).lower scattered =
      .ok ([.mov (.slot 3) Reg.eax, .alu .mul (.mem "a") Reg.eax, .mov Reg.eax (.slot 3)],
        {scattered with pending := [.slot 3, Reg.ebp, Reg.ebp]}) := rfl
  have hnumbers : ∀ v, .imm v ∉ scattered.stack := by simp [scattered, Placement.stack]
  have hlower : (Lowering.ofOptions 2 false).lower repeating = .ok repeatingCode := rfl
  obtain ⟨hop, hprogram⟩ := lowered_encodable
  obtain ⟨hsome, hall⟩ := hprogram 2 false repeating repeatingCode hlower
  obtain ⟨code, hcode⟩ := hsome (by decide)
  exact ⟨hmul, hnumbers, ((hop _ _ _ _ hmul).2 hnumbers).1, hlower, code, hcode, hall code hcode⟩

/-- A number among the pending values would become a divisor. -/
example : ∃ i ∈ Lowering.operator .div (.imm 7) Reg.ebx, i.encodable = false := by decide

end StackBackend
