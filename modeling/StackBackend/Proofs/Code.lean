import StackBackend.Lowering
import StackBackend.Proofs.Layout
import StackBackend.Proofs.Results

/-! What code is generated.

`Lowers` lists the ways in which an operation gets code, one rule for each kind of operation, and
is the same as the function that generates it (`lower_eq_ok`). The code of a list of operations
falls apart at every operation of the list (`code_split`), and a canonical placement remains
canonical all along (`code_canonical`). -/
namespace StackBackend

namespace Lowering

/-! ### Calls -/

/-- The registers that are saved around a call. -/
def saved (p : Placement) : List Reg := p.live.filter (· ∈ Reg.callerSaved)

/-- Some code with the endangered registers saved around it. -/
def around (p : Placement) (code : List Instr) : List Instr :=
  ((saved p).map fun r => .push (.reg r)) ++ code ++ (saved p).reverse.map fun r => .pop (.reg r)

theorem isCallerSaved_eq_ok {r : Reg} {b : Bool} :
    r.isCallerSaved = .ok b ↔ r.index < 8 ∧ b = decide (r ∈ Reg.callerSaved) := by
  unfold Reg.isCallerSaved
  split
  next h => simp [h, eq_comm]
  next h => simp [h]

theorem endangered_eq_ok {rs out : List Reg} : endangered rs = .ok out ↔
    (∀ r ∈ rs, r.index < 8) ∧ out = rs.filter (· ∈ Reg.callerSaved) := by
  induction rs generalizing out with
  | nil => simp [endangered, eq_comm]
  | cons r rs ih =>
    simp only [endangered, bind_eq_ok, pure_eq_ok, isCallerSaved_eq_ok, ih, List.mem_cons,
      forall_eq_or_imp]
    constructor
    · rintro ⟨b, ⟨hr, rfl⟩, more, ⟨hrs, rfl⟩, rfl⟩
      refine ⟨⟨hr, hrs⟩, ?_⟩
      by_cases hm : r ∈ Reg.callerSaved <;> simp [hm]
    · rintro ⟨⟨hr, hrs⟩, rfl⟩
      refine ⟨_, ⟨hr, rfl⟩, _, ⟨hrs, rfl⟩, ?_⟩
      by_cases hm : r ∈ Reg.callerSaved <;> simp [hm]

theorem call_eq_ok {routine : String} {argument : Option Operand} {p : Placement}
    {code : List Instr} : call routine argument p = .ok code ↔
      (∀ r ∈ p.live, r.index < 8) ∧ code = around p
        (argument.toList.map (.push ·) ++ [.call routine] ++
          argument.toList.map fun _ => .pop Reg.eax) := by
  simp only [call, bind_eq_ok, pure_eq_ok, endangered_eq_ok, around, List.append_assoc]
  constructor
  · rintro ⟨_, ⟨hl, rfl⟩, rfl⟩
    exact ⟨hl, rfl⟩
  · rintro ⟨hl, rfl⟩
    exact ⟨_, ⟨hl, rfl⟩, rfl⟩

end Lowering

/-! ### Single operations -/

open Lowering (around move operator)

/-- The code of an operation at the placement `p`, and the placement after it. -/
inductive Lowers (p : Placement) : Op → List Instr → Placement → Prop where
  | read {dst q} : p.allocate = .ok (dst, q) → (∀ r ∈ q.live, r.index < 8) →
      Lowers p .read (around q [.call "read"] ++ move Reg.eax dst) (q.push dst)
  | write {value rest} : p.pending = value :: rest →
      (∀ r ∈ ({p with pending := rest} : Placement).live, r.index < 8) →
      Lowers p .write
        (around {p with pending := rest} [.push value, .call "write", .pop Reg.eax])
        {p with pending := rest}
  | const {v dst q} : p.allocate = .ok (dst, q) → Lowers p (.const v) [.mov (.imm v) dst] (q.push dst)
  | load {x dst q} : (p.addGlobal x).allocate = .ok (dst, q) →
      Lowers p (.load x) (move (.ofGlobal x) dst) (q.push dst)
  | store {x src rest} : p.pending = src :: rest →
      Lowers p (.store x) (move src (.ofGlobal x)) {p.addGlobal x with pending := rest}
  | binary {op src dst rest} : p.pending = src :: dst :: rest →
      Lowers p (.binary op) (operator op src dst) {p with pending := dst :: rest}

namespace Placement

theorem pop_eq_ok {p q : Placement} {o : Operand} :
    p.pop = .ok (o, q) ↔ ∃ rest, p.pending = o :: rest ∧ q = {p with pending := rest} := by
  unfold pop
  split
  next h => simp [h]
  next top rest h =>
    simp only [h, Except.ok.injEq, Prod.mk.injEq, List.cons.injEq]
    constructor
    · rintro ⟨rfl, rfl⟩
      exact ⟨rest, ⟨rfl, rfl⟩, rfl⟩
    · rintro ⟨_, ⟨rfl, rfl⟩, rfl⟩
      exact ⟨rfl, rfl⟩

theorem pop2_eq_ok {p q : Placement} {o o' : Operand} :
    p.pop2 = .ok (o, o', q) ↔ ∃ rest, p.pending = o :: o' :: rest ∧ q = {p with pending := rest} := by
  unfold pop2
  split
  next top second rest h =>
    simp only [h, Except.ok.injEq, Prod.mk.injEq, List.cons.injEq]
    constructor
    · rintro ⟨rfl, rfl, rfl⟩
      exact ⟨rest, ⟨rfl, rfl, rfl⟩, rfl⟩
    · rintro ⟨_, ⟨rfl, rfl, rfl⟩, rfl⟩
      exact ⟨rfl, rfl, rfl⟩
  next h =>
    simp only [reduceCtorEq, false_iff]
    rintro ⟨rest, hp, -⟩
    exact h _ _ _ hp

@[simp] theorem addGlobal_pending (p : Placement) (x : String) :
    (p.addGlobal x).pending = p.pending := by
  unfold addGlobal
  split <;> rfl

@[simp] theorem addGlobal_frame (p : Placement) (x : String) : (p.addGlobal x).frame = p.frame := by
  unfold addGlobal
  split <;> rfl

@[simp] theorem addGlobal_registers (p : Placement) (x : String) :
    (p.addGlobal x).registers = p.registers := by
  unfold addGlobal
  split <;> rfl

@[simp] theorem mem_addGlobal_globals {p : Placement} {x y : String} :
    y ∈ (p.addGlobal x).globals ↔ y ∈ p.globals ∨ y = x := by
  unfold addGlobal
  split
  next h =>
    constructor
    · exact .inl
    · intro hy
      obtain hy | rfl := hy
      · exact hy
      · exact h
  next => simp

end Placement

theorem lower_eq_ok {op : Op} {p q : Placement} {code : List Instr} :
    op.lower p = .ok (code, q) ↔ Lowers p op code q := by
  constructor
  · intro h
    cases op with
    | read =>
      simp only [Op.lower, bind_eq_ok, mapError_eq_ok, pure_eq_ok, Lowering.call_eq_ok] at h
      obtain ⟨⟨dst, q'⟩, ha, _, ⟨hl, rfl⟩, h⟩ := h
      cases h
      exact .read ha hl
    | write =>
      simp only [Op.lower, bind_eq_ok, mapError_eq_ok, pure_eq_ok, Lowering.call_eq_ok] at h
      obtain ⟨⟨value, q'⟩, hp, _, ⟨hl, rfl⟩, h⟩ := h
      cases h
      obtain ⟨rest, hpending, rfl⟩ := Placement.pop_eq_ok.mp hp
      exact .write hpending hl
    | const v =>
      simp only [Op.lower, bind_eq_ok, mapError_eq_ok, pure_eq_ok] at h
      obtain ⟨⟨dst, q'⟩, ha, h⟩ := h
      cases h
      exact .const ha
    | load x =>
      simp only [Op.lower, bind_eq_ok, mapError_eq_ok, pure_eq_ok] at h
      obtain ⟨⟨dst, q'⟩, ha, h⟩ := h
      cases h
      exact .load ha
    | store x =>
      simp only [Op.lower, bind_eq_ok, mapError_eq_ok, pure_eq_ok] at h
      obtain ⟨⟨src, q'⟩, hp, h⟩ := h
      cases h
      obtain ⟨rest, hpending, rfl⟩ := Placement.pop_eq_ok.mp hp
      exact .store (by simpa using hpending)
    | binary op =>
      simp only [Op.lower, bind_eq_ok, mapError_eq_ok, pure_eq_ok] at h
      obtain ⟨⟨src, dst, q'⟩, hp, h⟩ := h
      cases h
      obtain ⟨rest, hpending, rfl⟩ := Placement.pop2_eq_ok.mp hp
      exact .binary hpending
  · rintro (⟨ha, hl⟩ | ⟨hp, hl⟩ | ha | ha | hp | hp)
    · simp only [Op.lower, bind_eq_ok, mapError_eq_ok, pure_eq_ok, Lowering.call_eq_ok]
      exact ⟨_, ha, _, ⟨hl, rfl⟩, rfl⟩
    · simp only [Op.lower, bind_eq_ok, mapError_eq_ok, pure_eq_ok, Lowering.call_eq_ok]
      exact ⟨_, Placement.pop_eq_ok.mpr ⟨_, hp, rfl⟩, _, ⟨hl, rfl⟩, rfl⟩
    · simp only [Op.lower, bind_eq_ok, mapError_eq_ok, pure_eq_ok]
      exact ⟨_, ha, rfl⟩
    · simp only [Op.lower, bind_eq_ok, mapError_eq_ok, pure_eq_ok]
      exact ⟨_, ha, rfl⟩
    · simp only [Op.lower, bind_eq_ok, mapError_eq_ok, pure_eq_ok]
      exact ⟨_, Placement.pop_eq_ok.mpr ⟨_, by simpa using hp, rfl⟩, rfl⟩
    · simp only [Op.lower, bind_eq_ok, mapError_eq_ok, pure_eq_ok]
      exact ⟨_, Placement.pop2_eq_ok.mpr ⟨_, hp, rfl⟩, rfl⟩

namespace Lowers

variable {p q : Placement} {op : Op} {code : List Instr}

theorem canonical (h : Lowers p op code q) (hc : p.Canonical) : q.Canonical := by
  cases h with
  | read ha _ => exact (hc.allocate ha).2.2
  | write hp _ => exact hc.pop hp
  | const ha => exact (hc.allocate ha).2.2
  | load ha => exact ((hc.addGlobal _).allocate ha).2.2
  | store hp => exact (hc.addGlobal _).pop (by simpa using hp)
  | binary hp => exact hc.pop hp

theorem registers (h : Lowers p op code q) : q.registers = p.registers := by
  cases h with
  | read ha _ => exact (Placement.allocate_grown ha).registers
  | write hp _ => rfl
  | const ha => exact (Placement.allocate_grown ha).registers
  | load ha => exact (Placement.allocate_grown ha).registers.trans (p.addGlobal_registers _)
  | store hp => exact p.addGlobal_registers _
  | binary hp => rfl

theorem frame_le (h : Lowers p op code q) : p.frame.toNat ≤ q.frame.toNat := by
  cases h with
  | read ha _ => exact (Placement.allocate_grown ha).frame
  | write hp _ => exact Nat.le_refl _
  | const ha => exact (Placement.allocate_grown ha).frame
  | load ha =>
    have hframe := (Placement.allocate_grown ha).frame
    rw [Placement.addGlobal_frame] at hframe
    exact hframe
  | store hp => exact Nat.le_of_eq (congrArg UInt32.toNat (p.addGlobal_frame _).symm)
  | binary hp => exact Nat.le_refl _

theorem mem_globals (h : Lowers p op code q) {x : String} :
    x ∈ q.globals ↔ x ∈ p.globals ∨ op.global? = some x := by
  have hgrown {p q : Placement} {dst : Operand} (ha : p.allocate = .ok (dst, q)) :
      (q.push dst).globals = p.globals := (Placement.allocate_grown ha).globals
  cases h with
  | read ha _ => simp [hgrown ha, Op.global?]
  | write hp _ => simp [Op.global?]
  | const ha => simp [hgrown ha, Op.global?]
  | load ha => simp [hgrown ha, Op.global?, eq_comm]
  | store hp => simp [Op.global?, eq_comm]
  | binary hp => simp [Op.global?]

end Lowers

/-! ### Lists of operations -/

namespace Lowering

variable {l : Lowering} {p last : Placement} {body : List Instr}

theorem code_nil_eq_ok : l.code p [] = .ok (body, last) ↔ body = [] ∧ last = p := by
  simp [code, eq_comm]

theorem code_cons_eq_ok {op : Located Op} {ops : List (Located Op)} :
    l.code p (op :: ops) = .ok (body, last) ↔ ∃ own q more, Lowers p op.val own q ∧
      l.code q ops = .ok (more, last) ∧ body = l.heading op.val ++ own ++ more := by
  simp only [code, bind_eq_ok, mapError_eq_ok, pure_eq_ok]
  constructor
  · rintro ⟨⟨own, q⟩, hl, ⟨more, last'⟩, hm, h⟩
    cases h
    exact ⟨own, q, more, lower_eq_ok.mp hl, hm, rfl⟩
  · rintro ⟨own, q, more, hl, hm, rfl⟩
    exact ⟨⟨own, q⟩, lower_eq_ok.mpr hl, ⟨more, last⟩, hm, rfl⟩

theorem code_of_lower {op : Located Op} {ops : List (Located Op)} {own : List Instr} {q : Placement}
    (h : op.val.lower p = .ok (own, q)) : l.code p (op :: ops) =
      (l.code q ops).map fun (more, last) => (l.heading op.val ++ own ++ more, last) := by
  rw [code, h]
  show (l.code q ops >>= fun (more, last) => pure (l.heading op.val ++ own ++ more, last)) = _
  cases l.code q ops with
  | error e => rfl
  | ok result => rfl

/-- An operation that is refused stops the whole list. -/
theorem code_of_refused {op : Located Op} {ops : List (Located Op)} {cause : Refusal}
    (h : op.val.lower p = .error cause) : l.code p (op :: ops) = .error ⟨op, cause⟩ := by
  rw [code, h]
  rfl

/-- The code of a list, at one of its operations. -/
theorem code_split {before after : List (Located Op)} {op : Located Op}
    (h : l.code p (before ++ op :: after) = .ok (body, last)) :
    ∃ head p₁ own p₂ tail, l.code p before = .ok (head, p₁) ∧ Lowers p₁ op.val own p₂ ∧
      l.code p₂ after = .ok (tail, last) ∧ body = head ++ (l.heading op.val ++ own) ++ tail := by
  induction before generalizing p body with
  | nil =>
    obtain ⟨own, q, more, hl, hm, rfl⟩ := code_cons_eq_ok.mp h
    exact ⟨[], p, own, q, more, rfl, hl, hm, rfl⟩
  | cons first before ih =>
    obtain ⟨own', q, more, hl, hm, rfl⟩ := code_cons_eq_ok.mp h
    obtain ⟨head, p₁, own, p₂, tail, hhead, hown, htail, rfl⟩ := ih hm
    refine ⟨l.heading first.val ++ own' ++ head, p₁, own, p₂, tail, ?_, hown, htail, ?_⟩
    · exact code_cons_eq_ok.mpr ⟨own', q, head, hl, hhead, rfl⟩
    · simp only [List.append_assoc]

/-- What a list of operations does to a placement that matters to all that follows. -/
theorem code_canonical {ops : List (Located Op)} (h : l.code p ops = .ok (body, last))
    (hc : p.Canonical) : last.Canonical ∧ last.registers = p.registers ∧
      p.frame.toNat ≤ last.frame.toNat := by
  induction ops generalizing p body with
  | nil =>
    obtain ⟨-, rfl⟩ := code_nil_eq_ok.mp h
    exact ⟨hc, rfl, Nat.le_refl _⟩
  | cons op ops ih =>
    obtain ⟨own, q, more, hl, hm, -⟩ := code_cons_eq_ok.mp h
    obtain ⟨hlast, hregs, hframe⟩ := ih hm (hl.canonical hc)
    exact ⟨hlast, hregs.trans hl.registers, Nat.le_trans hl.frame_le hframe⟩

theorem mem_code_globals {ops : List (Located Op)} (h : l.code p ops = .ok (body, last))
    {x : String} :
    x ∈ last.globals ↔ x ∈ p.globals ∨ ∃ op ∈ ops, op.val.global? = some x := by
  induction ops generalizing p body with
  | nil =>
    obtain ⟨-, rfl⟩ := code_nil_eq_ok.mp h
    simp
  | cons op ops ih =>
    obtain ⟨own, q, more, hl, hm, -⟩ := code_cons_eq_ok.mp h
    simp only [ih hm, hl.mem_globals, List.mem_cons, exists_eq_or_imp, or_assoc]

end Lowering

end StackBackend
