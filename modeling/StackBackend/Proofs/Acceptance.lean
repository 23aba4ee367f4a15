import StackBackend.Proofs.Code
import StackBackend.Proofs.Evaluation

/-! Which operations have code.

The placement is as deep as the stack that it stands for (`Lowers.depth`). From a canonical
placement an operation has code as soon as the values that it takes are pending, unless the slots
run out (`exists_lowers`), so a list of operations has code when every one of them is supplied and
the depth stays within reach (`code_of_supplied`). -/
namespace StackBackend

variable {p q : Placement} {op : Op} {code : List Instr}

theorem Lowers.depth (h : Lowers p op code q) :
    op.pops ≤ p.depth ∧ q.depth = op.depthAfter p.depth := by
  have allocated {p q : Placement} {dst : Operand} (ha : p.allocate = .ok (dst, q)) :
      (q.push dst).depth = p.depth + 1 :=
    congrArg (·.length + 1) (Placement.allocate_grown ha).pending
  cases h with
  | read ha _ => exact ⟨Nat.zero_le _, allocated ha⟩
  | write hp _ => simp [Placement.depth, Op.pops, Op.depthAfter, Op.pushes, hp]
  | const ha => exact ⟨Nat.zero_le _, allocated ha⟩
  | @load x dst q ha =>
    have hdepth : (p.addGlobal x).depth = p.depth := congrArg List.length (p.addGlobal_pending x)
    exact ⟨Nat.zero_le _, (allocated ha).trans (congrArg (· + 1) hdepth)⟩
  | store hp => simp [Placement.depth, Op.pops, Op.depthAfter, Op.pushes, hp]
  | binary hp => simp [Placement.depth, Op.pops, Op.depthAfter, Op.pushes, hp]

theorem Placement.Canonical.index_lt (h : p.Canonical) : ∀ r ∈ p.live, r.index < 8 := by
  intro r hr
  have hlt := h.live_lt hr
  rw [UInt8.lt_iff_toNat_lt]
  show r.index.toNat < 8
  omega

/-- An operation that finds its values has code, unless the slots run out. -/
theorem exists_lowers (hc : p.Canonical) (hpops : op.pops ≤ p.depth)
    (hroom : op.depthAfter p.depth ≤ p.registers.toNat + 4294967295) :
    ∃ code q, Lowers p op code q := by
  have allocates {p : Placement} (hc : p.Canonical)
      (hd : p.depth + 1 ≤ p.registers.toNat + 4294967295) : ∃ dst q, p.allocate = .ok (dst, q) :=
    hc.allocate_of_lt (by omega)
  cases op with
  | read =>
    obtain ⟨dst, q, ha⟩ := allocates hc hroom
    exact ⟨_, _, .read ha (hc.allocate ha).2.1.index_lt⟩
  | write =>
    cases hp : p.pending with
    | nil => simp [Placement.depth, hp, Op.pops] at hpops
    | cons value rest => exact ⟨_, _, .write hp (hc.pop hp).index_lt⟩
  | const v =>
    obtain ⟨dst, q, ha⟩ := allocates hc hroom
    exact ⟨_, _, .const ha⟩
  | load x =>
    have hdepth : (p.addGlobal x).depth = p.depth := congrArg List.length (p.addGlobal_pending x)
    obtain ⟨dst, q, ha⟩ := allocates (hc.addGlobal x) (by
      rw [hdepth, p.addGlobal_registers]
      exact hroom)
    exact ⟨_, _, .load ha⟩
  | store x =>
    cases hp : p.pending with
    | nil => simp [Placement.depth, hp, Op.pops] at hpops
    | cons src rest => exact ⟨_, _, .store hp⟩
  | binary op =>
    cases hp : p.pending with
    | nil => simp [Placement.depth, hp, Op.pops] at hpops
    | cons src rest =>
      cases rest with
      | nil => simp [Placement.depth, hp, Op.pops] at hpops
      | cons dst rest => exact ⟨_, _, .binary hp⟩

/-- Operations that have code find the values that they take. -/
theorem supplied_of_code {l : Lowering} {ops : List (Located Op)} {body : List Instr}
    {last : Placement} (h : l.code p ops = .ok (body, last)) :
    Op.Supplied p.depth (ops.map (·.val)) := by
  induction ops generalizing p body with
  | nil => trivial
  | cons op ops ih =>
    obtain ⟨own, q, more, hl, hm, -⟩ := Lowering.code_cons_eq_ok.mp h
    have hrest := ih hm
    rw [hl.depth.2] at hrest
    exact ⟨hl.depth.1, hrest⟩

theorem code_of_supplied {l : Lowering} {ops : List (Located Op)} (hc : p.Canonical)
    (hs : Op.Supplied p.depth (ops.map (·.val)))
    (hpeak : Op.peak p.depth (ops.map (·.val)) ≤ 4294967296) :
    ∃ body last, l.code p ops = .ok (body, last) := by
  induction ops generalizing p with
  | nil => exact ⟨[], p, rfl⟩
  | cons op ops ih =>
    obtain ⟨hpops, hrest⟩ := hs
    have hpeak' : Op.peak (op.val.depthAfter p.depth) (ops.map (·.val)) ≤ 4294967296 :=
      Nat.le_trans (Nat.le_max_right ..) hpeak
    -- The depth is within reach of the slots even when there is one register only.
    have hreach : op.val.depthAfter p.depth ≤ p.registers.toNat + 4294967295 := by
      have hle := Nat.le_trans (Op.le_peak ..) hpeak'
      have hone := hc.one_le
      omega
    obtain ⟨own, q, hl⟩ := exists_lowers hc hpops hreach
    have hdepth := hl.depth.2
    rw [← hdepth] at hrest hpeak'
    obtain ⟨more, last, hm⟩ := ih (hl.canonical hc) hrest hpeak'
    exact ⟨_, last, Lowering.code_cons_eq_ok.mpr ⟨own, q, more, hl, hm, rfl⟩⟩

end StackBackend
