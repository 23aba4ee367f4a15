import StackBackend.Proofs.StackCells

/-! The frame is as large as it must be and no larger.

`points` lists the placements between the operations of a listing. The frame after an operation is
the larger of the frame before it and the number of values beyond the registers (`Lowers.frame_eq`),
so at the end it is the most slots that were in use at one point, which the depths alone determine
(`frame_tight`). Each time that it grows it does so by one slot, there is one message about it, and
the code writes to the new slot. -/
namespace StackBackend

/-! ### Slots in use -/

def Operand.isSlot : Operand → Bool
  | .slot _ => true
  | .reg _ | .mem _ | .imm _ => false

namespace Placement

/-- How many pending values are in slots. -/
def spilled (p : Placement) : Nat := p.stack.countP (·.isSlot)

theorem countP_layout (registers : UInt8) (n : Nat) :
    (layout registers n).countP (·.isSlot) = n - registers.toNat := by
  induction n with
  | zero => simp [layout]
  | succ n ih =>
    rw [layout, List.countP_cons, ih]
    by_cases hn : n < registers.toNat
    · rw [location_of_lt hn]
      simp only [Operand.isSlot, Bool.false_eq_true, if_false]
      omega
    · rw [location_of_le (by omega)]
      simp only [Operand.isSlot, if_true]
      omega

theorem Canonical.spilled {p : Placement} (h : p.Canonical) :
    p.spilled = p.depth - p.registers.toNat := by
  unfold Placement.spilled Placement.stack
  rw [List.countP_reverse, h.pending, countP_layout]

/-- The placements at the points of a list of operations: one before each operation that is reached,
and one after the last. -/
def points (p : Placement) : List (Located Op) → List Placement
  | [] => [p]
  | op :: rest =>
    p :: match op.val.lower p with
      | .ok (_, q) => q.points rest
      | .error _ => []

/-! ### Growth -/

variable {p q : Placement} {o : Operand}

theorem Canonical.allocate_frame (h : p.Canonical) (ha : p.allocate = .ok (o, q)) :
    q.frame.toNat = max p.frame.toNat (p.depth + 1 - p.registers.toNat) := by
  obtain ⟨hnext, hcover⟩ := allocate_eq_ok.mp ha
  rw [h.next] at hnext
  cases hnext
  have hlt := h.depth_lt
  by_cases hd : p.depth < p.registers.toNat
  · rw [location_of_lt hd] at hcover
    cases hcover
    omega
  · rw [location_of_le (by omega)] at hcover
    rw [(cover_slot hcover).2, UInt32.toNat_ofNat']
    omega

/-- A frame grows for the sake of a slot that is handed out. -/
theorem allocate_grows (ha : p.allocate = .ok (o, q)) (hgrows : p.frame.toNat < q.frame.toNat) :
    ∃ k, o = .slot k ∧ k.toNat + 1 = q.frame.toNat := by
  have hcover := (allocate_eq_ok.mp ha).2
  cases o with
  | slot k =>
    have hframe := (cover_slot hcover).2
    exact ⟨k, rfl, by omega⟩
  | reg r => cases hcover; omega
  | mem x => cases hcover; omega
  | imm v => cases hcover; omega

/-- The choice of a location does not look at the globals. -/
theorem allocate_of_addGlobal {x : String} (h : (p.addGlobal x).allocate = .ok (o, q)) :
    ∃ q', p.allocate = .ok (o, q') ∧ q'.frame = q.frame := by
  obtain ⟨hnext, hcover⟩ := allocate_eq_ok.mp h
  have hsame : (p.addGlobal x).next = p.next := by
    unfold addGlobal
    split <;> rfl
  rw [hsame] at hnext
  suffices hcovered : ∃ q', p.cover o = .ok q' ∧ q'.frame = q.frame by
    obtain ⟨q', hq', hframe⟩ := hcovered
    exact ⟨q', allocate_eq_ok.mpr ⟨hnext, hq'⟩, hframe⟩
  cases o with
  | slot k =>
    simp only [cover, addGlobal_frame] at hcover ⊢
    split at hcover
    next => cases hcover
    next hk =>
      cases hcover
      rw [if_neg hk]
      exact ⟨_, rfl, rfl⟩
  | reg r => cases hcover; exact ⟨p, rfl, (p.addGlobal_frame x).symm⟩
  | mem y => cases hcover; exact ⟨p, rfl, (p.addGlobal_frame x).symm⟩
  | imm v => cases hcover; exact ⟨p, rfl, (p.addGlobal_frame x).symm⟩

end Placement

namespace Lowers

variable {p q : Placement} {op : Op} {code : List Instr}

/-- The frame has grown just enough for the values that are pending after the operation. -/
theorem frame_eq (h : Lowers p op code q) (hc : p.Canonical) :
    q.frame.toNat = max p.frame.toNat (q.depth - p.registers.toNat) := by
  have hpops := h.depth.1
  have hroom := hc.room
  rw [h.depth.2]
  cases h with
  | read ha _ =>
    have hframe := hc.allocate_frame ha
    exact hframe
  | write hp _ =>
    simp only [Op.depthAfter, Op.pops, Op.pushes]
    omega
  | const ha =>
    have hframe := hc.allocate_frame ha
    exact hframe
  | @load x dst q ha =>
    have hframe := (hc.addGlobal x).allocate_frame ha
    have hdepth : (p.addGlobal x).depth = p.depth := congrArg List.length (p.addGlobal_pending x)
    rw [p.addGlobal_frame, p.addGlobal_registers, hdepth] at hframe
    exact hframe
  | store hp =>
    simp only [Op.depthAfter, Op.pops, Op.pushes, Placement.addGlobal_frame]
    omega
  | binary hp =>
    simp only [Op.depthAfter, Op.pops, Op.pushes] at hpops ⊢
    omega

theorem frame_le_succ (h : Lowers p op code q) (hc : p.Canonical) :
    q.frame.toNat ≤ p.frame.toNat + 1 := by
  have hframe := h.frame_eq hc
  have hdepth : q.depth ≤ p.depth + 1 := by
    rw [h.depth.2]
    cases op <;> simp only [Op.depthAfter, Op.pops, Op.pushes] <;> omega
  have hroom := hc.room
  omega

theorem growth_eq (h : Lowers p op code q) :
    op.growth p = if p.frame < q.frame then [Placement.spillEntry q.frame.toNat] else [] := by
  have allocated {p q : Placement} {dst : Operand} (ha : p.allocate = .ok (dst, q)) :
      p.growth = if p.frame < q.frame then [Placement.spillEntry q.frame.toNat] else [] := by
    unfold Placement.growth
    rw [ha]
  cases h with
  | read ha _ =>
    have hgrowth := allocated ha
    exact hgrowth
  | write hp _ => simp [Op.growth, UInt32.lt_irrefl]
  | const ha =>
    have hgrowth := allocated ha
    exact hgrowth
  | @load x dst q ha =>
    obtain ⟨q', ha', hframe⟩ := Placement.allocate_of_addGlobal ha
    have hgrowth := allocated ha'
    rw [hframe] at hgrowth
    exact hgrowth
  | store hp => simp [Op.growth, UInt32.lt_irrefl]
  | binary hp => simp [Op.growth, UInt32.lt_irrefl]

/-- Code of an operation that makes the frame grow has the new slot for an operand. -/
theorem names_slot (h : Lowers p op code q) (hgrows : p.frame.toNat < q.frame.toNat) :
    ∃ i ∈ code, ∃ k, .slot k ∈ i.operands ∧ k.toNat + 1 = q.frame.toNat := by
  have moved (src dst : Operand) : ∃ i ∈ Lowering.move src dst, dst ∈ i.operands := by
    unfold Lowering.move
    split <;> simp [Instr.operands]
  cases h with
  | @read dst q ha _ =>
    obtain ⟨k, rfl, hk⟩ := Placement.allocate_grows ha hgrows
    obtain ⟨i, hi, ho⟩ := moved Reg.eax (.slot k)
    exact ⟨i, List.mem_append_right _ hi, k, ho, hk⟩
  | write hp _ => exact absurd hgrows (Nat.lt_irrefl _)
  | const ha =>
    obtain ⟨k, rfl, hk⟩ := Placement.allocate_grows ha hgrows
    exact ⟨_, List.mem_singleton.mpr rfl, k, by simp [Instr.operands], hk⟩
  | @load x dst q ha =>
    rw [← p.addGlobal_frame x] at hgrows
    obtain ⟨k, rfl, hk⟩ := Placement.allocate_grows ha hgrows
    obtain ⟨i, hi, ho⟩ := moved (.ofGlobal x) (.slot k)
    exact ⟨i, hi, k, ho, hk⟩
  | store hp =>
    rw [Placement.addGlobal_frame] at hgrows
    exact absurd hgrows (Nat.lt_irrefl _)
  | binary hp => exact absurd hgrows (Nat.lt_irrefl _)

end Lowers

/-! ### Lists of operations -/

namespace Lowering

variable {l : Lowering} {p last : Placement} {ops : List (Located Op)} {body : List Instr}

/-- The frame at the end is large enough for the greatest depth, and was not smaller before. -/
theorem code_frame (h : l.code p ops = .ok (body, last)) (hc : p.Canonical) :
    last.frame.toNat =
      max p.frame.toNat (Op.peak p.depth (ops.map (·.val)) - p.registers.toNat) := by
  have hroom := hc.room
  induction ops generalizing p body with
  | nil =>
    obtain ⟨-, rfl⟩ := code_nil_eq_ok.mp h
    simp only [List.map_nil, Op.peak]
    omega
  | cons op ops ih =>
    obtain ⟨own, q, more, hl, hm, -⟩ := code_cons_eq_ok.mp h
    have hq := hl.canonical hc
    have hlast := ih hm hq hq.room
    have hframe := hl.frame_eq hc
    have hle := Op.le_peak q.depth (ops.map (·.val))
    rw [hl.registers] at hlast
    simp only [List.map_cons, Op.peak, ← hl.depth.2]
    omega

/-- The most slots in use at one point, from the depths. -/
theorem max_spilled (h : l.code p ops = .ok (body, last)) (hc : p.Canonical) :
    ((p.points ops).map (·.spilled)).max? =
      some (Op.peak p.depth (ops.map (·.val)) - p.registers.toNat) := by
  induction ops generalizing p body with
  | nil =>
    simp only [Placement.points, List.map_cons, List.map_nil, Op.peak, hc.spilled]
    rfl
  | cons op ops ih =>
    obtain ⟨own, q, more, hl, hm, -⟩ := code_cons_eq_ok.mp h
    have hrest := ih hm (hl.canonical hc)
    rw [hl.registers] at hrest
    simp only [Placement.points, lower_eq_ok.mpr hl, List.map_cons, List.max?_cons, hrest,
      hc.spilled, Option.elim_some, Op.peak, ← hl.depth.2]
    congr 1
    omega

/-- From one point to the next the frame stays or grows by one slot. -/
theorem points_frame (h : l.code p ops = .ok (body, last)) (hc : p.Canonical) {n : Nat}
    {a b : Placement} (ha : (p.points ops)[n]? = some a) (hb : (p.points ops)[n + 1]? = some b) :
    a.frame.toNat ≤ b.frame.toNat ∧ b.frame.toNat ≤ a.frame.toNat + 1 := by
  induction ops generalizing p body n with
  | nil => simp [Placement.points] at hb
  | cons op ops ih =>
    obtain ⟨own, q, more, hl, hm, -⟩ := code_cons_eq_ok.mp h
    simp only [Placement.points, lower_eq_ok.mpr hl, List.getElem?_cons_succ] at ha hb
    cases n with
    | succ n => exact ih hm (hl.canonical hc) ha hb
    | zero =>
      -- The first two points are the ones before and after the first operation.
      have hq : (q.points ops)[0]? = some q := by
        cases ops <;> rfl
      rw [hq] at hb
      cases ha
      cases hb
      exact ⟨hl.frame_le, hl.frame_le_succ hc⟩

/-- Where the frame has grown, the code has its last slot for an operand. -/
theorem code_names_slot (h : l.code p ops = .ok (body, last)) (hc : p.Canonical)
    (hgrows : p.frame.toNat < last.frame.toNat) :
    ∃ i ∈ body, ∃ k, .slot k ∈ i.operands ∧ k.toNat + 1 = last.frame.toNat := by
  induction ops generalizing p body with
  | nil =>
    obtain ⟨-, rfl⟩ := code_nil_eq_ok.mp h
    omega
  | cons op ops ih =>
    obtain ⟨own, q, more, hl, hm, rfl⟩ := code_cons_eq_ok.mp h
    have hq := hl.canonical hc
    by_cases hmore : q.frame.toNat < last.frame.toNat
    · obtain ⟨i, hi, hk⟩ := ih hm hq hmore
      exact ⟨i, List.mem_append_right _ hi, hk⟩
    · have hmono := (code_canonical hm hq).2.2
      obtain ⟨i, hi, k, ho, hk⟩ := hl.names_slot (by omega)
      refine ⟨i, ?_, k, ho, by omega⟩
      exact List.mem_append_left _ (List.mem_append_right _ hi)

end Lowering

/-! ### Messages -/

/-- Whether a message is about the growth of the frame. -/
def Log.Entry.isSpill (e : Log.Entry) : Bool := "spill:".toList.isPrefixOf e.message.toList

theorem isSpill_spillEntry (slots : Nat) : (Placement.spillEntry slots).isSpill = true := by
  simp [Log.Entry.isSpill, Placement.spillEntry]

namespace Lowering

variable {l : Lowering} {p last : Placement} {ops : List (Located Op)} {body : List Instr}

theorem filter_trail (h : l.code p ops = .ok (body, last)) (hc : p.Canonical) :
    (l.trail p ops).filter (·.isSpill) =
      (List.range' (p.frame.toNat + 1) (last.frame.toNat - p.frame.toNat)).map
        Placement.spillEntry := by
  induction ops generalizing p body with
  | nil =>
    obtain ⟨-, rfl⟩ := code_nil_eq_ok.mp h
    simp [trail]
  | cons op ops ih =>
    obtain ⟨own, q, more, hl, hm, -⟩ := code_cons_eq_ok.mp h
    have hq := hl.canonical hc
    have hrest := ih hm hq
    have hgrows := hl.frame_le
    have hone := hl.frame_le_succ hc
    have hlast := (code_canonical hm hq).2.2
    have hhead : (l.trail p (op :: ops)).filter (·.isSpill) =
        (op.val.growth p).filter (·.isSpill) ++ (l.trail q ops).filter (·.isSpill) := by
      simp [trail, lower_eq_ok.mpr hl, Log.Entry.isSpill]
    rw [hhead, hl.growth_eq, hrest]
    by_cases hlt : p.frame.toNat < q.frame.toNat
    · have hsplit : last.frame.toNat - p.frame.toNat = last.frame.toNat - q.frame.toNat + 1 := by
        omega
      have hnext : q.frame.toNat = p.frame.toNat + 1 := by omega
      rw [if_pos (UInt32.lt_iff_toNat_lt.mpr hlt), hsplit, List.range'_succ, hnext]
      simp [isSpill_spillEntry]
    · have hsame : q.frame.toNat = p.frame.toNat := by omega
      rw [if_neg (fun h => hlt (UInt32.lt_iff_toNat_lt.mp h)), hsame]
      rfl

/-- The messages about the frame, among all messages of a listing that has code. -/
theorem filter_log {r : Lowered} (h : l.lower ops = .ok r) :
    (l.log ops).filter (·.isSpill) =
      (List.range' 1 r.placement.frame.toNat).map Placement.spillEntry := by
  have htrail := filter_trail (lower_eq_ok_iff.mp h).1 (Placement.canonical_empty l.registers)
  have hsummary : (summary ops r).isSpill = false := by
    simp only [summary, Log.Entry.isSpill, String.toList_append, List.append_assoc]
    rfl
  simp only [log, h, List.filter_append, htrail, List.filter_cons, hsummary, List.filter_nil]
  simp [Placement.empty]

end Lowering

/-- **The frame is sound and tight.** It has the most slots that were in use at one point, which is
how far the greatest depth exceeds the registers. It grows by one slot at a time, with one message
each time. The code has only slots of the frame for operands, and the last one is among them. -/
theorem frame_tight (registers : UInt8) (comments : Bool) (ops : List (Located Op)) (r : Lowered)
    (hr : (Lowering.ofOptions registers comments).lower ops = .ok r) :
    (((Placement.empty (Placement.usable registers)).points ops).map (·.spilled)).max? =
      some r.placement.frame.toNat ∧
    r.placement.frame.toNat =
      Op.peak 0 (ops.map (·.val)) - max 1 (min registers.toNat 4) ∧
    (∀ n p q, ((Placement.empty (Placement.usable registers)).points ops)[n]? = some p →
      ((Placement.empty (Placement.usable registers)).points ops)[n + 1]? = some q →
      p.frame.toNat ≤ q.frame.toNat ∧ q.frame.toNat ≤ p.frame.toNat + 1) ∧
    ((Lowering.ofOptions registers comments).log ops).filter (·.isSpill) =
      (List.range' 1 r.placement.frame.toNat).map Placement.spillEntry ∧
    (∀ i ∈ r.body, ∀ k, .slot k ∈ i.operands → k.toNat < r.placement.frame.toNat) ∧
    (0 < r.placement.frame.toNat →
      ∃ i ∈ r.body, ∃ k, .slot k ∈ i.operands ∧ k.toNat = r.placement.frame.toNat - 1) := by
  have hcode := (Lowering.lower_eq_ok_iff.mp hr).1
  have hc := Placement.canonical_empty (Placement.usable registers)
  have hregs : (Placement.empty (Placement.usable registers)).registers.toNat =
      max 1 (min registers.toNat 4) := by
    show (Placement.usable (Placement.usable registers)).toNat = _
    rw [Placement.toNat_usable_eq, Placement.toNat_usable_eq]
    omega
  have hframe : r.placement.frame.toNat =
      Op.peak 0 (ops.map (·.val)) - max 1 (min registers.toNat 4) := by
    have hcovers := Lowering.code_frame hcode hc
    rw [← hregs]
    exact hcovers.trans (Nat.zero_max _)
  refine ⟨?_, hframe, ?_, Lowering.filter_log hr, ?_, ?_⟩
  · have hmax := Lowering.max_spilled hcode hc
    rw [hframe, ← hregs]
    exact hmax
  · intro n p q hp hq
    exact Lowering.points_frame hcode hc hp hq
  · intro i hi k hk
    exact code_confined hcode hc i hi _ hk
  · intro hpos
    obtain ⟨i, hi, k, hk, hlast⟩ := Lowering.code_names_slot hcode hc hpos
    exact ⟨i, hi, k, hk, by omega⟩

/-- A listing that needs two slots twice when it has one register. -/
def regrowing : List (Located Op) :=
  [.const 1, .const 2, .const 3, .binary .add, .const 4, .write, .write, .store "x"].map
    (⟨·, .nowhere⟩)

def regrowingCode : Lowered where
  body := [.mov (.imm 1) Reg.ebx, .mov (.imm 2) (.slot 0), .mov (.imm 3) (.slot 1),
    .mov (.slot 1) Reg.edx, .alu .add Reg.edx (.slot 0), .mov (.imm 4) (.slot 1), .push (.slot 1),
    .call "write", .pop Reg.eax, .push (.slot 0), .call "write", .pop Reg.eax,
    .mov Reg.ebx (.mem "global_x")]
  placement := ⟨[], 2, ["x"], 1⟩
  warnings := []

theorem regrowing_frame_tight :
    (Lowering.ofOptions 1 false).lower regrowing = .ok regrowingCode ∧
    (((Placement.empty 1).points regrowing).map (·.spilled)).max? = some 2 ∧
    2 = Op.peak 0 (regrowing.map (·.val)) - 1 ∧
    ((Lowering.ofOptions 1 false).log regrowing).filter (·.isSpill) =
      [Placement.spillEntry 1, Placement.spillEntry 2] ∧
    ∃ i ∈ regrowingCode.body, ∃ k, .slot k ∈ i.operands ∧ k.toNat = 1 := by
  have hlower : (Lowering.ofOptions 1 false).lower regrowing = .ok regrowingCode := rfl
  obtain ⟨hmax, hpeak, -, hlog, -, hlast⟩ := frame_tight 1 false regrowing regrowingCode hlower
  exact ⟨hlower, hmax, hpeak, hlog, hlast (by decide)⟩

end StackBackend
