import StackBackend.Proofs.Procedure

/-! Slots and pushed values never share a cell of the stack.

`offset` follows the stack pointer, relative to the frame pointer, through some code. The code of an
operation pops what it pushes and nothing more (`Balanced`), and it names no slot beyond the frame
and neither of the two pointers (`Confined`). So inside a procedure every push is below the slots of
the frame, and every register that was saved is restored from the cell that it was saved in
(`slots_apart_from_pushes`). -/
namespace StackBackend

/-! ### The stack pointer -/

namespace Instr

def isPush : Instr → Bool
  | push _ => true
  | _ => false

def isPop : Instr → Bool
  | pop _ => true
  | _ => false

/-- The distance from the frame pointer to the stack pointer after an instruction. -/
def track (n : Int) : Instr → Int
  | mov s d => if (s, d) = (.reg .esp, .reg .ebp) ∨ (s, d) = (.reg .ebp, .reg .esp) then 0 else n
  | alu .sub (.imm v) d => if d = .reg .esp then n - v.toInt else n
  | push _ => n - 4
  | pop _ => n + 4
  | _ => n

/-- The distance from the frame pointer to the stack pointer after some code. Where it starts does
not matter once one pointer has been set to the other. -/
def offset (code : List Instr) : Int := code.foldl track 0

theorem offset_concat (code : List Instr) (i : Instr) :
    offset (code ++ [i]) = i.track (offset code) := by
  simp [offset]

/-- An instruction that does not name the stack pointer moves it by a word or not at all. -/
theorem track_eq (n : Int) {i : Instr} (h : .reg .esp ∉ i.operands) :
    i.track n = n + 4 * [i].countP isPop - 4 * [i].countP isPush := by
  cases i with
  | mov s d =>
    simp only [operands, List.mem_cons, List.not_mem_nil, or_false, not_or] at h
    simp [track, isPush, isPop, Ne.symm h.1, Ne.symm h.2]
  | alu op s d =>
    simp only [operands, List.mem_cons, List.not_mem_nil, or_false, not_or] at h
    have hd : d ≠ .reg .esp := Ne.symm h.2
    simp only [isPush, isPop, List.countP_singleton]
    unfold track
    split <;> simp_all
  | _ => simp [track, isPush, isPop]

theorem foldl_track_eq (n : Int) {code : List Instr} (h : ∀ i ∈ code, .reg .esp ∉ i.operands) :
    code.foldl track n = n + 4 * code.countP isPop - 4 * code.countP isPush := by
  induction code generalizing n with
  | nil => simp
  | cons i code ih =>
    have hcons (f : Instr → Bool) : (i :: code).countP f = [i].countP f + code.countP f := by
      rw [← List.countP_append, List.singleton_append]
    rw [List.foldl_cons, ih _ fun j hj => h j (List.mem_cons_of_mem _ hj),
      track_eq n (h i (List.mem_cons_self ..)), hcons, hcons]
    omega

theorem offset_append (a : List Instr) {b : List Instr} (h : ∀ i ∈ b, .reg .esp ∉ i.operands) :
    offset (a ++ b) = offset a + 4 * b.countP isPop - 4 * b.countP isPush := by
  unfold offset
  rw [List.foldl_append]
  exact foldl_track_eq _ h

end Instr

open Instr (isPush isPop offset)

/-! ### Balanced code -/

/-- The code pops nothing that it has not pushed, and leaves nothing behind. -/
structure Balanced (code : List Instr) : Prop where
  above : ∀ pre, pre <+: code → pre.countP isPop ≤ pre.countP isPush
  level : code.countP isPop = code.countP isPush

namespace Balanced

variable {a b code : List Instr}

theorem of_plain (h : ∀ i ∈ code, i.isPush = false ∧ i.isPop = false) : Balanced code := by
  have hpushes : code.countP isPush = 0 := by
    rw [List.countP_eq_zero]
    intro i hi
    simp [(h i hi).1]
  have hpops : ∀ pre, pre <+: code → pre.countP isPop = 0 := by
    intro pre hpre
    rw [List.countP_eq_zero]
    intro i hi
    simp [(h i (hpre.subset hi)).2]
  refine ⟨fun pre hpre => ?_, ?_⟩
  · rw [hpops pre hpre]
    exact Nat.zero_le _
  · rw [hpops code List.prefix_rfl, hpushes]

theorem append (h : Balanced a) (g : Balanced b) : Balanced (a ++ b) := by
  refine ⟨fun pre hpre => ?_, ?_⟩
  · rcases List.prefix_or_prefix_of_prefix hpre (List.prefix_append a b) with hpre' | ⟨q, rfl⟩
    · exact h.above pre hpre'
    · have hq := g.above q ((List.prefix_append_right_inj a).mp hpre)
      have hlevel := h.level
      rw [List.countP_append, List.countP_append]
      omega
  · rw [List.countP_append, List.countP_append, h.level, g.level]

/-- A push and a pop around balanced code. -/
theorem wrap (h : Balanced code) (s d : Operand) : Balanced (.push s :: (code ++ [.pop d])) := by
  have hlevel : (.push s :: (code ++ [.pop d])).countP isPop =
      (.push s :: (code ++ [.pop d])).countP isPush := by
    simp [List.countP_cons, isPush, isPop, h.level]
  refine ⟨fun pre hpre => ?_, hlevel⟩
  rcases List.prefix_cons_iff.mp hpre with rfl | ⟨rest, rfl, hrest⟩
  · exact Nat.le_refl _
  · rcases List.prefix_concat_iff.mp hrest with rfl | hrest
    · exact Nat.le_of_eq hlevel
    · have habove := h.above rest hrest
      simp only [List.countP_cons, isPush, isPop, if_true]
      exact Nat.le_succ_of_le habove

/-- Registers saved before balanced code and restored after it. -/
theorem saved (h : Balanced code) (rs : List Reg) :
    Balanced ((rs.map fun r => .push (.reg r)) ++ code ++ rs.reverse.map fun r => .pop (.reg r)) := by
  induction rs with
  | nil => simpa using h
  | cons r rs ih =>
    have hwrap := ih.wrap (.reg r) (.reg r)
    simpa using hwrap

end Balanced

/-! ### The operands of body code -/

/-- An operand that names no slot beyond the frame, and neither the frame pointer nor the stack
pointer. -/
def Operand.Confined (frame : UInt32) : Operand → Prop
  | .reg r => r ≠ .ebp ∧ r ≠ .esp
  | .slot k => k.toNat < frame.toNat
  | .mem _ | .imm _ => True

def Confined (frame : UInt32) (code : List Instr) : Prop :=
  ∀ i ∈ code, ∀ o ∈ i.operands, o.Confined frame

namespace Confined

variable {frame larger : UInt32} {a b code : List Instr}

theorem append (h : Confined frame a) (g : Confined frame b) : Confined frame (a ++ b) := by
  intro i hi
  rcases List.mem_append.mp hi with hi | hi
  · exact h i hi
  · exact g i hi

theorem mono (h : Confined frame code) (hle : frame.toNat ≤ larger.toNat) : Confined larger code := by
  intro i hi o ho
  have hconf := h i hi o ho
  cases o with
  | slot k => exact Nat.lt_of_lt_of_le hconf hle
  | _ => exact hconf

theorem esp_not_mem (h : Confined frame code) : ∀ i ∈ code, .reg .esp ∉ i.operands :=
  fun i hi ho => (h i hi _ ho).2 rfl

end Confined

namespace Lowering

/-- An instruction of a template: it leaves the stack alone, and its operands are the two locations
of the template, scratch registers and numbers. -/
def Plain (src dst : Operand) (i : Instr) : Prop :=
  (i.isPush = false ∧ i.isPop = false) ∧
    ∀ o ∈ i.operands, o = src ∨ o = dst ∨ (∃ r ∈ scratch, o = .reg r) ∨ ∃ v, o = .imm v

variable {frame : UInt32} {src dst : Operand} {code : List Instr} {p : Placement}

theorem move_plain (src dst : Operand) : ∀ i ∈ move src dst, Plain src dst i := by
  unfold move
  split <;> simp [Plain, isPush, isPop, Instr.operands, scratch]

theorem operator_plain (op : Operator) (src dst : Operand) :
    ∀ i ∈ operator op src dst, Plain src dst i := by
  unfold operator
  split
  · unfold combine
    split <;> simp [Plain, isPush, isPop, Instr.operands, scratch]
  · simp [logical, truth, clear, ByteReg.full, Plain, isPush, isPop, Instr.operands, scratch]
  · unfold comparison combine
    split <;> simp [clear, Plain, isPush, isPop, Instr.operands, scratch]
  · unfold multiply
    split <;> simp [Plain, isPush, isPop, Instr.operands, scratch]
  · simp [divide, move, Operand.inMemory, Plain, isPush, isPop, Instr.operands, scratch]
  · simp [divide, move, Operand.inMemory, Plain, isPush, isPop, Instr.operands, scratch]

theorem balanced_of_plain (h : ∀ i ∈ code, Plain src dst i) : Balanced code :=
  .of_plain fun i hi => (h i hi).1

theorem confined_of_plain (h : ∀ i ∈ code, Plain src dst i) (hs : src.Confined frame)
    (hd : dst.Confined frame) : Confined frame code := by
  intro i hi o ho
  rcases (h i hi).2 o ho with rfl | rfl | ⟨r, hr, rfl⟩ | ⟨v, rfl⟩
  · exact hs
  · exact hd
  · have hscratch : ∀ r ∈ scratch, r ≠ .ebp ∧ r ≠ .esp := by decide
    exact hscratch r hr
  · trivial

/-- Locations that a canonical placement hands out. -/
theorem confined_of_within (hc : p.Canonical) {o : Operand} (ho : p.Within o) :
    o.Confined p.frame := by
  cases o with
  | reg r =>
    have hlt : r.index.toNat < p.registers.toNat := ho
    have hfour := hc.le_four
    constructor
    · rintro rfl
      have : Reg.ebp.index.toNat = 6 := rfl
      omega
    · rintro rfl
      have : Reg.esp.index.toNat = 7 := rfl
      omega
  | slot k => exact ho
  | mem x => trivial
  | imm v => trivial

theorem around_confined (hc : p.Canonical) (h : Confined p.frame code) :
    Confined p.frame (around p code) := by
  have hsaved : ∀ r ∈ saved p, (Operand.reg r).Confined p.frame := fun r hr =>
    confined_of_within hc (hc.within (Placement.mem_live.mp (List.mem_filter.mp hr).1))
  refine Confined.append (Confined.append ?_ h) ?_
  · intro i hi o ho
    obtain ⟨r, hr, rfl⟩ := List.mem_map.mp hi
    rw [List.mem_singleton.mp ho]
    exact hsaved r hr
  · intro i hi o ho
    obtain ⟨r, hr, rfl⟩ := List.mem_map.mp hi
    rw [List.mem_singleton.mp ho]
    exact hsaved r (List.mem_reverse.mp hr)

end Lowering

namespace Lowers

open Lowering

variable {p q : Placement} {op : Op} {code : List Instr}

theorem balanced (h : Lowers p op code q) : Balanced code := by
  cases h with
  | read ha _ =>
    have hcall : Balanced [.call "read"] := .of_plain (by decide)
    exact (hcall.saved _).append (balanced_of_plain (move_plain _ _))
  | write hp _ =>
    have hcall : Balanced [.call "write"] := .of_plain (by decide)
    exact (hcall.wrap _ _).saved _
  | const ha => exact balanced_of_plain (move_plain (.imm _) _)
  | load ha => exact balanced_of_plain (move_plain _ _)
  | store hp => exact balanced_of_plain (move_plain _ _)
  | binary hp => exact balanced_of_plain (operator_plain _ _ _)

theorem confined (h : Lowers p op code q) (hc : p.Canonical) : Confined q.frame code := by
  have hq := h.canonical hc
  have heax : (Operand.reg .eax).Confined q.frame := ⟨by decide, by decide⟩
  -- Every location in the code is pending before the operation or after it.
  have hbefore {o} (ho : o ∈ p.pending) : o.Confined p.frame := confined_of_within hc (hc.within ho)
  have hafter {o} (ho : o ∈ q.pending) : o.Confined q.frame := confined_of_within hq (hq.within ho)
  cases h with
  | read ha _ =>
    have hdst := hafter (List.mem_cons_self ..)
    refine (around_confined (hc.allocate ha).2.1 ?_).append
      (confined_of_plain (move_plain _ _) heax hdst)
    simp [Confined, Instr.operands]
  | write hp _ =>
    have hvalue := hbefore (by rw [hp]; exact List.mem_cons_self ..)
    refine around_confined hq ?_
    simp [Confined, Instr.operands, hvalue, heax]
  | const ha =>
    exact confined_of_plain (move_plain (.imm _) _) trivial (hafter (List.mem_cons_self ..))
  | load ha => exact confined_of_plain (move_plain _ _) trivial (hafter (List.mem_cons_self ..))
  | store hp =>
    have hsrc := hbefore (by rw [hp]; exact List.mem_cons_self ..)
    rw [← p.addGlobal_frame] at hsrc
    exact confined_of_plain (move_plain _ _) hsrc trivial
  | binary hp =>
    refine confined_of_plain (operator_plain _ _ _) (hbefore ?_) (hbefore ?_)
    · simp [hp]
    · simp [hp]

end Lowers

variable {l : Lowering} {p last : Placement} {ops : List (Located Op)} {body : List Instr}

theorem heading_plain (l : Lowering) (op : Op) :
    ∀ i ∈ l.heading op, (i.isPush = false ∧ i.isPop = false) ∧ i.operands = [] := by
  unfold Lowering.heading
  split <;> simp [isPush, isPop, Instr.operands]

theorem code_balanced (h : l.code p ops = .ok (body, last)) : Balanced body := by
  induction ops generalizing p body with
  | nil =>
    obtain ⟨rfl, -⟩ := Lowering.code_nil_eq_ok.mp h
    exact .of_plain (by simp)
  | cons op ops ih =>
    obtain ⟨own, q, more, hl, hm, rfl⟩ := Lowering.code_cons_eq_ok.mp h
    have hheading : Balanced (l.heading op.val) := .of_plain fun i hi => (heading_plain l _ i hi).1
    exact (hheading.append hl.balanced).append (ih hm)

/-- The frame only grows, so what was in it remains in it. -/
theorem code_confined (h : l.code p ops = .ok (body, last)) (hc : p.Canonical) :
    Confined last.frame body := by
  induction ops generalizing p body with
  | nil =>
    obtain ⟨rfl, -⟩ := Lowering.code_nil_eq_ok.mp h
    intro i hi
    cases hi
  | cons op ops ih =>
    obtain ⟨own, q, more, hl, hm, rfl⟩ := Lowering.code_cons_eq_ok.mp h
    have hq := hl.canonical hc
    have hheading : Confined last.frame (l.heading op.val) := by
      intro i hi o ho
      rw [(heading_plain l _ i hi).2] at ho
      cases ho
    have hown := (hl.confined hc).mono (Lowering.code_canonical hm hq).2.2
    exact (hheading.append hown).append (ih hm hq)

/-! ### Whole procedures -/

/-- The cell of a slot, by its distance from the frame pointer. -/
def Operand.cell (k : UInt32) : Int := -4 * (k.toNat + 1)

theorem Operand.text_slot (k : UInt32) :
    (Operand.slot k).text = .ok (Text.Decimal.writeInt (Operand.cell k) ++ "(%ebp)") := by
  have hcell : Operand.cell k = .negSucc (4 * k.toNat + 3) := by
    rw [Int.negSucc_eq]
    unfold Operand.cell
    omega
  have hbytes : (k.toNat + 1) * Operand.wordSize = 4 * k.toNat + 3 + 1 := by
    unfold Operand.wordSize
    omega
  rw [hcell]
  simp only [Operand.text, Text.Decimal.writeInt, hbytes]

/-- Past balanced code the stack pointer is where it was, and on the way it is never above. -/
theorem Balanced.offset_append {code : List Instr} (h : Balanced code)
    (hesp : ∀ i ∈ code, .reg .esp ∉ i.operands) (a : List Instr) :
    offset (a ++ code) = offset a ∧ ∀ pre, pre <+: code → offset (a ++ pre) ≤ offset a := by
  refine ⟨?_, fun pre hpre => ?_⟩
  · rw [Instr.offset_append a hesp, h.level]
    omega
  · have habove := h.above pre hpre
    rw [Instr.offset_append a fun i hi => hesp i (hpre.subset hi)]
    omega

namespace Program

variable {p : Program} {inner pre post : List Instr} {o : Operand}

/-- The distance is counted from where the frame pointer is set. -/
theorem offset_opening (p : Program) (code : List Instr) :
    offset (p.opening ++ .mov Reg.esp Reg.ebp :: code) = code.foldl Instr.track 0 := by
  have hset (n : Int) : (Instr.mov Reg.esp Reg.ebp).track n = 0 := by simp [Instr.track]
  unfold offset
  rw [List.foldl_append, List.foldl_cons, hset]

theorem offset_entered (h : p.frame.toNat < 536870912) : offset p.entered = -4 * p.frame.toNat := by
  rw [entered, offset_opening]
  unfold reserved
  split
  next hzero => simp [hzero]
  next =>
    have hbytes : (Int32.ofInt (4 * p.frame.toNat)).toInt = 4 * p.frame.toNat :=
      Int32.toInt_ofInt_of_le (by omega) (by
        show 4 * (p.frame.toNat : Int) < 2147483648
        omega)
    simp only [List.foldl_cons, List.foldl_nil, Instr.track, if_true, hbytes]
    omega

theorem mov_not_mem_opening (p : Program) : .mov Reg.esp Reg.ebp ∉ p.opening := by
  simp [opening, data, cell]

/-- A push after the frame pointer is set is one of the registers' or of the body's. -/
theorem push_after_entered (h : p.entered ++ (inner ++ closing) = pre ++ .push o :: post)
    (hmov : .mov Reg.esp Reg.ebp ∈ pre) : ∃ q, q <+: inner ∧ pre = p.entered ++ q := by
  have hreserved : .push o ∉ .mov Reg.esp Reg.ebp :: p.reserved := by
    unfold reserved
    split <;> simp
  have hclosing : .push o ∉ closing := by simp [closing]
  rcases List.append_eq_append_iff.mp h with ⟨x, rfl, hx⟩ | ⟨x, hx, hy⟩
  · refine ⟨x, ?_, rfl⟩
    rcases List.append_eq_append_iff.mp hx with ⟨y, rfl, hy⟩ | ⟨y, rfl, -⟩
    · exact absurd (by rw [hy]; simp) hclosing
    · exact List.prefix_append x y
  · cases x with
    | nil => exact ⟨[], List.nil_prefix, by simpa using hx.symm⟩
    | cons i x =>
      obtain ⟨rfl, -⟩ := List.cons.inj hy
      -- The push would be before the frame pointer is set, or it would reserve the frame.
      rcases List.append_eq_append_iff.mp hx with ⟨y, rfl, hy⟩ | ⟨y, hy, -⟩
      · exact absurd (by rw [hy]; simp) hreserved
      · exact absurd (by rw [hy]; simp [hmov]) p.mov_not_mem_opening

/-- The push of one of the registers that are saved, and the pop that restores it. -/
theorem sheltered_split (p : Program) (before after : List Reg) (x : Reg) :
    p.sheltered (before ++ x :: after) =
      (before.map fun r => .push (.reg r)) ++ .push (.reg x) ::
        (p.sheltered after ++ .pop (.reg x) :: before.reverse.map fun r => .pop (.reg r)) := by
  simp [sheltered]

theorem sheltered_esp (h : Confined p.frame p.body) {rs : List Reg} (hrs : Reg.esp ∉ rs) :
    ∀ i ∈ p.sheltered rs, .reg .esp ∉ i.operands := by
  intro i hi ho
  rcases List.mem_append.mp hi with hi | hi
  · rcases List.mem_append.mp hi with hi | hi
    · obtain ⟨r, hr, rfl⟩ := List.mem_map.mp hi
      cases List.mem_singleton.mp ho
      exact hrs hr
    · exact h.esp_not_mem i hi ho
  · obtain ⟨r, hr, rfl⟩ := List.mem_map.mp hi
    cases List.mem_singleton.mp ho
    exact hrs (List.mem_reverse.mp hr)

/-- The stack pointer around and inside a body whose registers are saved. -/
theorem offset_sheltered (hb : Balanced p.body) (hc : Confined p.frame p.body) {rs : List Reg}
    (hrs : Reg.esp ∉ rs) (a : List Instr) : offset (a ++ p.sheltered rs) = offset a ∧
      ∀ pre, pre <+: p.sheltered rs → offset (a ++ pre) ≤ offset a :=
  (hb.saved rs).offset_append (sheltered_esp hc hrs) a

theorem esp_not_mem_calleeSaved {registers : UInt8} (h : registers.toNat ≤ 4) :
    Reg.esp ∉ calleeSavedUpTo registers := by
  intro hm
  have htake := List.take_subset_take_left Reg.table h (List.mem_filter.mp hm).1
  exact absurd htake (by decide)

end Program

/-- **Slots and pushed values never share a cell.** Once the frame pointer is set, every push is
below the frame and every slot is in it; the code of each operation pops what it pushes; and what
was saved is restored from the cell that it was saved in. -/
theorem slots_apart_from_pushes (registers : UInt8) (comments : Bool) (ops : List (Located Op))
    (r : Lowered) (hr : (Lowering.ofOptions registers comments).lower ops = .ok r)
    (hframe : r.placement.frame.toNat < 536870912) :
    ∃ code, (Program.ofLowered r).instructions = .ok code ∧
      (∀ pre o post, code = pre ++ .push o :: post → .mov Reg.esp Reg.ebp ∈ pre →
        offset pre - 4 < -4 * r.placement.frame.toNat) ∧
      (∀ i ∈ r.body, ∀ k, .slot k ∈ i.operands →
        (Operand.slot k).text = .ok (Text.Decimal.writeInt (Operand.cell k) ++ "(%ebp)") ∧
        -4 * r.placement.frame.toNat ≤ Operand.cell k ∧ Operand.cell k ≤ -4) ∧
      (∀ pre, pre <+: r.body → pre.countP isPop ≤ pre.countP isPush) ∧
      (∀ before op after, ops = before ++ op :: after → ∃ head p own q tail,
        (Lowering.ofOptions registers comments).code (.empty (Placement.usable registers)) before =
          .ok (head, p) ∧
        op.val.lower p = .ok (own, q) ∧
        r.body = head ++ ((Lowering.ofOptions registers comments).heading op.val ++ own) ++ tail ∧
        own.countP isPop = own.countP isPush) ∧
      (∀ before x after, (Program.ofLowered r).calleeSaved = before ++ x :: after →
        ∃ pre post, pre = (Program.ofLowered r).entered ++ before.map (fun y => .push (.reg y)) ∧
          code = pre ++ .push (.reg x) ::
            ((Program.ofLowered r).sheltered after ++ .pop (.reg x) :: post) ∧
          offset (pre ++ .push (.reg x) :: (Program.ofLowered r).sheltered after) =
            offset pre - 4) ∧
      ∃ pre, code = pre ++ [.mov Reg.ebp Reg.esp, .pop Reg.ebp, .ret] ∧
        offset pre = -4 * r.placement.frame.toNat := by
  have hcode := (Lowering.lower_eq_ok_iff.mp hr).1
  have hc := Placement.canonical_empty (Placement.usable registers)
  have hbalanced := code_balanced hcode
  have hconfined := code_confined hcode hc
  have hentered : offset (Program.ofLowered r).entered = -4 * r.placement.frame.toNat :=
    Program.offset_entered hframe
  have hesp : Reg.esp ∉ (Program.ofLowered r).calleeSaved :=
    Program.esp_not_mem_calleeSaved (Lowering.code_canonical hcode hc).1.le_four
  have hsheltered {rs : List Reg} (hrs : Reg.esp ∉ rs) :=
    Program.offset_sheltered (p := .ofLowered r) hbalanced hconfined hrs
  refine ⟨_, Program.instructions_eq_ok hframe, ?_, ?_, hbalanced.above, ?_, ?_, ?_⟩
  · intro pre o post hpre hmov
    rw [List.append_assoc] at hpre
    obtain ⟨q, hq, rfl⟩ := Program.push_after_entered hpre hmov
    have hle := (hsheltered hesp (Program.ofLowered r).entered).2 q hq
    omega
  · intro i hi k hk
    have hlt : k.toNat < r.placement.frame.toNat := hconfined i hi _ hk
    refine ⟨Operand.text_slot k, ?_, ?_⟩ <;> unfold Operand.cell <;> omega
  · rintro before op after rfl
    obtain ⟨head, p, own, q, tail, hhead, hown, -, hbody⟩ := Lowering.code_split hcode
    exact ⟨head, p, own, q, tail, hhead, lower_eq_ok.mpr hown, hbody, hown.balanced.level⟩
  · intro before x after hsaved
    have hesp' : Reg.esp ∉ after := fun hm => hesp (by rw [hsaved]; simp [hm])
    refine ⟨_, (before.reverse.map fun y => .pop (.reg y)) ++ Program.closing, rfl, ?_, ?_⟩
    · rw [hsaved, Program.sheltered_split]
      simp only [List.append_assoc, List.cons_append]
    · rw [List.append_cons, (hsheltered hesp' _).1, Instr.offset_concat]
      rfl
  · refine ⟨(Program.ofLowered r).entered ++ (Program.ofLowered r).sheltered
      (Program.ofLowered r).calleeSaved ++ [.alu .xor Reg.eax Reg.eax], ?_, ?_⟩
    · simp [Program.closing]
    · rw [Instr.offset_concat]
      exact (hsheltered hesp _).1.trans hentered

theorem repeating_slots_apart :
    (Lowering.ofOptions 2 false).lower repeating = .ok repeatingCode ∧
    repeatingCode.placement.frame.toNat < 536870912 ∧
    ∃ code, (Program.ofLowered repeatingCode).instructions = .ok code ∧
      (∀ pre o post, code = pre ++ .push o :: post → .mov Reg.esp Reg.ebp ∈ pre →
        offset pre - 4 < -4) ∧
      (Operand.slot 0).text = .ok "-4(%ebp)" ∧
      ∃ pre post, code = pre ++ .push Reg.ebx :: (repeatingCode.body ++ .pop Reg.ebx :: post) ∧
        offset (pre ++ .push Reg.ebx :: repeatingCode.body) = offset pre - 4 := by
  have hlower : (Lowering.ofOptions 2 false).lower repeating = .ok repeatingCode := rfl
  have hframe : repeatingCode.placement.frame.toNat < 536870912 := by decide
  obtain ⟨code, hcode, hpushes, hslots, -, -, hsaved, -⟩ :=
    slots_apart_from_pushes 2 false repeating repeatingCode hlower hframe
  obtain ⟨pre, post, -, hsplit, hoffset⟩ := hsaved [] .ebx [] rfl
  have hbody : (Program.ofLowered repeatingCode).sheltered [] = repeatingCode.body := rfl
  rw [hbody] at hsplit hoffset
  refine ⟨hlower, hframe, code, hcode, hpushes, ?_, pre, post, hsplit, hoffset⟩
  exact (hslots (.push (.slot 0)) (by decide) 0 (by decide)).1

end StackBackend
