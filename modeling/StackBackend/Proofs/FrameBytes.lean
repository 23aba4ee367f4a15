import StackBackend.Proofs.History
import StackBackend.Proofs.StackCells

/-! How many bytes a procedure reserves for its frame.

A frame is counted in slots, as an unsigned number, and reserved in bytes, as a signed one. Between
the two the count is taken for a signed number and multiplied, and only the product is checked. Most
counts that are too large have a product that does not fit and are refused; but the greatest are
taken for negative numbers that are small enough (`frameBytes_eq_ok_iff`), and then the stack
pointer moves the wrong way (`offset_reserved`).

Counts as large as that come from slots that the placement has not handed out, or from as many
steps. Where no slot is pushed from elsewhere, every pending slot is in the frame (`Covered`). A
step adds one slot at most then, and the frame has no more slots than there were steps
(`frame_le_length`). -/
namespace StackBackend

open Instr (offset)

/-! ### Histories with any values -/

namespace Placement

/-- An action, or a value pushed at a location that need not be handed out before. -/
inductive Step where
  | act (action : Action)
  | push (location : Operand)
  deriving DecidableEq, Repr

def Step.apply (p : Placement) : Step → Except Refusal Placement
  | act a => a.apply p
  | push o => .ok (p.push o)

/-- The placement after some steps, if none of them is refused. -/
def follow (p : Placement) : List Step → Except Refusal Placement
  | [] => .ok p
  | s :: rest => do (← s.apply p).follow rest

/-- Every pending slot is in the frame. -/
def Covered (p : Placement) : Prop := ∀ k, .slot k ∈ p.pending → k.toNat < p.frame.toNat

variable {p q : Placement} {o : Operand}

/-- Values that are taken away leave the others covered. -/
theorem Covered.fewer (h : p.Covered) (hframe : q.frame = p.frame)
    (hfewer : ∀ o ∈ q.pending, o ∈ p.pending) :
    q.Covered ∧ q.frame.toNat ≤ p.frame.toNat + 1 := by
  refine ⟨?_, ?_⟩
  · intro k hk
    rw [hframe]
    exact h k (hfewer _ hk)
  · rw [hframe]
    exact Nat.le_succ _

/-- The next slot is the one above a slot of the frame. -/
theorem Covered.next_le (h : p.Covered) {k : UInt32} (hnext : p.next = .ok (.slot k)) :
    k.toNat ≤ p.frame.toNat := by
  unfold next at hnext
  split at hnext
  next => cases hnext
  next n rest hpending =>
    have hn : n.toNat < p.frame.toNat := h n (by rw [hpending]; exact List.mem_cons_self ..)
    split at hnext
    next => cases hnext
    next hlast =>
      cases hnext
      rw [UInt32.toNat_add]
      show (n.toNat + 1) % 4294967296 ≤ _
      omega
  next =>
    split at hnext
    next => cases hnext
    next =>
      split at hnext
      next => cases hnext
      next =>
        cases hnext
        exact Nat.zero_le _
  next =>
    cases hnext
    exact Nat.zero_le _
  next =>
    cases hnext
    exact Nat.zero_le _

/-- A location that is handed out is covered, at the cost of one slot at most. -/
theorem Covered.allocate (h : p.Covered) (ha : p.allocate = .ok (o, q)) :
    (q.push o).Covered ∧ q.frame.toNat ≤ p.frame.toNat + 1 := by
  obtain ⟨hnext, hcover⟩ := allocate_eq_ok.mp ha
  obtain ⟨hgrown, hslot⟩ := cover_eq_ok hcover
  have hframe := hgrown.frame
  refine ⟨?_, ?_⟩
  · intro k hk
    rcases List.mem_cons.mp hk with hk | hk
    · exact hslot k hk.symm
    · rw [hgrown.pending] at hk
      have hlt := h k hk
      show k.toNat < q.frame.toNat
      omega
  · cases o with
    | slot k =>
      have hle := h.next_le hnext
      have hgrowth := (cover_slot hcover).2
      omega
    | reg r => cases hcover; omega
    | mem x => cases hcover; omega
    | imm v => cases hcover; omega

theorem Covered.addGlobal (h : p.Covered) (x : String) :
    (p.addGlobal x).Covered ∧ (p.addGlobal x).frame.toNat ≤ p.frame.toNat + 1 := by
  refine h.fewer (p.addGlobal_frame x) fun o ho => ?_
  rw [addGlobal_pending] at ho
  exact ho

theorem Covered.lowers {op : Op} {code : List Instr} (h : p.Covered) (hl : Lowers p op code q) :
    q.Covered ∧ q.frame.toNat ≤ p.frame.toNat + 1 := by
  cases hl with
  | read ha _ => exact h.allocate ha
  | write hp _ => exact h.fewer rfl fun o ho => by rw [hp]; exact List.mem_cons_of_mem _ ho
  | const ha => exact h.allocate ha
  | @load x _ _ ha =>
    have hgrown := (h.addGlobal x).1.allocate ha
    rw [addGlobal_frame] at hgrown
    exact hgrown
  | @store x _ _ hp =>
    refine h.fewer (p.addGlobal_frame x) fun o ho => ?_
    rw [hp]
    exact List.mem_cons_of_mem _ ho
  | binary hp => exact h.fewer rfl fun o ho => by rw [hp]; exact List.mem_cons_of_mem _ ho

theorem Covered.act {a : Action} (h : p.Covered) (ha : a.apply p = .ok q) :
    q.Covered ∧ q.frame.toNat ≤ p.frame.toNat + 1 := by
  cases a with
  | fresh =>
    simp only [Action.apply, bind_eq_ok, mapError_eq_ok, pure_eq_ok] at ha
    obtain ⟨⟨o, q'⟩, ha, rfl⟩ := ha
    exact h.allocate ha
  | allocate =>
    simp only [Action.apply, bind_eq_ok, mapError_eq_ok, pure_eq_ok] at ha
    obtain ⟨⟨o, q'⟩, ha, rfl⟩ := ha
    obtain ⟨hpushed, hframe⟩ := h.allocate ha
    exact ⟨fun k hk => hpushed k (List.mem_cons_of_mem _ hk), hframe⟩
  | pop =>
    simp only [Action.apply, bind_eq_ok, mapError_eq_ok, pure_eq_ok] at ha
    obtain ⟨⟨o, q'⟩, hp, rfl⟩ := ha
    obtain ⟨rest, hpending, rfl⟩ := pop_eq_ok.mp hp
    refine h.fewer rfl fun o ho => ?_
    rw [hpending]
    exact List.mem_cons_of_mem _ ho
  | pop2 =>
    simp only [Action.apply, bind_eq_ok, mapError_eq_ok, pure_eq_ok] at ha
    obtain ⟨⟨o, o', q'⟩, hp, rfl⟩ := ha
    obtain ⟨rest, hpending, rfl⟩ := pop2_eq_ok.mp hp
    refine h.fewer rfl fun o ho => ?_
    rw [hpending]
    exact List.mem_cons_of_mem _ (List.mem_cons_of_mem _ ho)
  | addGlobal x =>
    cases ha
    exact h.addGlobal x
  | lower op =>
    simp only [Action.apply, bind_eq_ok, pure_eq_ok] at ha
    obtain ⟨⟨code, q'⟩, hl, rfl⟩ := ha
    exact h.lowers (lower_eq_ok.mp hl)

theorem Covered.step {s : Step} (h : p.Covered) (hs : ∀ k, s ≠ .push (.slot k))
    (ha : s.apply p = .ok q) : q.Covered ∧ q.frame.toNat ≤ p.frame.toNat + 1 := by
  cases s with
  | act a => exact h.act ha
  | push o =>
    cases ha
    refine ⟨?_, Nat.le_succ _⟩
    intro k hk
    rcases List.mem_cons.mp hk with hk | hk
    · exact absurd (congrArg Step.push hk.symm) (hs k)
    · exact h k hk

/-- Without slots from elsewhere, a frame grows by one slot in a step at most. -/
theorem frame_le_length {steps : List Step} (h : p.Covered) (hf : p.follow steps = .ok q)
    (hsteps : ∀ k, .push (.slot k) ∉ steps) : q.frame.toNat ≤ p.frame.toNat + steps.length := by
  induction steps generalizing p with
  | nil =>
    cases hf
    exact Nat.le_add_right _ _
  | cons s rest ih =>
    obtain ⟨p', hs, hrest⟩ := bind_eq_ok.mp hf
    have hfirst : ∀ k, s ≠ .push (.slot k) := by
      intro k hk
      apply hsteps k
      rw [hk]
      exact List.mem_cons_self ..
    obtain ⟨hcovered, hone⟩ := h.step hfirst hs
    have hlater := ih hcovered hrest fun k hk => hsteps k (List.mem_cons_of_mem _ hk)
    rw [List.length_cons]
    omega

end Placement

/-! ### Bytes -/

namespace Program

variable {p : Program} {bytes : Int32}

/-- The slots, read as a signed number, times the size of a word. -/
theorem toInt_frame_mul (p : Program) : p.frame.toInt32.toInt * Operand.wordSize =
    if p.frame.toNat < 2147483648 then 4 * (p.frame.toNat : Int)
    else 4 * p.frame.toNat - 17179869184 := by
  have hslots : p.frame.toInt32.toInt =
      if 2 * p.frame.toNat < 4294967296 then (p.frame.toNat : Int)
      else p.frame.toNat - 4294967296 := BitVec.toInt_eq_toNat_cond p.frame.toBitVec
  show p.frame.toInt32.toInt * 4 = _
  rw [hslots]
  split <;> split <;> omega

theorem frameBytes_eq (p : Program) : p.frameBytes =
    if p.frame.toNat < 536870912 then .ok (.ofInt (4 * p.frame.toNat))
    else if p.frame.toNat < 3758096384 then .error .mulOverflow
    else .ok (.ofInt (4 * p.frame.toNat - 17179869184)) := by
  have hlt := p.frame.toNat_lt
  unfold frameBytes
  rw [toInt_frame_mul]
  by_cases hfits : p.frame.toNat < 536870912
  · rw [if_pos hfits, if_pos (by omega), if_pos (by omega)]
  rw [if_neg hfits]
  by_cases hsigned : p.frame.toNat < 2147483648
  · rw [if_pos hsigned, if_neg (by omega), if_pos (by omega)]
  rw [if_neg hsigned]
  by_cases hwrapped : p.frame.toNat < 3758096384
  · rw [if_pos hwrapped, if_neg (by omega)]
  · rw [if_neg hwrapped, if_pos (by omega)]

theorem frameBytes_eq_error_iff {e : Fault} : p.frameBytes = .error e ↔
    e = .mulOverflow ∧ 536870912 ≤ p.frame.toNat ∧ p.frame.toNat < 3758096384 := by
  rw [frameBytes_eq]
  split
  next h => exact iff_of_false (by simp) fun hcount => by omega
  next h =>
    split
    next h' =>
      constructor
      · intro herror
        exact ⟨(Except.error.inj herror).symm, by omega, h'⟩
      · intro hcount
        rw [hcount.1]
    next h' => exact iff_of_false (by simp) fun hcount => by omega

/-- Counts from 3758096384 on are taken for negative numbers whose product fits. -/
theorem frameBytes_eq_ok_iff : p.frameBytes = .ok bytes ↔
    (p.frame.toNat < 536870912 ∧ bytes.toInt = 4 * p.frame.toNat) ∨
    (3758096384 ≤ p.frame.toNat ∧ bytes.toInt = 4 * p.frame.toNat - 17179869184) := by
  have hlt := p.frame.toNat_lt
  have hvalue {n : Int} (hlow : -2147483648 ≤ n) (hhigh : n < 2147483648) :
      Int32.ofInt n = bytes ↔ bytes.toInt = n := by
    rw [← Int32.toInt_inj, Int32.toInt_ofInt_of_le hlow hhigh]
    exact eq_comm
  rw [frameBytes_eq]
  split
  next h =>
    rw [Except.ok.injEq, hvalue (by omega) (by omega)]
    omega
  next h =>
    split
    next h' =>
      refine iff_of_false (by simp) ?_
      omega
    next h' =>
      rw [Except.ok.injEq, hvalue (by omega) (by omega)]
      omega

/-- The stack pointer is as far below the frame pointer as there are bytes in the frame, where the
procedure begins to save registers. -/
theorem offset_reserved (h : p.frameBytes = .ok bytes) : ∃ reserved,
    p.instructions = .ok (p.listed reserved) ∧
    offset (p.opening ++ .mov Reg.esp Reg.ebp :: reserved) = -bytes.toInt := by
  by_cases hzero : p.frame = 0
  · refine ⟨[], ?_, ?_⟩
    · rw [instructions_eq, reserve_eq_ok_iff.mpr (.inl ⟨hzero, rfl⟩)]
      rfl
    · have hnone : p.frame.toNat = 0 := congrArg UInt32.toNat hzero
      have hbytes := frameBytes_eq_ok_iff.mp h
      rw [offset_opening]
      show (0 : Int) = _
      omega
  · refine ⟨[.alu .sub (.imm bytes) Reg.esp], ?_, ?_⟩
    · rw [instructions_eq, reserve_eq_ok_iff.mpr (.inr ⟨hzero, bytes, h, rfl⟩)]
      rfl
    · rw [offset_opening]
      show (0 : Int) - bytes.toInt = _
      omega

end Program

/-- **A frame is reserved in full unless its count is taken for a negative number.** For every
history of a placement and every body, the bytes of the frame are refused exactly when there are
536870912 slots or more, but fewer than 3758096384. Bytes that are not refused are four for each
slot exactly when the slots are fewer than 3758096384; otherwise they are negative and leave no room
for the slots. Without slots from elsewhere, a frame like that takes as many steps. -/
theorem frame_reserved_iff (requested : UInt8) (steps : List Placement.Step) (p : Placement)
    (hp : (Placement.empty requested).follow steps = .ok p) (body : List Instr) :
    (∀ e, (Program.ofParts body p).frameBytes = .error e ↔
      e = .mulOverflow ∧ 536870912 ≤ p.frame.toNat ∧ p.frame.toNat < 3758096384) ∧
    (∀ bytes, (Program.ofParts body p).frameBytes = .ok bytes →
      (bytes.toInt = 4 * p.frame.toNat ↔ p.frame.toNat < 3758096384) ∧
      (0 ≤ bytes.toInt ↔ p.frame.toNat < 3758096384) ∧
      ∃ reserved, (Program.ofParts body p).instructions =
          .ok ((Program.ofParts body p).listed reserved) ∧
        ((∀ k, k.toNat < p.frame.toNat →
          offset ((Program.ofParts body p).opening ++ .mov Reg.esp Reg.ebp :: reserved) ≤
            Operand.cell k) ↔ p.frame.toNat < 3758096384)) ∧
    ((∀ k, .push (.slot k) ∉ steps) → p.frame.toNat ≤ steps.length) := by
  refine ⟨fun e => Program.frameBytes_eq_error_iff, ?_, ?_⟩
  · intro bytes hbytes
    obtain ⟨reserved, hcode, hoffset⟩ := Program.offset_reserved hbytes
    have hlt := p.frame.toNat_lt
    have hcases : (p.frame.toNat < 536870912 ∧ bytes.toInt = 4 * p.frame.toNat) ∨
        (3758096384 ≤ p.frame.toNat ∧ bytes.toInt = 4 * p.frame.toNat - 17179869184) :=
      Program.frameBytes_eq_ok_iff.mp hbytes
    refine ⟨by omega, by omega, reserved, hcode, ?_⟩
    rw [hoffset]
    unfold Operand.cell
    constructor
    · intro hroom
      -- A stack pointer above the frame pointer leaves no room even for the first slot.
      have hfirst := hroom 0
      rw [UInt32.toNat_zero] at hfirst
      omega
    · intro hcount k hk
      omega
  · intro hsteps
    have hcovered : (Placement.empty requested).Covered := fun k hk => absurd hk List.not_mem_nil
    have hle := Placement.frame_le_length hcovered hp hsteps
    have hempty : (Placement.empty requested).frame.toNat = 0 := rfl
    omega

/-- The largest frame that is reserved in full. -/
def brimming : List Placement.Step := [.push (.slot 536870909), .act .allocate]

def brimmed : Placement := ⟨[.slot 536870909], 536870911, [], 4⟩

theorem brimming_reserved :
    (Placement.empty 4).follow brimming = .ok brimmed ∧
    (Program.ofParts [] brimmed).frameBytes = .ok 2147483644 ∧
    (2147483644 : Int32).toInt = 4 * brimmed.frame.toNat ∧
    ∃ reserved, (Program.ofParts [] brimmed).instructions =
        .ok ((Program.ofParts [] brimmed).listed reserved) ∧
      ∀ k, k.toNat < 536870911 →
        offset ((Program.ofParts [] brimmed).opening ++ .mov Reg.esp Reg.ebp :: reserved) ≤
          Operand.cell k := by
  have hfollow : (Placement.empty 4).follow brimming = .ok brimmed := rfl
  have hbytes : (Program.ofParts [] brimmed).frameBytes = .ok 2147483644 := rfl
  obtain ⟨-, hok, -⟩ := frame_reserved_iff 4 brimming brimmed hfollow []
  obtain ⟨hexact, -, reserved, hcode, hroom⟩ := hok _ hbytes
  exact ⟨hfollow, hbytes, hexact.mpr (by decide), reserved, hcode, hroom.mpr (by decide)⟩

/-- The largest frame that can be counted. -/
def overrunning : List Placement.Step := [.push (.slot 4294967293), .act .allocate]

def overrun : Placement := ⟨[.slot 4294967293], 4294967295, [], 4⟩

/-- **The largest frame is reserved with four bytes less than none.** -/
theorem overrun_reserved :
    (Placement.empty 4).follow overrunning = .ok overrun ∧
    (Program.ofParts [] overrun).frameBytes = .ok (-4) ∧
    (-4 : Int32).toInt ≠ 4 * overrun.frame.toNat ∧
    (Program.ofParts [] overrun).reserve = .ok [.alu .sub (.imm (-4)) Reg.esp] := by
  exact ⟨rfl, rfl, by decide, rfl⟩

end StackBackend
