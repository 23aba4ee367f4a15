import StackBackend.Proofs.Acceptance
import StackBackend.Proofs.Emission

/-! Which listings are refused, and what is said about them.

The depth of the stack before each operation follows from the operations alone (`depthAt`). An
operation that finds fewer values than it takes is refused, with both numbers (`lower_of_short`), and
one that finds enough has code. So a list of operations has code up to the first one that finds too
few (`code_or_short`), and `rejects_underflow` says what the user is told: which operation it was, or
how many values are left over in the end. -/
namespace StackBackend.Lowering

/-! ### Depths -/

/-- The depth that operation `k` of a list finds, from the depth `d` on. -/
def depthAt (d : Nat) (ops : List (Located Op)) (k : Nat) : Nat :=
  (ops.take k).foldl (fun d op => op.val.depthAfter d) d

/-- Operation `k` of a list, if there is one, finds the values that it takes. -/
def SuppliedAt (d : Nat) (ops : List (Located Op)) (k : Nat) : Prop :=
  ∀ op, ops[k]? = some op → op.val.pops ≤ depthAt d ops k

variable {d : Nat} {op : Located Op} {ops : List (Located Op)}

theorem depthAt_cons_succ (k : Nat) :
    depthAt d (op :: ops) (k + 1) = depthAt (op.val.depthAfter d) ops k := rfl

theorem suppliedAt_cons_zero : SuppliedAt d (op :: ops) 0 ↔ op.val.pops ≤ d := by
  simp [SuppliedAt, depthAt]

theorem suppliedAt_cons_succ {k : Nat} :
    SuppliedAt d (op :: ops) (k + 1) ↔ SuppliedAt (op.val.depthAfter d) ops k := Iff.rfl

/-- All operations before a later one are the first one and those behind it. -/
theorem suppliedAt_below_succ {k : Nat} : (∀ j < k + 1, SuppliedAt d (op :: ops) j) ↔
    op.val.pops ≤ d ∧ ∀ j < k, SuppliedAt (op.val.depthAfter d) ops j := by
  constructor
  · intro h
    exact ⟨suppliedAt_cons_zero.mp (h 0 (by omega)), fun j hj => h (j + 1) (by omega)⟩
  · intro h j hj
    cases j with
    | zero => exact suppliedAt_cons_zero.mpr h.1
    | succ j => exact suppliedAt_cons_succ.mpr (h.2 j (by omega))

/-- An operation adds one value at most. -/
theorem depthAt_le (d : Nat) (ops : List (Located Op)) (k : Nat) :
    depthAt d ops k ≤ d + ops.length := by
  induction ops generalizing d k with
  | nil => simp [depthAt]
  | cons op ops ih =>
    cases k with
    | zero => simp [depthAt]
    | succ k =>
      have hop : op.val.depthAfter d ≤ d + 1 := by
        cases op.val <;> simp only [Op.depthAfter, Op.pops, Op.pushes] <;> omega
      have hrest := ih (op.val.depthAfter d) k
      rw [depthAt_cons_succ, List.length_cons]
      omega

/-! ### Refused operations -/

/-- An operation that finds too few values is refused, at any placement. -/
theorem lower_of_short {op : Op} {p : Placement} (h : p.depth < op.pops) :
    op.lower p = .error (.underflow ⟨op.pops, p.depth⟩) := by
  have hnone {p : Placement} (h : p.depth < 1) : p.pop = .error ⟨1, p.depth⟩ := by
    have hnil : p.pending = [] := List.length_eq_zero_iff.mp (Nat.lt_one_iff.mp h)
    simp only [Placement.pop, Placement.depth, hnil]
    rfl
  cases op with
  | read => exact absurd h (Nat.not_lt_zero _)
  | const v => exact absurd h (Nat.not_lt_zero _)
  | load x => exact absurd h (Nat.not_lt_zero _)
  | write =>
    have hpop := hnone h
    simp only [Op.lower, hpop]
    rfl
  | store x =>
    have hdepth : (p.addGlobal x).depth = p.depth := congrArg List.length (p.addGlobal_pending x)
    have hpop := hnone (hdepth ▸ h : (p.addGlobal x).depth < 1)
    rw [hdepth] at hpop
    simp only [Op.lower, hpop]
    rfl
  | binary op =>
    have hpop : p.pop2 = .error ⟨2, p.depth⟩ := by
      unfold Placement.pop2
      split
      next hp =>
        have hdeep : 2 ≤ p.depth := by simp [Placement.depth, hp]
        exact absurd h (Nat.not_lt.mpr hdeep)
      next => rfl
    simp only [Op.lower, hpop]
    rfl

/-- A list of operations has code, or the first operation that finds too few values is refused. All
that is asked for is room for the depths that are reached before that. -/
theorem code_or_short {p : Placement} (l : Lowering) (hc : p.Canonical)
    (hroom : ∀ k, (∀ j < k, SuppliedAt p.depth ops j) →
      depthAt p.depth ops k ≤ p.registers.toNat + 4294967295) :
    (∃ body last, l.code p ops = .ok (body, last) ∧ (∀ k, SuppliedAt p.depth ops k) ∧
      last.depth = depthAt p.depth ops ops.length) ∨
    ∃ k op, ops[k]? = some op ∧ (∀ j < k, SuppliedAt p.depth ops j) ∧
      depthAt p.depth ops k < op.val.pops ∧
      l.code p ops = .error ⟨op, .underflow ⟨op.val.pops, depthAt p.depth ops k⟩⟩ := by
  induction ops generalizing p with
  | nil => exact .inl ⟨[], p, rfl, by simp [SuppliedAt], rfl⟩
  | cons op ops ih =>
    by_cases hpops : op.val.pops ≤ p.depth
    · have hreach : op.val.depthAfter p.depth ≤ p.registers.toNat + 4294967295 :=
        hroom 1 (suppliedAt_below_succ.mpr ⟨hpops, by simp⟩)
      obtain ⟨own, q, hl⟩ := exists_lowers hc hpops hreach
      have hcode : l.code p (op :: ops) = _ := code_of_lower (lower_eq_ok.mpr hl)
      have hdepth := hl.depth.2
      have hrest := ih (hl.canonical hc) (by
        intro k hk
        rw [hdepth] at hk ⊢
        rw [hl.registers]
        exact hroom (k + 1) (suppliedAt_below_succ.mpr ⟨hpops, hk⟩))
      rw [hdepth] at hrest
      rcases hrest with ⟨body, last, hm, hs, hlast⟩ | ⟨k, short, hk, hs, hshort, hm⟩
      · refine .inl ⟨_, last, by rw [hcode, hm]; rfl, ?_, hlast⟩
        intro k
        cases k with
        | zero => exact suppliedAt_cons_zero.mpr hpops
        | succ k => exact suppliedAt_cons_succ.mpr (hs k)
      · refine .inr ⟨k + 1, short, hk, suppliedAt_below_succ.mpr ⟨hpops, hs⟩, hshort, ?_⟩
        rw [hcode, hm]
        rfl
    · have hshort : p.depth < op.val.pops := by omega
      exact .inr ⟨0, op, rfl, by simp, hshort, code_of_refused (lower_of_short hshort)⟩

/-! ### Reports -/

/-- Values are left over only behind a last operation. -/
theorem leftover_eq {p : Placement} (hdepth : p.depth = depthAt 0 ops ops.length) :
    (p.depth = 0 → leftover p ops = []) ∧
    (p.depth ≠ 0 → ∃ last, ops.getLast? = some last ∧
      leftover p ops = [(Diagnostic.warning
        (toString p.depth ++ " value(s) left on the stack at end of program") last.span).withHelp
          "values that are never stored or written are discarded"]) := by
  unfold leftover
  cases hlast : ops.getLast? with
  | none =>
    have hnil : ops = [] := List.getLast?_eq_none_iff.mp hlast
    have hzero : p.depth = 0 := by
      rw [hdepth, hnil]
      rfl
    exact ⟨fun _ => rfl, fun h => absurd hzero h⟩
  | some last => exact ⟨fun h => if_pos h, fun h => ⟨last, rfl, if_neg h⟩⟩

/-- **Lowering refuses exactly the listings that run out of values, at the right operation.** As long
as the slots can be counted, there is code if and only if every operation finds the values that it
takes. Otherwise the one error is about the first operation that does not: it has the span of the
operation, says how many values it needs and how many there are, and names the operation in a note.
When there is code, the one warning is about values that are left over, if there are any, and has
the span of the last operation. -/
theorem rejects_underflow (registers : UInt8) (comments : Bool) (ops : List (Located Op))
    (hroom : ∀ k, (∀ j < k, ∀ op, ops[j]? = some op → op.val.pops ≤ depthAt 0 ops j) →
      depthAt 0 ops k ≤ max 1 (min registers.toNat 4) + 4294967295) :
    ((∃ r, (ofOptions registers comments).lower ops = .ok r) ↔
      ∀ k op, ops[k]? = some op → op.val.pops ≤ depthAt 0 ops k) ∧
    (∀ f, (ofOptions registers comments).lower ops = .error f →
      ∃ k op, ops[k]? = some op ∧ depthAt 0 ops k < op.val.pops ∧
        (∀ j < k, ∀ op, ops[j]? = some op → op.val.pops ≤ depthAt 0 ops j) ∧
        f.diagnostic = .ok
          { severity := .error
            message := "stack underflow: needs " ++ toString op.val.pops ++
              (if op.val.pops = 1 then " value" else " values") ++ ", stack holds " ++
              toString (depthAt 0 ops k)
            span := op.span
            notes := ["while lowering `" ++ op.val.text ++ "`"]
            help := none }) ∧
    ∀ r, (ofOptions registers comments).lower ops = .ok r →
      (depthAt 0 ops ops.length = 0 → r.warnings = []) ∧
      (depthAt 0 ops ops.length ≠ 0 → ∃ last, ops.getLast? = some last ∧ r.warnings =
        [{ severity := .warning
           message := toString (depthAt 0 ops ops.length) ++
             " value(s) left on the stack at end of program"
           span := last.span
           notes := []
           help := some "values that are never stored or written are discarded" }]) := by
  let l := ofOptions registers comments
  have hc := Placement.canonical_empty l.registers
  have hregs : (Placement.empty l.registers).registers.toNat = max 1 (min registers.toNat 4) := by
    show (Placement.usable (Placement.usable registers)).toNat = _
    rw [Placement.toNat_usable_eq, Placement.toNat_usable_eq]
    omega
  rcases code_or_short l hc (by rw [hregs]; exact hroom) with
    ⟨body, last, hcode, hs, hdepth⟩ | ⟨k, op, hk, hs, hshort, hcode⟩
  · have hlower := lower_of_code hcode
    refine ⟨⟨fun _ => hs, fun _ => ⟨_, hlower⟩⟩, ?_, ?_⟩
    · intro f hf
      cases hlower.symm.trans hf
    · intro r hr
      cases hlower.symm.trans hr
      have hleft := leftover_eq hdepth
      rw [hdepth] at hleft
      exact hleft
  · have hlower := lower_of_code_error hcode
    refine ⟨⟨?_, ?_⟩, ?_, ?_⟩
    · intro h
      obtain ⟨r, hr⟩ := h
      cases hlower.symm.trans hr
    · intro h
      exact absurd (h k op hk) (Nat.not_le.mpr hshort)
    · intro f hf
      cases hlower.symm.trans hf
      exact ⟨k, op, hk, hshort, hs, rfl⟩
    · intro r hr
      cases hlower.symm.trans hr

/-- One value where two are needed, between operations that are in order. -/
def starved : List (Located Op) :=
  [⟨.const 1, ⟨0, 7⟩⟩, ⟨.binary .add, ⟨8, 15⟩⟩, ⟨.read, ⟨16, 20⟩⟩]

def wasteful : List (Located Op) := [⟨.read, ⟨0, 4⟩⟩, ⟨.load "x", ⟨5, 9⟩⟩]

theorem starved_rejected :
    (∃ f k op, (ofOptions 3 true).lower starved = .error f ∧ starved[k]? = some op ∧
      depthAt 0 starved k < op.val.pops ∧ f.diagnostic = .ok
        ⟨.error, "stack underflow: needs 2 values, stack holds 1", ⟨8, 15⟩,
          ["while lowering `BINOP +`"], none⟩) ∧
    ∃ r, (ofOptions 3 true).lower wasteful = .ok r ∧ r.warnings =
      [⟨.warning, "2 value(s) left on the stack at end of program", ⟨5, 9⟩, [],
        some "values that are never stored or written are discarded"⟩] := by
  have hroom {ops : List (Located Op)} (h : ops.length ≤ 3) (k : Nat) :
      depthAt 0 ops k ≤ max 1 (min (3 : UInt8).toNat 4) + 4294967295 := by
    have hle := depthAt_le 0 ops k
    omega
  obtain ⟨-, hrefused, -⟩ := rejects_underflow 3 true starved fun k _ => hroom (by decide) k
  obtain ⟨haccepted, -, hwarned⟩ := rejects_underflow 3 true wasteful fun k _ => hroom (by decide) k
  constructor
  · have hlower : (ofOptions 3 true).lower starved =
        .error ⟨⟨.binary .add, ⟨8, 15⟩⟩, .underflow ⟨2, 1⟩⟩ := rfl
    obtain ⟨k, op, hk, hshort, -⟩ := hrefused _ hlower
    exact ⟨_, k, op, hlower, hk, hshort, rfl⟩
  · have hpops : ∀ op ∈ wasteful, op.val.pops = 0 := by decide
    obtain ⟨r, hr⟩ := haccepted.mpr fun k op hk => by
      rw [hpops op (List.mem_of_getElem? hk)]
      exact Nat.zero_le _
    obtain ⟨last, hlast, hwarnings⟩ := (hwarned r hr).2 (by decide)
    cases hlast
    exact ⟨r, hr, hwarnings⟩

end StackBackend.Lowering
