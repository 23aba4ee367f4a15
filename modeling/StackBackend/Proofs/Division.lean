import StackBackend.Proofs.Operators

/-! Signed division, by its law and on the machine.

A quotient and a remainder are determined by a law on exact integers (`IsDivision`,
`isDivision_iff`). A processor divides 64 bits by 32 and refuses a quotient that does not fit 32
bits. The machine divides in 64 bits and refuses only what does not fit there (`step_idiv_eq_ok`);
the remainder is always exact, and the quotient is cut to its low half. So the law holds of what is
left in the registers exactly where the quotient fits (`idiv_exact_iff_fits`). Where `%edx` is the
sign of `%eax`, as in all code for operators, one division is cut: the least value by minus one
(`least_by_minus_one_cut`). -/
namespace StackBackend.Machine

/-! ### The law -/

/-- `q` is the quotient and `r` the remainder of `n` by `v`, rounded toward zero. -/
structure IsDivision (n v q r : Int) : Prop where
  whole : n = q * v + r
  smaller : r.natAbs < v.natAbs
  sign : r = 0 ∨ r.sign = n.sign

theorem isDivision_iff {n v q r : Int} :
    IsDivision n v q r ↔ v ≠ 0 ∧ q = n.tdiv v ∧ r = n.tmod v := by
  constructor
  · intro h
    have hv : v ≠ 0 := by
      intro hzero
      have hsmaller := h.smaller
      omega
    have hsum : r + v * q = n := by rw [h.whole, Int.mul_comm q v, Int.add_comm]
    have hsmaller := h.smaller
    refine ⟨hv, ?_⟩
    rcases Int.le_total 0 n with hn | hn
    · have hr : 0 ≤ r := by
        rcases h.sign with hr | hr
        · omega
        · exact Int.sign_nonneg_iff.mp (hr ▸ Int.sign_nonneg_iff.mpr hn)
      obtain ⟨hq, hr⟩ := (Int.tdiv_tmod_unique hn hv).mpr ⟨hsum, hr, by omega⟩
      exact ⟨hq.symm, hr.symm⟩
    · have hr : r ≤ 0 := by
        rcases h.sign with hr | hr
        · omega
        · exact Int.sign_nonpos_iff.mp (hr ▸ Int.sign_nonpos_iff.mpr hn)
      obtain ⟨hq, hr⟩ := (Int.tdiv_tmod_unique' hn hv).mpr ⟨hsum, by omega, hr⟩
      exact ⟨hq.symm, hr.symm⟩
  · intro h
    obtain ⟨hv, rfl, rfl⟩ := h
    refine ⟨(Int.tdiv_mul_add_tmod n v).symm, ?_, ?_⟩
    · rw [Int.natAbs_tmod]
      exact Nat.mod_lt _ (by omega)
    · have hsign := Int.sign_tmod n v
      split at hsign
      next => exact .inl (Int.sign_eq_zero_iff_zero.mp hsign)
      next => exact .inr hsign

instance (n v q r : Int) : Decidable (IsDivision n v q r) := decidable_of_iff _ isDivision_iff.symm

/-- The quotient of a signed number fits the number's own width, but for the least one by minus
one. -/
theorem quotient_fits_iff {limit n v : Int} (hlow : -limit ≤ n) (hhigh : n < limit) (hv : v ≠ 0) :
    (-limit ≤ n.tdiv v ∧ n.tdiv v < limit) ↔ ¬ (n = -limit ∧ v = -1) := by
  by_cases hone : v = -1
  · rw [hone, Int.tdiv_neg, Int.tdiv_one]
    omega
  · have hle := Int.natAbs_tdiv_le_natAbs n v
    have hhalf : v ≠ 1 → (n.tdiv v).natAbs ≤ n.natAbs / 2 := by
      intro hpos
      rw [Int.natAbs_tdiv]
      exact Nat.div_le_div_left (by omega) (by decide)
    by_cases hpos : v = 1
    · rw [hpos, Int.tdiv_one]
      omega
    · have hsmall := hhalf hpos
      omega

/-! ### The machine -/

/-- The 64 bits whose high half is in `%edx` and whose low half is in `%eax`. -/
def dividendBits (m : Machine) : BitVec 64 := (m.regs .edx).toBitVec ++ (m.regs .eax).toBitVec

theorem dividend_eq (m : Machine) : m.dividend = m.dividendBits.toInt := by
  rw [dividendBits, BitVec.toInt_append, Int.mul_comm]
  rfl

/-- The machine after a division that leaves `q` and `r`. -/
def divided (m : Machine) (q r : Int32) : Machine :=
  {(m.setReg .eax q).setReg .edx r with flags := none}

theorem toInt_remainder (n : Int) {v : Int32} (hv : v.toInt ≠ 0) :
    (Int32.ofInt (n.tmod v.toInt)).toInt = n.tmod v.toInt := by
  have hsmaller : (n.tmod v.toInt).natAbs < v.toInt.natAbs := by
    rw [Int.natAbs_tmod]
    exact Nat.mod_lt _ (by omega)
  have hlow := v.le_toInt
  have hhigh := v.toInt_lt
  exact Int32.toInt_ofInt_of_le (by omega) (by omega)

theorem step_idiv_error {m : Machine} {s : Operand} {f : Fault} (h : m.read s = .error f) :
    m.step (.idiv s) = .error f := by
  simp only [step, Instr.isMemoryToMemory_idiv, execute, h]
  rfl

theorem divide_eq_ok {m m' : Machine} {v : Int32} : m.divide v = .ok m' ↔
    v ≠ 0 ∧ ¬ (m.dividend = -9223372036854775808 ∧ v = -1) ∧
      m' = m.divided (.ofInt (m.dividend.tdiv v.toInt)) (.ofInt (m.dividend.tmod v.toInt)) := by
  unfold divide
  split
  next hzero => simp [hzero]
  next hzero =>
    split
    next hover => simp [hover]
    next hover =>
      constructor
      · intro h
        exact ⟨hzero, hover, (Except.ok.inj h).symm⟩
      · intro h
        exact congrArg Except.ok h.2.2.symm

/-- A division succeeds where there is a quotient of 64 bits, and leaves the low half of it. -/
theorem step_idiv_eq_ok {m m' : Machine} {s : Operand} : m.step (.idiv s) = .ok m' ↔
    ∃ v q r, m.read s = .ok v ∧ IsDivision m.dividendBits.toInt v.toInt q r.toInt ∧
      (-9223372036854775808 ≤ q ∧ q < 9223372036854775808) ∧ m' = m.divided (.ofInt q) r := by
  cases hread : m.read s with
  | error f => simp [step_idiv_error hread]
  | ok v =>
    have hzero : v ≠ 0 ↔ v.toInt ≠ 0 := not_congr Int32.toInt_inj.symm
    have hone : v = -1 ↔ v.toInt = -1 := Int32.toInt_inj.symm
    have hfits (hv : v.toInt ≠ 0) := quotient_fits_iff m.dividendBits.le_toInt
      m.dividendBits.toInt_lt hv
    rw [step_idiv hread, divide_eq_ok, dividend_eq, hzero, hone]
    constructor
    · intro h
      obtain ⟨hv, hover, hm⟩ := h
      have hdivision := isDivision_iff.mpr ⟨hv, rfl, toInt_remainder m.dividendBits.toInt hv⟩
      exact ⟨v, _, _, rfl, hdivision, (hfits hv).mpr hover, hm⟩
    · intro h
      obtain ⟨_, q, r, hv, hdivision, hq, hm⟩ := h
      cases hv
      obtain ⟨hv, rfl, hr⟩ := isDivision_iff.mp hdivision
      refine ⟨hv, (hfits hv).mp hq, ?_⟩
      rw [hm, ← hr, Int32.ofInt_toInt]

/-- The law holds of what a division leaves where the quotient fits 32 bits. -/
theorem isDivision_divided_iff {m : Machine} {n v q : Int} {r : Int32}
    (h : IsDivision n v q r.toInt) :
    IsDivision n v ((m.divided (.ofInt q) r).regs .eax).toInt
      ((m.divided (.ofInt q) r).regs .edx).toInt ↔ -2147483648 ≤ q ∧ q < 2147483648 := by
  show IsDivision n v (Int32.ofInt q).toInt r.toInt ↔ _
  constructor
  · intro hcut
    -- The law determines the quotient, so nothing was cut.
    have hq : (Int32.ofInt q).toInt = q :=
      (isDivision_iff.mp hcut).2.1.trans (isDivision_iff.mp h).2.1.symm
    rw [← hq]
    exact ⟨(Int32.ofInt q).le_toInt, (Int32.ofInt q).toInt_lt⟩
  · intro hq
    rw [Int32.toInt_ofInt_of_le hq.1 hq.2]
    exact h

theorem dividend_of_sign {m : Machine} (h : m.regs .edx = if m.regs .eax < 0 then -1 else 0) :
    m.dividendBits.toInt = (m.regs .eax).toInt := by
  rw [← dividend_eq, ← Lowering.dividend_extended m (m.regs .eax), dividend, h]
  rfl

/-- **Division is exact where the quotient fits.** A division succeeds exactly when its operand can
be read and the dividend has a quotient of 64 bits by it; the remainder is then exact, and of the
quotient the low 32 bits are left. So quotient and remainder obey the law of division exactly when
the quotient fits 32 bits. With the sign of `%eax` in `%edx` that is every division by a number
other than zero, but for the least value by minus one. -/
theorem idiv_exact_iff_fits (m : Machine) (s : Operand) :
    (∀ m', m.step (.idiv s) = .ok m' ↔
      ∃ v q r, m.read s = .ok v ∧ IsDivision m.dividendBits.toInt v.toInt q r.toInt ∧
        (-9223372036854775808 ≤ q ∧ q < 9223372036854775808) ∧ m' = m.divided (.ofInt q) r) ∧
    (∀ m' v, m.step (.idiv s) = .ok m' → m.read s = .ok v → v ≠ 0 ∧
      (IsDivision m.dividendBits.toInt v.toInt (m'.regs .eax).toInt (m'.regs .edx).toInt ↔
        ∃ q r, IsDivision m.dividendBits.toInt v.toInt q r ∧ -2147483648 ≤ q ∧ q < 2147483648)) ∧
    (m.regs .edx = (if m.regs .eax < 0 then -1 else 0) → ∀ v, m.read s = .ok v → v ≠ 0 →
      ¬ (m.regs .eax = Int32.minValue ∧ v = -1) →
      ∃ m', m.step (.idiv s) = .ok m' ∧
        IsDivision (m.regs .eax).toInt v.toInt (m'.regs .eax).toInt (m'.regs .edx).toInt) := by
  refine ⟨fun m' => step_idiv_eq_ok, ?_, ?_⟩
  · intro m' v hstep hread
    obtain ⟨_, q, r, hv, hdivision, -, rfl⟩ := step_idiv_eq_ok.mp hstep
    cases hread.symm.trans hv
    obtain ⟨hzero, hquotient, -⟩ := isDivision_iff.mp hdivision
    refine ⟨fun h => hzero (congrArg Int32.toInt h), ?_⟩
    rw [isDivision_divided_iff hdivision]
    constructor
    · intro hq
      exact ⟨q, _, hdivision, hq⟩
    · intro h
      obtain ⟨q', r', hdivision', hq'⟩ := h
      rwa [hquotient, ← (isDivision_iff.mp hdivision').2.1]
  · intro hsign v hread hzero hleast
    have hv : v.toInt ≠ 0 := fun h => hzero (Int32.toInt_inj.mp h)
    have hq := (quotient_fits_iff (m.regs .eax).le_toInt (m.regs .eax).toInt_lt hv).mpr fun h =>
      hleast ⟨Int32.toInt_inj.mp h.1, Int32.toInt_inj.mp h.2⟩
    have hdivision := isDivision_iff.mpr ⟨hv, rfl, toInt_remainder (m.regs .eax).toInt hv⟩
    refine ⟨_, step_idiv_eq_ok.mpr ⟨v, _, _, hread, ?_, ⟨?_, ?_⟩, rfl⟩,
      (isDivision_divided_iff hdivision).mpr hq⟩
    · rw [dividend_of_sign hsign]
      exact hdivision
    · omega
    · omega

/-- A dividend that needs more than 32 bits, with a quotient that does not. -/
def wide : Machine :=
  (((start []).setReg .edx (-2)).setReg .eax 3).setReg .ecx 5

theorem wide_exact : ∃ m', wide.step (.idiv Reg.ecx) = .ok m' ∧
    IsDivision (-8589934589) 5 (m'.regs .eax).toInt (m'.regs .edx).toInt ∧
    (m'.regs .eax).toInt = -1717986917 ∧ (m'.regs .edx).toInt = -4 := by
  obtain ⟨hstep, hlaw, -⟩ := idiv_exact_iff_fits wide Reg.ecx
  have hdivision : IsDivision wide.dividendBits.toInt (5 : Int32).toInt (-1717986917) (-4) := by
    decide
  have hok := (hstep _).mpr ⟨5, -1717986917, -4, rfl, hdivision, by decide, rfl⟩
  exact ⟨_, hok, (hlaw _ 5 hok rfl).2.mpr ⟨_, _, hdivision, by decide⟩, rfl, rfl⟩

/-- The least value, extended over `%edx`, and minus one in another register. -/
def least : Machine :=
  (((start []).setReg .eax Int32.minValue).setReg .edx (-1)).setReg .ecx (-1)

/-- **A quotient that does not fit is cut without a fault.** The quotient of the least value by
minus one needs 33 bits. The machine leaves the least value itself in its place. -/
theorem least_by_minus_one_cut :
    IsDivision least.dividendBits.toInt (least.regs .ecx).toInt 2147483648 0 ∧
    ∃ m', least.step (.idiv Reg.ecx) = .ok m' ∧ (m'.regs .eax).toInt = -2147483648 ∧
      (m'.regs .edx).toInt = 0 ∧
      ¬ IsDivision least.dividendBits.toInt (least.regs .ecx).toInt (m'.regs .eax).toInt
        (m'.regs .edx).toInt := by
  refine ⟨by decide, least.divided Int32.minValue 0, ?_, by decide, by decide, by decide⟩
  exact step_idiv_eq_ok.mpr ⟨-1, 2147483648, 0, rfl, by decide, by decide, rfl⟩

end StackBackend.Machine
