import StackBackend.Text.Decimal

/-! The numbers that texts stand for.

`Digits` and `Numeral` say which texts are numbers and which number each of them is, digit by digit
from the left. What is read is exactly that, as far as it fits the type that it is read into
(`readInt32_eq_some`, `readUInt8_eq_some`). -/
namespace StackBackend.Text.Decimal

/-- Decimal digits and their number. -/
inductive Digits : List Char → Nat → Prop where
  | one {c : Char} : '0' ≤ c → c ≤ '9' → Digits [c] (c.toNat - 48)
  | more {cs : List Char} {n : Nat} {c : Char} : Digits cs n → '0' ≤ c → c ≤ '9' →
      Digits (cs ++ [c]) (10 * n + (c.toNat - 48))

/-- One sign at most, then digits. -/
inductive Numeral : List Char → Int → Prop where
  | unsigned {cs : List Char} {n : Nat} : Digits cs n → Numeral cs n
  | plus {cs : List Char} {n : Nat} : Digits cs n → Numeral ('+' :: cs) n
  | minus {cs : List Char} {n : Nat} : Digits cs n → Numeral ('-' :: cs) (-n)

theorem isDigit_iff {c : Char} : c.isDigit = true ↔ '0' ≤ c ∧ c ≤ '9' := by
  simp [Char.isDigit, Char.le_def]

/-- More digits after some digits. -/
theorem Digits.append {cs ds : List Char} {n : Nat} (h : Digits cs n)
    (hds : ∀ c ∈ ds, c.isDigit = true) : Digits (cs ++ ds) (Nat.ofDigitChars 10 ds n) := by
  induction ds generalizing cs n with
  | nil => simpa using h
  | cons d ds ih =>
    obtain ⟨hlow, hhigh⟩ := isDigit_iff.mp (hds d (List.mem_cons_self ..))
    have hrest := ih (h.more hlow hhigh) fun c hc => hds c (List.mem_cons_of_mem _ hc)
    simpa [Nat.ofDigitChars_cons] using hrest

theorem Digits.isDigit {cs : List Char} {n : Nat} (h : Digits cs n) :
    cs ≠ [] ∧ (∀ c ∈ cs, c.isDigit = true) ∧ Nat.ofDigitChars 10 cs 0 = n := by
  induction h with
  | one hlow hhigh => simp [isDigit_iff, hlow, hhigh, Nat.ofDigitChars_cons]
  | more _ hlow hhigh ih =>
    obtain ⟨-, hdigits, rfl⟩ := ih
    refine ⟨by simp, List.forall_mem_append.mpr ⟨hdigits, ?_⟩, ?_⟩
    · simp [isDigit_iff, hlow, hhigh]
    · simp [Nat.ofDigitChars_append, Nat.ofDigitChars_cons]

theorem readDigits_eq_some {cs : List Char} {n : Nat} : readDigits cs = some n ↔ Digits cs n := by
  simp only [readDigits, List.all_eq_true, Option.ite_none_right_eq_some, Option.some.injEq]
  constructor
  · intro h
    obtain ⟨⟨hne, hdigits⟩, rfl⟩ := h
    obtain ⟨c, cs, rfl⟩ := List.exists_cons_of_ne_nil hne
    obtain ⟨hc, hcs⟩ := List.forall_mem_cons.mp hdigits
    have hone : Digits [c] (c.toNat - 48) := .one (isDigit_iff.mp hc).1 (isDigit_iff.mp hc).2
    simpa [Nat.ofDigitChars_cons] using hone.append hcs
  · intro h
    obtain ⟨hne, hdigits, hn⟩ := h.isDigit
    exact ⟨⟨hne, hdigits⟩, hn⟩

theorem readInt_eq_some {cs : List Char} {n : Int} : readInt cs = some n ↔ Numeral cs n := by
  constructor
  · intro h
    unfold readInt at h
    split at h
    next =>
      obtain ⟨k, hk, rfl⟩ := Option.map_eq_some_iff.mp h
      exact .plus (readDigits_eq_some.mp hk)
    next =>
      obtain ⟨k, hk, rfl⟩ := Option.map_eq_some_iff.mp h
      exact .minus (readDigits_eq_some.mp hk)
    next =>
      obtain ⟨k, hk, rfl⟩ := Option.map_eq_some_iff.mp h
      exact .unsigned (readDigits_eq_some.mp hk)
  · intro h
    cases h with
    | plus h => simp [readInt, readDigits_eq_some.mpr h]
    | minus h => simp [readInt, readDigits_eq_some.mpr h]
    | unsigned h =>
      -- Digits do not begin with a sign.
      have hdigits := h.isDigit.2.1
      unfold readInt
      split
      next => exact absurd (hdigits '+' (List.mem_cons_self ..)) (by decide)
      next => exact absurd (hdigits '-' (List.mem_cons_self ..)) (by decide)
      next => simp [readDigits_eq_some.mpr h]

theorem readInt32_eq_some {cs : List Char} {v : Int32} : readInt32 cs = some v ↔
    ∃ n, Numeral cs n ∧ -2147483648 ≤ n ∧ n ≤ 2147483647 ∧ .ofInt n = v := by
  simp only [readInt32, Option.bind_eq_some_iff, readInt_eq_some, Option.ite_none_right_eq_some,
    Option.some.injEq, and_assoc]

theorem readInt32_writeInt (v : Int32) : readInt32 (writeInt v.toInt).toList = some v := by
  have hlow := v.le_toInt
  have hhigh := v.toInt_lt
  have hnumeral := readInt_eq_some.mp (readInt_writeInt v.toInt)
  exact readInt32_eq_some.mpr ⟨v.toInt, hnumeral, by omega, by omega, v.ofInt_toInt⟩

theorem readNat_eq_some {cs : List Char} {n : Nat} : readNat cs = some n ↔
    Digits cs n ∨ ∃ digits, cs = '+' :: digits ∧ Digits digits n := by
  unfold readNat
  split
  next digits =>
    have hsign : ¬ Digits ('+' :: digits) n := fun h =>
      absurd (h.isDigit.2.1 '+' (List.mem_cons_self ..)) (by decide)
    simp [readDigits_eq_some, hsign]
  next h =>
    have hsign : ¬ ∃ digits, cs = '+' :: digits ∧ Digits digits n :=
      fun ⟨digits, hcs, _⟩ => h digits hcs
    simp [readDigits_eq_some, hsign]

theorem readUInt8_eq_some {cs : List Char} {n : UInt8} : readUInt8 cs = some n ↔
    Digits cs n.toNat ∨ ∃ digits, cs = '+' :: digits ∧ Digits digits n.toNat := by
  rw [← readNat_eq_some, readUInt8, Option.bind_eq_some_iff]
  constructor
  · rintro ⟨k, hk, hn⟩
    obtain ⟨hle, hn⟩ := Option.ite_none_right_eq_some.mp hn
    obtain rfl := Option.some.inj hn
    rwa [UInt8.toNat_ofNat_of_lt' (Nat.lt_succ_of_le hle)]
  · intro h
    exact ⟨n.toNat, h, by simp [Nat.le_of_lt_succ n.toNat_lt]⟩

end StackBackend.Text.Decimal
