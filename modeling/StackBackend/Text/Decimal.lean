/-! Decimal integers.

Reading takes one optional sign and at least one ASCII digit, any number of leading zeros, and
nothing else. Writing uses the fewest digits and a sign only for negative numbers, so what is
written is read back as the same number (`readInt_writeInt`). -/
namespace StackBackend.Text.Decimal

/-- One or more ASCII digits. -/
def readDigits (cs : List Char) : Option Nat :=
  if cs ≠ [] ∧ cs.all Char.isDigit then some (Nat.ofDigitChars 10 cs 0) else none

/-- An optional sign, then digits. -/
def readInt : List Char → Option Int
  | '+' :: cs => (readDigits cs).map Int.ofNat
  | '-' :: cs => (readDigits cs).map fun n => -Int.ofNat n
  | cs => (readDigits cs).map Int.ofNat

/-- An optional plus sign, then digits. -/
def readNat : List Char → Option Nat
  | '+' :: cs => readDigits cs
  | cs => readDigits cs

/-- A signed 32-bit number: one out of range is refused. -/
def readInt32 (cs : List Char) : Option Int32 :=
  (readInt cs).bind fun n =>
    if -2147483648 ≤ n ∧ n ≤ 2147483647 then some (Int32.ofInt n) else none

/-- An unsigned 8-bit number: one out of range is refused. -/
def readUInt8 (cs : List Char) : Option UInt8 :=
  (readNat cs).bind fun n => if n ≤ 255 then some (UInt8.ofNat n) else none

def writeNat (n : Nat) : String :=
  String.ofList (Nat.toDigits 10 n)

def writeInt : Int → String
  | .ofNat n => writeNat n
  | .negSucc n => "-" ++ writeNat (n + 1)

theorem readDigits_toDigits (n : Nat) : readDigits (Nat.toDigits 10 n) = some n := by
  have hd : (Nat.toDigits 10 n).all Char.isDigit = true := by
    rw [List.all_eq_true]
    exact fun c hc => Nat.isDigit_of_mem_toDigits (by decide) (by decide) hc
  have hn : Nat.toDigits 10 n ≠ [] := Nat.toDigits_ne_nil
  simp [readDigits, hd, hn, Nat.ofDigitChars_toDigits]

theorem readInt_toDigits (n : Nat) : readInt (Nat.toDigits 10 n) = some (Int.ofNat n) := by
  have hd : ∀ c ∈ Nat.toDigits 10 n, c.isDigit = true :=
    fun c hc => Nat.isDigit_of_mem_toDigits (by decide) (by decide) hc
  have hr := readDigits_toDigits n
  unfold readInt
  split
  next h => exact absurd (hd '+' (by rw [h]; simp)) (by decide)
  next h => exact absurd (hd '-' (by rw [h]; simp)) (by decide)
  next => rw [hr]; rfl

theorem readInt_writeInt (n : Int) : readInt (writeInt n).toList = some n := by
  cases n with
  | ofNat n => simp [writeInt, writeNat, readInt_toDigits]
  | negSucc n => simp [writeInt, writeNat, readInt, readDigits_toDigits, Int.negSucc_eq]

end StackBackend.Text.Decimal
