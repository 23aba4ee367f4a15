import StackBackend.Proofs.Lines

/-! The constants of a listing.

The format writes a constant with digits and, if need be, a minus sign (`Integer`). The line of a
word is read to a constant or reported at the word (`report_constLine`), so what is left is which
value a word has (`ReadByValue`). The reader follows the format on all words but those that begin
with a plus sign: it takes the digits behind the sign for the constant (`constants_by_sign`),
although no such word is of the format (`plus_sign_read`). -/
namespace StackBackend.Listing

open Text (isBlank byteLength)
open Text.Decimal (Digits Numeral)

/-! ### The line of a constant -/

/-- A word as it can stand in a line. -/
structure IsOperand (w : List Char) : Prop where
  nonempty : w ≠ []
  joined : ∀ c ∈ w, isBlank c = false
  uncommented : ∀ c ∈ w, c ≠ '#'

theorem isOperand_iff {w : List Char} :
    (!w.isEmpty && w.all fun c => !isBlank c && c != '#') ↔ IsOperand w := by
  simp only [Bool.and_eq_true, Bool.not_eq_true', List.isEmpty_eq_false_iff, List.all_eq_true,
    bne_iff_ne]
  constructor
  · intro h
    exact ⟨h.1, fun c hc => (h.2 c hc).1, fun c hc => (h.2 c hc).2⟩
  · intro h
    exact ⟨h.nonempty, fun c hc => ⟨h.joined c hc, h.uncommented c hc⟩⟩

instance : DecidablePred IsOperand := fun _ => decidable_of_iff _ isOperand_iff

/-- The line that makes a constant of a word. -/
def constLine (w : List Char) : String := "CONST " ++ String.ofList w

/-- Where the word stands in that line. -/
def operandSpan (w : List Char) : Span := .ofBytes 6 (6 + byteLength w)

/-- The report on a word that is no constant. -/
def invalidConstant (w : List Char) : Diagnostic where
  severity := .error
  message := "invalid integer `" ++ String.ofList w ++ "`"
  span := operandSpan w
  notes := ["constants are 32-bit signed integers"]
  help := none

theorem toList_constLine (w : List Char) : (constLine w).toList = "CONST".toList ++ ' ' :: w := by
  simp [constLine]

section Line
variable {w : List Char} (hw : IsOperand w)
include hw

theorem words_constLine : words 0 (constLine w).toList =
    [⟨"CONST", .ofBytes 0 5⟩, ⟨String.ofList w, operandSpan w⟩] := by
  have hblank : isBlank ' ' = true := by decide
  have hword : runs 6 (w ++ []) = [(6, w)] := runs_append 6 [] hw.joined hw.nonempty (by simp)
  rw [List.append_nil] at hword
  rw [toList_constLine, words_append 0 (by decide) _ (by simp [hblank]), words_blank]
  show _ :: (runs 6 w).map _ = _
  rw [hword]
  rfl

theorem readLine_constLine : readLine 0 (constLine w).toList =
    some (((readConst (String.ofList w)).mapError (⟨·, operandSpan w⟩)).map
      (⟨·, Span.merge (.ofBytes 0 5) (operandSpan w)⟩)) := by
  have hcode : Text.before '#' (constLine w).toList = (constLine w).toList := by
    apply Text.before_eq_self
    rw [toList_constLine]
    have hword : '#' ∉ w := List.forall_mem_ne'.mp hw.uncommented
    exact List.not_mem_append (by decide) (List.not_mem_cons_of_ne_of_not_mem (by decide) hword)
  rw [readLine, hcode, words_constLine hw]
  rfl

theorem read_constLine : read (constLine w) = gather (readLine 0 (constLine w).toList).toList := by
  have hline : Text.pieces '\n' (constLine w).toList = [(constLine w).toList] := by
    apply Text.pieces_eq_singleton
    rw [toList_constLine]
    have hword : '\n' ∉ w := fun hfeed => absurd (hw.joined _ hfeed) (by decide)
    exact List.not_mem_append (by decide) (List.not_mem_cons_of_ne_of_not_mem (by decide) hword)
  rw [read, hline, readLines, readLines, List.append_nil]

theorem report_constLine : report (constLine w) =
    (Text.Decimal.readInt32 w).elim (.error [invalidConstant w])
      fun v => .ok [⟨.const v, Span.merge (.ofBytes 0 5) (operandSpan w)⟩] := by
  rw [report, read_constLine hw, readLine_constLine hw, readConst, String.toList_ofList]
  cases Text.Decimal.readInt32 w with
  | none => rfl
  | some v => rfl

end Line

/-! ### Words with a value -/

/-- An integer as the format writes it. -/
inductive Integer : List Char → Int → Prop where
  | digits {cs : List Char} {n : Nat} : Digits cs n → Integer cs n
  | minus {cs : List Char} {n : Nat} : Digits cs n → Integer ('-' :: cs) (-n)

/-- The line of a word is read by its value: it can be read exactly when the word has a value of 32
bits, it is then the constant with that value, and otherwise the word is reported. -/
structure ReadByValue (w : List Char) (value : Int → Prop) : Prop where
  accepted : (∃ ops, report (constLine w) = .ok ops) ↔
    ∃ n, value n ∧ -2147483648 ≤ n ∧ n ≤ 2147483647
  const : ∀ n, value n → -2147483648 ≤ n → n ≤ 2147483647 →
    ∃ v span, v.toInt = n ∧ report (constLine w) = .ok [⟨.const v, span⟩]
  invalid : (¬ ∃ n, value n ∧ -2147483648 ≤ n ∧ n ≤ 2147483647) →
    report (constLine w) = .error [invalidConstant w]

theorem readByValue_numeral {w : List Char} (hw : IsOperand w) : ReadByValue w (Numeral w) := by
  have hread {n : Int} (hn : Numeral w n) (hlow : -2147483648 ≤ n) (hhigh : n ≤ 2147483647) :
      report (constLine w) =
        .ok [⟨.const (.ofInt n), Span.merge (.ofBytes 0 5) (operandSpan w)⟩] := by
    rw [report_constLine hw, Text.Decimal.readInt32_eq_some.mpr ⟨n, hn, hlow, hhigh, rfl⟩]
    rfl
  have hvalued {v : Int32} (hv : Text.Decimal.readInt32 w = some v) :
      ∃ n, Numeral w n ∧ -2147483648 ≤ n ∧ n ≤ 2147483647 := by
    obtain ⟨n, hn, hlow, hhigh, -⟩ := Text.Decimal.readInt32_eq_some.mp hv
    exact ⟨n, hn, hlow, hhigh⟩
  constructor
  · constructor
    · intro h
      obtain ⟨ops, hops⟩ := h
      rw [report_constLine hw] at hops
      cases hv : Text.Decimal.readInt32 w with
      | none =>
        rw [hv] at hops
        cases hops
      | some v => exact hvalued hv
    · intro h
      obtain ⟨n, hn, hlow, hhigh⟩ := h
      exact ⟨_, hread hn hlow hhigh⟩
  · intro n hn hlow hhigh
    exact ⟨_, _, Int32.toInt_ofInt_of_le hlow (by omega), hread hn hlow hhigh⟩
  · intro hnone
    cases hv : Text.Decimal.readInt32 w with
    | none =>
      rw [report_constLine hw, hv]
      rfl
    | some v => exact absurd (hvalued hv) hnone

theorem ReadByValue.congr {w : List Char} {p q : Int → Prop} (h : ReadByValue w p)
    (heq : ∀ n, p n ↔ q n) : ReadByValue w q := by
  obtain rfl : p = q := funext fun n => propext (heq n)
  exact h

theorem numeral_iff_integer {w : List Char} (h : w.head? ≠ some '+') (n : Int) :
    Numeral w n ↔ Integer w n := by
  constructor
  · intro hn
    cases hn with
    | unsigned hdigits => exact .digits hdigits
    | plus => exact absurd rfl h
    | minus hdigits => exact .minus hdigits
  · intro hn
    cases hn with
    | digits hdigits => exact .unsigned hdigits
    | minus hdigits => exact .minus hdigits

theorem numeral_plus_iff (ds : List Char) (n : Int) :
    Numeral ('+' :: ds) n ↔ ∃ k : Nat, Digits ds k ∧ n = k := by
  constructor
  · intro hn
    cases hn with
    | unsigned hdigits =>
      -- Digits do not begin with a sign.
      exact absurd (hdigits.isDigit.2.1 '+' (List.mem_cons_self ..)) (by decide)
    | plus hdigits => exact ⟨_, hdigits, rfl⟩
  · intro hn
    obtain ⟨k, hdigits, rfl⟩ := hn
    exact .plus hdigits

/-- **Constants are read by the format, but for a plus sign.** The line of a word without a plus
sign in front is read exactly when the word is an integer of the format and of 32 bits; the constant
has its value, and every other word is reported at its place. Behind a plus sign the digits are read
by themselves. -/
theorem constants_by_sign (w : List Char) (hw : IsOperand w) :
    (w.head? ≠ some '+' → ReadByValue w (Integer w)) ∧
    ∀ ds, w = '+' :: ds → ReadByValue w fun n => ∃ k : Nat, Digits ds k ∧ n = k := by
  constructor
  · intro hsign
    exact (readByValue_numeral hw).congr (numeral_iff_integer hsign)
  · intro ds hds
    subst hds
    exact (readByValue_numeral hw).congr (numeral_plus_iff ds)

/-- The least constant is read, the first number above the greatest is reported, and zeros behind a
plus sign do not count. -/
theorem outermost_by_sign :
    (∃ v span, v.toInt = -2147483648 ∧
      report (constLine "-2147483648".toList) = .ok [⟨.const v, span⟩]) ∧
    report (constLine "2147483648".toList) =
      .error [⟨.error, "invalid integer `2147483648`", ⟨6, 16⟩,
        ["constants are 32-bit signed integers"], none⟩] ∧
    ∃ v span, v.toInt = 7 ∧ report (constLine "+007".toList) = .ok [⟨.const v, span⟩] := by
  have hleast := (constants_by_sign "-2147483648".toList (by decide)).1
    (by decide)
  have hgreat := (constants_by_sign "2147483648".toList (by decide)).1
    (by decide)
  have hplus := (constants_by_sign "+007".toList (by decide)).2 _ rfl
  refine ⟨?_, ?_, ?_⟩
  · exact hleast.const _ (.minus (Text.Decimal.readDigits_eq_some.mp rfl)) (by decide) (by decide)
  · apply hgreat.invalid
    intro h
    obtain ⟨n, hn, -, hhigh⟩ := h
    have hvalue := Text.Decimal.readInt_eq_some.mpr ((numeral_iff_integer (by decide) n).mpr hn)
    cases hvalue
    exact absurd hhigh (by decide)
  · exact hplus.const 7 ⟨7, Text.Decimal.readDigits_eq_some.mp rfl, rfl⟩ (by decide) (by decide)

/-- **A word outside the format is read as a constant.** -/
theorem plus_sign_read :
    IsOperand "+5".toList ∧ (¬ ∃ n, Integer "+5".toList n) ∧
    report (constLine "+5".toList) = .ok [⟨.const 5, ⟨0, 8⟩⟩] := by
  refine ⟨by decide, ?_, rfl⟩
  intro h
  obtain ⟨n, hn⟩ := h
  cases hn with
  | digits hdigits => exact absurd (hdigits.isDigit.2.1 '+' (by decide)) (by decide)

end StackBackend.Listing
