import StackBackend.Proofs.Numerals
import StackBackend.Stack.Listing

/-! The grammar of listings.

The text of a listing is split at its line feeds. A line is cut at its first `#`, and the rest is
split at every blank; the parts that are not empty are the words of the line (`lineWords`). `Spells`
gives the words of each operation, with numbers as `Numeral` and names as `IsIdentifier` describe
them, and `Denotes` the operations of a list of lines.

The reader finds words with their places in the text, in one pass over its characters, and reads
numbers digit by digit. `read_grammar` says that nothing of this shows: a text can be read exactly
when every line of it is empty or spells an operation, and the operations are those that the lines
denote. -/
namespace StackBackend

namespace Listing

open Text (isBlank)
open Text.Decimal (Numeral)

/-! ### Words -/

/-- The words of a line: its text before a comment, split at every blank. -/
def lineWords (line : List Char) : List String :=
  (((Text.before '#' line).splitOnP isBlank).filter (!·.isEmpty)).map String.ofList

/-- The words of a listing, line by line. -/
def listingWords (source : String) : List (List String) :=
  (source.toList.splitOn '\n').map lineWords

theorem runs_blank (start : Nat) {c : Char} (hc : isBlank c = true) (cs : List Char) :
    runs start (c :: cs) = runs (start + c.utf8Size) cs := by
  simp only [runs, hc, if_true]

/-- A character that ends its word. -/
theorem runs_last {start : Nat} {c : Char} {cs : List Char} (hc : isBlank c = false)
    (hcs : ∀ d, cs.head? = some d → isBlank d = true) :
    runs start (c :: cs) = (start, [c]) :: runs (start + c.utf8Size) cs := by
  generalize hrest : runs (start + c.utf8Size) cs = rest
  unfold runs
  simp only [hc, hrest, Bool.false_eq_true, if_false]
  cases cs with
  | nil => rfl
  | cons d cs =>
    cases rest with
    | nil => rfl
    | cons first ws => exact if_pos (hcs d rfl)

/-- A character that another one of its word follows. -/
theorem runs_more {start first : Nat} {c d : Char} {cs w : List Char} {ws : List (Nat × List Char)}
    (hc : isBlank c = false) (hd : isBlank d = false)
    (hrest : runs (start + c.utf8Size) (d :: cs) = (first, w) :: ws) :
    runs start (c :: d :: cs) = (start, c :: w) :: ws := by
  unfold runs
  simp only [hc, hrest, hd, Bool.false_eq_true, if_false]

/-- The runs that the reader finds in one pass are what splitting at blanks leaves. -/
theorem runs_eq_splitOnP (start : Nat) (cs : List Char) :
    (runs start cs).map (·.2) = (cs.splitOnP isBlank).filter (!·.isEmpty) := by
  induction cs generalizing start with
  | nil => rfl
  | cons c cs ih =>
    have hrest := ih (start + c.utf8Size)
    rw [List.splitOnP_cons_eq_if_modifyHead]
    cases hc : isBlank c with
    | true => simp [runs_blank start hc, hrest]
    | false =>
      cases cs with
      | nil => simp [runs, hc]
      | cons d cs =>
        rw [List.splitOnP_cons_eq_if_modifyHead] at hrest ⊢
        cases hd : isBlank d with
        | true =>
          have hruns : runs start (c :: d :: cs) =
              (start, [c]) :: runs (start + c.utf8Size) (d :: cs) :=
            runs_last hc (by simp [hd])
          simpa [hruns, hd] using hrest
        | false =>
          -- The next character is of the same word, so the first run of the rest grows.
          obtain ⟨p, ps, hp⟩ := List.exists_cons_of_ne_nil (List.splitOnP_ne_nil isBlank cs)
          obtain ⟨w, ws, hw⟩ : ∃ w ws, runs (start + c.utf8Size) (d :: cs) = w :: ws := by
            apply List.exists_cons_of_ne_nil
            intro hnil
            simp [hnil, hd, hp] at hrest
          simpa [runs_more hc hd hw, hw, hd, hp] using hrest

theorem words_val (start : Nat) (line : List Char) :
    (words start (Text.before '#' line)).map (·.val) = lineWords line := by
  simp [words, lineWords, ← runs_eq_splitOnP start, Function.comp_def]

/-! ### Names -/

/-- A letter or an underscore: `[A-Za-z_]`. -/
def IsLetter (c : Char) : Prop := ('A' ≤ c ∧ c ≤ 'Z') ∨ ('a' ≤ c ∧ c ≤ 'z') ∨ c = '_'

/-- The form of names: `[A-Za-z_][A-Za-z0-9_]*`. -/
def IsIdentifier (name : String) : Prop :=
  ∃ c cs, name.toList = c :: cs ∧ IsLetter c ∧ ∀ d ∈ cs, IsLetter d ∨ ('0' ≤ d ∧ d ≤ '9')

theorem isLetter_iff {c : Char} : (c.isAlpha || c = '_') ↔ IsLetter c := by
  have halpha : c.isAlpha = (c.isUpper || c.isLower) := rfl
  have hupper : c.isUpper = decide ('A' ≤ c ∧ c ≤ 'Z') := rfl
  have hlower : c.isLower = (decide ('a' ≤ c) && decide (c ≤ 'z')) := rfl
  simp only [halpha, hupper, hlower, IsLetter, Bool.or_eq_true, Bool.and_eq_true,
    decide_eq_true_eq, or_assoc]

instance : DecidablePred IsLetter := fun _ => decidable_of_iff _ isLetter_iff

theorem isLetter_or_digit_iff {c : Char} :
    (c.isAlphanum || c = '_') ↔ IsLetter c ∨ ('0' ≤ c ∧ c ≤ '9') := by
  simp only [Char.isAlphanum, Char.isDigit, ge_iff_le, Bool.or_eq_true, Bool.and_eq_true,
    decide_eq_true_eq, Char.le_def, ← isLetter_iff]
  rw [or_right_comm]

theorem isName_iff {name : String} : isName name ↔ IsIdentifier name := by
  unfold isName IsIdentifier
  cases name.toList with
  | nil => simp
  | cons c cs =>
    simp only [Bool.and_eq_true, isLetter_iff, List.all_eq_true, isLetter_or_digit_iff,
      List.cons.injEq]
    constructor
    · intro h
      exact ⟨c, cs, ⟨rfl, rfl⟩, h⟩
    · intro h
      obtain ⟨_, _, ⟨rfl, rfl⟩, h⟩ := h
      exact h

instance : DecidablePred IsIdentifier := fun _ => decidable_of_iff _ isName_iff

/-! ### Operations -/

/-- The words of an operation. -/
inductive Spells : List String → Op → Prop where
  | read : Spells ["READ"] .read
  | write : Spells ["WRITE"] .write
  | const {w : String} {n : Int} : Numeral w.toList n → -2147483648 ≤ n → n ≤ 2147483647 →
      Spells ["CONST", w] (.const (.ofInt n))
  | load {x : String} : IsIdentifier x → Spells ["LD", x] (.load x)
  | store {x : String} : IsIdentifier x → Spells ["ST", x] (.store x)
  | binary (op : Operator) : Spells ["BINOP", op.symbol] (.binary op)

/-- The operations of some lines in the order of the lines. A line without words has none. -/
inductive Denotes : List (List String) → List Op → Prop where
  | nil : Denotes [] []
  | silent {lines : List (List String)} {ops : List Op} :
      Denotes lines ops → Denotes ([] :: lines) ops
  | line {words : List String} {op : Op} {lines : List (List String)} {ops : List Op} :
      Spells words op → Denotes lines ops → Denotes (words :: lines) (op :: ops)

theorem noOperand_eq_ok {m : Located String} {args : List (Located String)} {op op' : Op} :
    noOperand m args op = .ok op' ↔ args = [] ∧ op = op' := by
  cases args <;> simp [noOperand]

theorem oneOperand_eq_ok {m : Located String} {args : List (Located String)}
    {f : String → Except Error Op} {op : Op} :
    oneOperand m args f = .ok op ↔ ∃ w, args = [w] ∧ f w.val = .ok op := by
  cases args with
  | nil => simp [oneOperand]
  | cons w ws =>
    cases ws with
    | nil =>
      simp only [oneOperand, List.cons.injEq, and_true, exists_eq_left']
      cases f w.val with
      | error e => constructor <;> (intro h; cases h)
      | ok op' => constructor <;> (intro h; cases h; rfl)
    | cons w' ws => simp [oneOperand]

theorem readGlobal_eq_ok {f : String → Op} {word : String} {op : Op} :
    readGlobal f word = .ok op ↔ IsIdentifier word ∧ f word = op := by
  rw [← isName_iff]
  unfold readGlobal
  split <;> simp_all

theorem readConst_eq_ok {w : String} {op : Op} : readConst w = .ok op ↔
    ∃ n, Numeral w.toList n ∧ -2147483648 ≤ n ∧ n ≤ 2147483647 ∧ .const (.ofInt n) = op := by
  have hread : readConst w = .ok op ↔
      ∃ v, Text.Decimal.readInt32 w.toList = some v ∧ .const v = op := by
    unfold readConst
    split <;> simp_all
  rw [hread]
  constructor
  · intro h
    obtain ⟨v, hv, rfl⟩ := h
    obtain ⟨n, hn, hlow, hhigh, rfl⟩ := Text.Decimal.readInt32_eq_some.mp hv
    exact ⟨n, hn, hlow, hhigh, rfl⟩
  · intro h
    obtain ⟨n, hn, hlow, hhigh, rfl⟩ := h
    exact ⟨_, Text.Decimal.readInt32_eq_some.mpr ⟨n, hn, hlow, hhigh, rfl⟩, rfl⟩

theorem readOperator_eq_ok {w : String} {op : Op} : readOperator w = .ok op ↔
    ∃ o : Operator, o.symbol = w ∧ .binary o = op := by
  unfold readOperator
  constructor
  · intro h
    cases ho : Operator.read w with
    | error e =>
      rw [ho] at h
      cases h
    | ok o =>
      rw [ho] at h
      cases h
      exact ⟨o, Operator.symbol_of_read ho, rfl⟩
  · intro h
    obtain ⟨o, rfl, rfl⟩ := h
    rw [Operator.read_symbol]
    rfl

/-- The reader of operations takes the words of an operation and no others. -/
theorem readOp_eq_ok {m : Located String} {args : List (Located String)} {op : Op} :
    readOp m args = .ok op ↔ Spells (m.val :: args.map (·.val)) op := by
  constructor
  · intro h
    unfold readOp at h
    split at h
    next hm =>
      obtain ⟨rfl, rfl⟩ := noOperand_eq_ok.mp h
      exact hm ▸ .read
    next hm =>
      obtain ⟨rfl, rfl⟩ := noOperand_eq_ok.mp h
      exact hm ▸ .write
    next hm =>
      obtain ⟨w, rfl, hw⟩ := oneOperand_eq_ok.mp h
      obtain ⟨n, hn, hlow, hhigh, rfl⟩ := readConst_eq_ok.mp hw
      exact hm ▸ .const hn hlow hhigh
    next hm =>
      obtain ⟨w, rfl, hw⟩ := oneOperand_eq_ok.mp h
      obtain ⟨hx, rfl⟩ := readGlobal_eq_ok.mp hw
      exact hm ▸ .load hx
    next hm =>
      obtain ⟨w, rfl, hw⟩ := oneOperand_eq_ok.mp h
      obtain ⟨hx, rfl⟩ := readGlobal_eq_ok.mp hw
      exact hm ▸ .store hx
    next hm =>
      obtain ⟨w, rfl, hw⟩ := oneOperand_eq_ok.mp h
      obtain ⟨o, ho, rfl⟩ := readOperator_eq_ok.mp hw
      simp only [List.map_cons, List.map_nil, hm, ← ho]
      exact .binary o
    next => cases h
  · intro h
    generalize hwords : m.val :: args.map (·.val) = words at h
    -- The operand of an operation with one is the only word after the mnemonic.
    have one {w : String} {f : String → Except Error Op} (hargs : args.map (·.val) = [w])
        (hf : f w = .ok op) : oneOperand m args f = .ok op := by
      obtain ⟨a, ha, rfl⟩ := List.map_eq_singleton_iff.mp hargs
      exact oneOperand_eq_ok.mpr ⟨a, ha, hf⟩
    cases h with
    | read =>
      obtain ⟨hm, hargs⟩ := List.cons.inj hwords
      simp only [readOp, hm]
      exact noOperand_eq_ok.mpr ⟨List.map_eq_nil_iff.mp hargs, rfl⟩
    | write =>
      obtain ⟨hm, hargs⟩ := List.cons.inj hwords
      simp only [readOp, hm]
      exact noOperand_eq_ok.mpr ⟨List.map_eq_nil_iff.mp hargs, rfl⟩
    | const hn hlow hhigh =>
      obtain ⟨hm, hargs⟩ := List.cons.inj hwords
      simp only [readOp, hm]
      exact one hargs (readConst_eq_ok.mpr ⟨_, hn, hlow, hhigh, rfl⟩)
    | load hx =>
      obtain ⟨hm, hargs⟩ := List.cons.inj hwords
      simp only [readOp, hm]
      exact one hargs (readGlobal_eq_ok.mpr ⟨hx, rfl⟩)
    | store hx =>
      obtain ⟨hm, hargs⟩ := List.cons.inj hwords
      simp only [readOp, hm]
      exact one hargs (readGlobal_eq_ok.mpr ⟨hx, rfl⟩)
    | binary o =>
      obtain ⟨hm, hargs⟩ := List.cons.inj hwords
      simp only [readOp, hm]
      exact one hargs (readOperator_eq_ok.mpr ⟨o, rfl, rfl⟩)

/-! ### Lines -/

theorem readLine_eq_none {start : Nat} {line : List Char} :
    readLine start line = none ↔ lineWords line = [] := by
  rw [← words_val start, List.map_eq_nil_iff]
  unfold readLine
  split <;> simp_all

theorem readLine_eq_ok {start : Nat} {line : List Char} {op : Op} :
    (∃ span, readLine start line = some (.ok ⟨op, span⟩)) ↔ Spells (lineWords line) op := by
  rw [← words_val start]
  unfold readLine
  split
  next hw =>
    rw [hw]
    constructor
    · intro h
      obtain ⟨span, h⟩ := h
      cases h
    · intro h
      cases h
  next w ws hw =>
    rw [hw, List.map_cons, ← readOp_eq_ok]
    cases readOp w ws with
    | error e =>
      constructor
      · intro h
        obtain ⟨span, h⟩ := h
        cases h
      · intro h
        cases h
    | ok op' =>
      constructor
      · intro h
        obtain ⟨span, h⟩ := h
        cases h
        rfl
      · intro h
        cases h
        exact ⟨_, rfl⟩

theorem readLines_denote {start : Nat} {lines : List (List Char)} {ops : List (Located Op)}
    (h : readLines start lines = ops.map .ok) :
    Denotes (lines.map lineWords) (ops.map (·.val)) := by
  induction lines generalizing start ops with
  | nil =>
    obtain rfl := List.map_eq_nil_iff.mp h.symm
    exact .nil
  | cons line lines ih =>
    rw [readLines] at h
    cases hline : readLine start line with
    | none =>
      rw [hline] at h
      rw [List.map_cons, readLine_eq_none.mp hline]
      exact .silent (ih h)
    | some reading =>
      rw [hline] at h
      obtain ⟨x, ops, rfl, hx, hops⟩ := List.map_eq_cons_iff.mp h.symm
      have hspells : Spells (lineWords line) x.val :=
        readLine_eq_ok.mp ⟨x.span, hline.trans (by rw [← hx])⟩
      exact .line hspells (ih hops.symm)

theorem readLines_of_denotes (start : Nat) {lines : List (List Char)} {denoted : List Op}
    (h : Denotes (lines.map lineWords) denoted) :
    ∃ ops : List (Located Op), readLines start lines = ops.map .ok ∧ ops.map (·.val) = denoted := by
  induction lines generalizing start denoted with
  | nil =>
    cases h
    exact ⟨[], rfl, rfl⟩
  | cons line lines ih =>
    rw [List.map_cons] at h
    generalize hwords : lineWords line = words at h
    cases h with
    | silent hrest =>
      obtain ⟨ops, hops, hvals⟩ := ih (start + Text.byteLength line + 1) hrest
      refine ⟨ops, ?_, hvals⟩
      rw [readLines, readLine_eq_none.mpr hwords, hops]
      rfl
    | line hspells hrest =>
      obtain ⟨ops, hops, hvals⟩ := ih (start + Text.byteLength line + 1) hrest
      rw [← hwords] at hspells
      obtain ⟨span, hline⟩ : ∃ span, readLine start line = some (.ok ⟨_, span⟩) :=
        readLine_eq_ok.mpr hspells
      refine ⟨⟨_, span⟩ :: ops, ?_, by rw [List.map_cons, hvals]⟩
      rw [readLines, hline, hops]
      rfl

/-! ### Listings -/

theorem gather_eq_ok {readings : List (Except (Located Error) (Located Op))}
    {ops : List (Located Op)} : gather readings = .ok ops ↔ readings = ops.map .ok := by
  unfold gather
  constructor
  · intro h
    split at h
    next herrors =>
      cases h
      induction readings with
      | nil => rfl
      | cons r readings ih =>
        cases r with
        | error e => simp at herrors
        | ok x =>
          have hrest := ih (by simpa using herrors)
          exact congrArg (Except.ok x :: ·) hrest
    next => cases h
  · intro h
    subst h
    split
    next =>
      rw [List.filterMap_map]
      exact congrArg Except.ok List.filterMap_some
    next herrors => exact absurd (by simp [List.filterMap_map]) herrors

theorem read_denotes {source : String} {denoted : List Op} :
    (∃ ops, read source = .ok ops ∧ ops.map (·.val) = denoted) ↔
      Denotes (listingWords source) denoted := by
  unfold read listingWords
  rw [← Text.pieces_eq_splitOn]
  constructor
  · intro h
    obtain ⟨ops, hops, rfl⟩ := h
    exact readLines_denote (gather_eq_ok.mp hops)
  · intro h
    obtain ⟨ops, hops, hvals⟩ := readLines_of_denotes 0 h
    exact ⟨ops, gather_eq_ok.mpr hops, hvals⟩

theorem exists_denotes {lines : List (List String)} :
    (∃ ops, Denotes lines ops) ↔ ∀ words ∈ lines, words = [] ∨ ∃ op, Spells words op := by
  induction lines with
  | nil => exact ⟨by simp, fun _ => ⟨[], .nil⟩⟩
  | cons words lines ih =>
    rw [List.forall_mem_cons, ← ih]
    constructor
    · intro h
      obtain ⟨ops, h⟩ := h
      cases h with
      | silent h => exact ⟨.inl rfl, _, h⟩
      | line hspells h => exact ⟨.inr ⟨_, hspells⟩, _, h⟩
    · intro h
      obtain ⟨hwords, ops, h⟩ := h
      rcases hwords with rfl | ⟨op, hspells⟩
      · exact ⟨ops, .silent h⟩
      · exact ⟨op :: ops, .line hspells h⟩

/-- **The reader takes the grammar and nothing else.** A text can be read exactly when each of its
lines has no words or spells an operation, and the operations that are read are the ones that the
lines denote. -/
theorem read_grammar (source : String) :
    ((∃ ops, read source = .ok ops) ↔
      ∀ words ∈ listingWords source, words = [] ∨ ∃ op, Spells words op) ∧
    ∀ ops, read source = .ok ops →
      ∀ denoted, Denotes (listingWords source) denoted ↔ denoted = ops.map (·.val) := by
  constructor
  · rw [← exists_denotes]
    constructor
    · intro h
      obtain ⟨ops, hops⟩ := h
      exact ⟨_, read_denotes.mp ⟨ops, hops, rfl⟩⟩
    · intro h
      obtain ⟨denoted, h⟩ := h
      obtain ⟨ops, hops, -⟩ := read_denotes.mpr h
      exact ⟨ops, hops⟩
  · intro ops hops denoted
    constructor
    · intro h
      obtain ⟨ops', hops', rfl⟩ := read_denotes.mpr h
      cases hops.symm.trans hops'
      rfl
    · intro h
      exact read_denotes.mp ⟨ops, hops, h.symm⟩

/-- Blanks that are not ASCII, a word that a comment cuts off, and no line feed at the end. -/
def irregular : String := "\u3000CONST\u00a0+007# seven\n\t\r\nBINOP !!#\nST _y"

theorem irregular_read_grammar :
    listingWords irregular = [["CONST", "+007"], [], ["BINOP", "!!"], ["ST", "_y"]] ∧
    (∀ words ∈ listingWords irregular, words = [] ∨ ∃ op, Spells words op) ∧
    (∃ ops, read irregular = .ok ops ∧
      Denotes (listingWords irregular) [.const 7, .binary .or, .store "_y"]) ∧
    ¬ ∃ op, Spells ["CONST", "+", "7"] op := by
  have hread : read irregular =
      .ok [⟨.const 7, ⟨3, 14⟩⟩, ⟨.binary .or, ⟨25, 33⟩⟩, ⟨.store "_y", ⟨35, 40⟩⟩] := rfl
  obtain ⟨haccepts, hdenotes⟩ := read_grammar irregular
  refine ⟨rfl, haccepts.mp ⟨_, hread⟩, ⟨_, hread, (hdenotes _ hread _).mpr rfl⟩, ?_⟩
  -- A sign and its digits are one word.
  intro hspells
  have hlines : ∀ words ∈ listingWords "CONST + 7", words = [] ∨ ∃ op, Spells words op :=
    List.forall_mem_singleton.mpr (.inr hspells)
  obtain ⟨ops, hops⟩ := (read_grammar "CONST + 7").1.mpr hlines
  cases hops

end Listing

end StackBackend
