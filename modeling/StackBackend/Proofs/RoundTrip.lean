import StackBackend.Proofs.Grammar

/-! Reading a listing undoes printing it.

A printed operation is a word, or two words with one blank between them. Its line is cut into these
words again (`words_text`), and they spell the operation (`spells_of_spelled`). A printed listing is
cut into the lines of its operations, and each is read by itself (`readLines_text`). Whatever text
is read, the names in it are of the right form (`read_spelled`), so what was read can be printed and
read again. `read_print` states both. -/
namespace StackBackend

/-! ### Words -/

namespace Text

/-- The characters of printed words: visible ASCII, except the one that begins a comment. -/
def isPlain (c : Char) : Bool := 33 ≤ c.toNat && c.toNat ≤ 126 && c != '#'

/-- A printed word. -/
def isWord (w : List Char) : Bool := !w.isEmpty && w.all isPlain

theorem isWord_iff {w : List Char} : isWord w ↔ w ≠ [] ∧ ∀ c ∈ w, isPlain c := by
  simp [isWord]

theorem isWord_append {v w : List Char} (hv : isWord v) (hw : isWord w) : isWord (v ++ w) := by
  obtain ⟨hne, hv⟩ := isWord_iff.mp hv
  exact isWord_iff.mpr ⟨by simp [hne], List.forall_mem_append.mpr ⟨hv, (isWord_iff.mp hw).2⟩⟩

theorem not_blank_of_isPlain {c : Char} (h : isPlain c) : isBlank c = false := by
  simp only [isPlain, Bool.and_eq_true, decide_eq_true_eq] at h
  simp only [isBlank, blankRanges, List.any_cons, List.any_nil, Bool.or_false, Bool.or_eq_false_iff,
    Bool.and_eq_false_iff, decide_eq_false_iff_not]
  omega

end Text

open Text (isBlank byteLength isPlain isWord isWord_iff)

namespace Listing

/-- A word goes up to the end of the text or to a blank. -/
theorem runs_append {w : List Char} (start : Nat) (rest : List Char)
    (hw : ∀ c ∈ w, isBlank c = false) (hne : w ≠ [])
    (hrest : ∀ c, rest.head? = some c → isBlank c = true) :
    runs start (w ++ rest) = (start, w) :: runs (start + byteLength w) rest := by
  induction w generalizing start with
  | nil => exact absurd rfl hne
  | cons c w ih =>
    have hc := hw c (List.mem_cons_self ..)
    -- What stands behind a character decides whether its word ends there, so the last one is apart.
    cases w with
    | nil => exact runs_last hc hrest
    | cons d w =>
      have hd := hw d (by simp)
      have hmore := ih (start + c.utf8Size) (fun x hx => hw x (List.mem_cons_of_mem _ hx)) (by simp)
      rw [Nat.add_assoc] at hmore
      exact runs_more hc hd hmore

theorem isPlain_of_letter_or_digit {c : Char} (h : IsLetter c ∨ ('0' ≤ c ∧ c ≤ '9')) :
    isPlain c := by
  have hrange : 48 ≤ c.toNat ∧ c.toNat ≤ 122 := by
    have hle (a b : Char) : a ≤ b ↔ a.toNat ≤ b.toNat := Iff.rfl
    simp only [IsLetter, hle, Char.reduceToNat] at h
    rcases h with (h | h | rfl) | h
    · omega
    · omega
    · decide
    · omega
  have hcomment : c ≠ '#' := by
    intro hc
    subst hc
    exact absurd hrange (by decide)
  simp only [isPlain, Bool.and_eq_true, decide_eq_true_eq, bne_iff_ne]
  exact ⟨⟨by omega, by omega⟩, hcomment⟩

theorem isWord_of_isIdentifier {name : String} (h : IsIdentifier name) : isWord name.toList := by
  obtain ⟨c, cs, hname, hc, hcs⟩ := h
  rw [hname]
  refine isWord_iff.mpr ⟨by simp, List.forall_mem_cons.mpr ⟨?_, ?_⟩⟩
  · exact isPlain_of_letter_or_digit (.inl hc)
  · exact fun d hd => isPlain_of_letter_or_digit (hcs d hd)

end Listing

/-! ### Spans -/

theorem Span.merge_ofBytes {a b c d : Nat} (hac : a ≤ c) (hbd : b ≤ d) (hc : c < 4294967296)
    (hd : d < 4294967296) : (ofBytes a b).merge (ofBytes c d) = ofBytes a d := by
  have hstart : UInt32.ofNat a ≤ .ofNat c := by
    rw [UInt32.le_iff_toNat_le, UInt32.toNat_ofNat', UInt32.toNat_ofNat']
    omega
  have hstop : UInt32.ofNat b ≤ .ofNat d := by
    rw [UInt32.le_iff_toNat_le, UInt32.toNat_ofNat', UInt32.toNat_ofNat']
    omega
  simp only [merge, ofBytes, Span.mk.injEq]
  exact ⟨if_pos hstart, if_pos hstop⟩

/-! ### Numbers -/

namespace Text.Decimal

theorem isPlain_of_isDigit {c : Char} (h : c.isDigit = true) : isPlain c := by
  apply Listing.isPlain_of_letter_or_digit
  simpa [Char.isDigit, Char.le_def] using Or.inr h

theorem isWord_writeNat (n : Nat) : isWord (writeNat n).toList := by
  have hdigits : ∀ c ∈ Nat.toDigits 10 n, isPlain c :=
    fun c hc => isPlain_of_isDigit (Nat.isDigit_of_mem_toDigits (by decide) (by decide) hc)
  simpa [writeNat, isWord_iff] using hdigits

theorem isWord_writeInt (n : Int) : isWord (writeInt n).toList := by
  cases n with
  | ofNat k => exact isWord_writeNat k
  | negSucc k =>
    have hsign : isWord "-".toList := by decide
    rw [writeInt, String.toList_append]
    exact Text.isWord_append hsign (isWord_writeNat (k + 1))

end Text.Decimal

/-! ### Operations -/

namespace Op

/-- The first word of an operation. -/
def mnemonic : Op → String
  | read => "READ"
  | write => "WRITE"
  | const _ => "CONST"
  | load _ => "LD"
  | store _ => "ST"
  | binary _ => "BINOP"

/-- The second word of an operation, if it has one. -/
def argument? : Op → Option String
  | read | write => none
  | const v => some (Text.Decimal.writeInt v.toInt)
  | load x | store x => some x
  | binary op => some op.symbol

theorem text_eq (op : Op) : op.text.toList =
    op.mnemonic.toList ++ op.argument?.toList.flatMap fun a => ' ' :: a.toList := by
  cases op <;> simp [text, mnemonic, argument?]

/-- The global that an operation refers to, if there is one, has a name of the right form. -/
def Spelled (op : Op) : Prop := ∀ x, op.global? = some x → Listing.IsIdentifier x

instance : DecidablePred Spelled := fun op =>
  inferInstanceAs (Decidable (∀ x ∈ op.global?, Listing.IsIdentifier x))

theorem isWord_mnemonic (op : Op) : isWord op.mnemonic.toList := by
  cases op <;> simp only [mnemonic] <;> decide

theorem isWord_argument {op : Op} (h : op.Spelled) : ∀ a ∈ op.argument?, isWord a.toList := by
  intro a ha
  cases op with
  | read => cases ha
  | write => cases ha
  | const v =>
    cases ha
    exact Text.Decimal.isWord_writeInt v.toInt
  | load x =>
    cases ha
    exact Listing.isWord_of_isIdentifier (h _ rfl)
  | store x =>
    cases ha
    exact Listing.isWord_of_isIdentifier (h _ rfl)
  | binary op =>
    cases ha
    cases op <;> decide

end Op

namespace Listing

/-- A printed operation has the words of the operation. -/
theorem spells_of_spelled {op : Op} (h : op.Spelled) :
    Spells (op.mnemonic :: op.argument?.toList) op := by
  cases op with
  | read => exact .read
  | write => exact .write
  | const v =>
    have hnumeral := Text.Decimal.readInt_eq_some.mp (Text.Decimal.readInt_writeInt v.toInt)
    have hlow := v.le_toInt
    have hhigh := v.toInt_lt
    have hspells := Spells.const hnumeral (by omega) (by omega)
    rw [Int32.ofInt_toInt] at hspells
    exact hspells
  | load x => exact .load (h x rfl)
  | store x => exact .store (h x rfl)
  | binary op => exact .binary op

/-- Words spell an operation only if its global has a name of the right form. -/
theorem Spells.spelled {words : List String} {op : Op} (h : Spells words op) : op.Spelled := by
  intro x hx
  cases h with
  | load hname =>
    cases hx
    exact hname
  | store hname =>
    cases hx
    exact hname
  | _ => cases hx

theorem Denotes.spelled {lines : List (List String)} {ops : List Op} (h : Denotes lines ops) :
    ∀ op ∈ ops, op.Spelled := by
  induction h with
  | nil => simp
  | silent _ ih => exact ih
  | line hspells _ ih => exact List.forall_mem_cons.mpr ⟨hspells.spelled, ih⟩

/-! ### Lines -/

/-- The first word of an operation's line that starts at byte `start`. -/
def mnemonicAt (start : Nat) (op : Op) : Located String :=
  ⟨op.mnemonic, .ofBytes start (start + byteLength op.mnemonic.toList)⟩

/-- The words that follow it. -/
def argumentsAt (start : Nat) (op : Op) : List (Located String) :=
  let first := start + byteLength op.mnemonic.toList + 1
  op.argument?.toList.map fun a => ⟨a, .ofBytes first (first + byteLength a.toList)⟩

theorem words_blank (start : Nat) (cs : List Char) :
    words start (' ' :: cs) = words (start + 1) cs :=
  congrArg (List.map _) (runs_blank start (by decide) cs)

theorem words_append (start : Nat) {w : String} (hw : isWord w.toList) (rest : List Char)
    (hrest : ∀ c, rest.head? = some c → isBlank c = true) :
    words start (w.toList ++ rest) =
      ⟨w, .ofBytes start (start + byteLength w.toList)⟩ ::
        words (start + byteLength w.toList) rest := by
  obtain ⟨hne, hplain⟩ := isWord_iff.mp hw
  have hblank : ∀ c ∈ w.toList, isBlank c = false :=
    fun c hc => Text.not_blank_of_isPlain (hplain c hc)
  have hruns := runs_append start rest hblank hne hrest
  simp only [words, hruns, List.map_cons, String.ofList_toList]

/-- The line of an operation is cut into the words of the operation. -/
theorem words_text (start : Nat) {op : Op} (h : op.Spelled) :
    words start op.text.toList = mnemonicAt start op :: argumentsAt start op := by
  rw [op.text_eq, mnemonicAt, argumentsAt]
  cases harg : op.argument? with
  | none => exact words_append start op.isWord_mnemonic [] (by simp)
  | some a =>
    have hblank : isBlank ' ' = true := by decide
    have hlast := words_append (start + byteLength op.mnemonic.toList + 1)
      (Op.isWord_argument h a harg) [] (by simp)
    rw [List.append_nil] at hlast
    rw [words_append start op.isWord_mnemonic _ (by simp [hblank])]
    simp only [Option.toList_some, List.flatMap_singleton, words_blank, hlast]
    rfl

/-- A printed operation is one line, without a comment. -/
theorem ne_of_mem_text {op : Op} (h : op.Spelled) {c : Char} (hc : c ∈ op.text.toList) :
    c ≠ '#' ∧ c ≠ '\n' := by
  have plain {w : List Char} (hw : isWord w) (hc : c ∈ w) : c ≠ '#' ∧ c ≠ '\n' := by
    have hplain := (isWord_iff.mp hw).2 c hc
    constructor <;> (intro heq; subst heq; exact absurd hplain (by decide))
  rw [op.text_eq, List.mem_append, List.mem_flatMap] at hc
  rcases hc with hc | ⟨a, ha, hc⟩
  · exact plain op.isWord_mnemonic hc
  · rcases List.mem_cons.mp hc with rfl | hc
    · decide
    · exact plain (Op.isWord_argument h a (Option.mem_toList.mp ha)) hc

/-- The span of an operation's line that starts at byte `start`, modulo 4 GiB. -/
def lineSpan (start : Nat) (op : Op) : Span := spanOf (mnemonicAt start op) (argumentsAt start op)

theorem readLine_text (start : Nat) {op : Op} (h : op.Spelled) :
    readLine start op.text.toList = some (.ok ⟨op, lineSpan start op⟩) := by
  have hargs : (argumentsAt start op).map (·.val) = op.argument?.toList := by
    simp [argumentsAt, Function.comp_def]
  have hop : readOp (mnemonicAt start op) (argumentsAt start op) = .ok op := by
    rw [readOp_eq_ok, hargs]
    exact spells_of_spelled h
  rw [readLine, Text.before_eq_self fun hc => (ne_of_mem_text h hc).1 rfl, words_text start h]
  simp only [hop]
  rfl

/-- The span of a line covers the printed operation. -/
theorem lineSpan_eq {start : Nat} {op : Op}
    (h : start + byteLength op.text.toList < 4294967296) :
    lineSpan start op = .ofBytes start (start + byteLength op.text.toList) := by
  rw [op.text_eq, Text.byteLength_append] at h ⊢
  rw [lineSpan, spanOf, mnemonicAt, argumentsAt]
  cases harg : op.argument? with
  | none =>
    simp only [harg, Option.toList_none, List.flatMap_nil, Text.byteLength] at h
    exact Span.merge_ofBytes (Nat.le_refl _) (Nat.le_refl _) (by omega) h
  | some a =>
    have hsize : byteLength ([a].flatMap fun a => ' ' :: a.toList) = 1 + byteLength a.toList := by
      simp [Text.byteLength, show ' '.utf8Size = 1 from rfl]
    simp only [harg, Option.toList_some, hsize] at h ⊢
    rw [← Nat.add_assoc, ← Nat.add_assoc] at h ⊢
    exact Span.merge_ofBytes (by omega) (by omega) (by omega) h

/-! ### Listings -/

theorem print_cons (op : Op) (ops : List Op) :
    print (op :: ops) = op.text ++ "\n" ++ print ops := by
  simp [print]

theorem print_append (ops more : List Op) : print (ops ++ more) = print ops ++ print more := by
  simp [print]

theorem toList_print_cons (op : Op) (ops : List Op) :
    (print (op :: ops)).toList = op.text.toList ++ '\n' :: (print ops).toList := by
  simp [print_cons]

theorem toList_print (ops : List Op) :
    (print ops).toList = (ops.map (·.text.toList)).flatMap (· ++ ['\n']) := by
  induction ops with
  | nil => rfl
  | cons op ops ih => simp [toList_print_cons, ih]

theorem pieces_print {ops : List Op} (h : ∀ op ∈ ops, op.Spelled) :
    Text.pieces '\n' (print ops).toList = ops.map (·.text.toList) ++ [[]] := by
  rw [toList_print]
  refine Text.pieces_lines (List.forall_mem_map.mpr fun op hop hmem => ?_)
  exact (ne_of_mem_text (h op hop) hmem).2 rfl

/-- The operations of a listing that starts at byte `start`, each with the span of its line. -/
def located (start : Nat) : List Op → List (Located Op)
  | [] => []
  | op :: ops => ⟨op, lineSpan start op⟩ :: located (start + byteLength op.text.toList + 1) ops

theorem map_val_located (start : Nat) (ops : List Op) : (located start ops).map (·.val) = ops := by
  induction ops generalizing start with
  | nil => rfl
  | cons op ops ih => rw [located, List.map_cons, ih]

theorem getElem?_located (start : Nat) (before : List Op) (op : Op) (after : List Op) :
    (located start (before ++ op :: after))[before.length]? =
      some ⟨op, lineSpan (start + byteLength (print before).toList) op⟩ := by
  induction before generalizing start with
  | nil => rfl
  | cons op' before ih =>
    have hstart : start + byteLength op'.text.toList + 1 + byteLength (print before).toList =
        start + byteLength (print (op' :: before)).toList := by
      have hnewline : '\n'.utf8Size = 1 := rfl
      rw [toList_print_cons, Text.byteLength_append, Text.byteLength, hnewline]
      omega
    rw [List.cons_append, located, List.length_cons, List.getElem?_cons_succ, ih, hstart]

theorem readLines_text (start : Nat) {ops : List Op} (h : ∀ op ∈ ops, op.Spelled) :
    readLines start (ops.map (·.text.toList) ++ [[]]) = (located start ops).map .ok := by
  induction ops generalizing start with
  | nil => rfl
  | cons op ops ih =>
    have hop := List.forall_mem_cons.mp h
    rw [List.map_cons, List.cons_append, readLines, readLine_text start hop.1, ih _ hop.2]
    rfl

/-- Reading a printed listing gives its operations, each with its line. -/
theorem read_eq_located {ops : List Op} (h : ∀ op ∈ ops, op.Spelled) :
    read (print ops) = .ok (located 0 ops) := by
  rw [read, gather_eq_ok, pieces_print h, readLines_text 0 h]

theorem read_spelled {source : String} {ops : List (Located Op)} (h : read source = .ok ops) :
    ∀ op ∈ ops.map (·.val), op.Spelled :=
  (read_denotes.mp ⟨ops, h, rfl⟩).spelled

/-- **Reading undoes printing.** A listing that is printed and read gives its operations back, and
the span of each is the bytes of its line without the line feed. The operations of any text that can
be read have names of the right form, so they can be printed and read again. -/
theorem read_print :
    (∀ ops : List Op, (∀ op ∈ ops, op.Spelled) → (print ops).utf8ByteSize < 4294967296 →
      ∃ located, read (print ops) = .ok located ∧ located.map (·.val) = ops ∧
        ∀ before op after, ops = before ++ op :: after → ∃ span,
          located[before.length]? = some ⟨op, span⟩ ∧
          span.start.toNat = (print before).utf8ByteSize ∧
          span.stop.toNat = (print before).utf8ByteSize + op.text.utf8ByteSize) ∧
    ∀ source ops, read source = .ok ops → (∀ x ∈ ops, x.val.Spelled) ∧
      ∃ again, read (print (ops.map (·.val))) = .ok again ∧
        again.map (·.val) = ops.map (·.val) := by
  constructor
  · intro ops h hsize
    refine ⟨located 0 ops, read_eq_located h, map_val_located 0 ops, ?_⟩
    intro before op after hops
    subst hops
    have hend : (print before).utf8ByteSize + op.text.utf8ByteSize < 4294967296 := by
      simp only [print_append, print_cons, String.utf8ByteSize_append] at hsize
      omega
    refine ⟨_, getElem?_located 0 before op after, ?_⟩
    rw [← Text.byteLength_toList, ← Text.byteLength_toList] at hend ⊢
    rw [Nat.zero_add, lineSpan_eq hend]
    have hfirst := Nat.lt_of_le_of_lt (Nat.le_add_right _ _) hend
    exact ⟨UInt32.toNat_ofNat_of_lt' hfirst, UInt32.toNat_ofNat_of_lt' hend⟩
  · intro source ops h
    have hspelled := read_spelled h
    exact ⟨fun x hx => hspelled x.val (List.mem_map_of_mem hx), located 0 _,
      read_eq_located hspelled, map_val_located 0 _⟩

def sampled : List Op := [.read, .const Int32.minValue, .load "a_1", .binary .le]

/-- A text with comments, blanks and a sign that printing leaves out. -/
def loose : String := "# sum\n  READ\t#one\n\nCONST +5\r\nST _x"

theorem sampled_read_print :
    (∃ located span, read (print sampled) = .ok located ∧ located.map (·.val) = sampled ∧
      located[2]? = some ⟨.load "a_1", span⟩ ∧ span.start.toNat = 23 ∧ span.stop.toNat = 29) ∧
    ∃ ops again, read loose = .ok ops ∧ read (print (ops.map (·.val))) = .ok again ∧
      ops.map (·.val) = [.read, .const 5, .store "_x"] ∧
      again.map (·.val) = ops.map (·.val) := by
  obtain ⟨located, hread, hops, hspans⟩ := read_print.1 sampled (by decide) (by decide)
  obtain ⟨span, hload, hstart, hstop⟩ :=
    hspans [.read, .const Int32.minValue] (.load "a_1") [.binary .le] rfl
  have hloose : read loose =
      .ok [⟨.read, ⟨8, 12⟩⟩, ⟨.const 5, ⟨19, 27⟩⟩, ⟨.store "_x", ⟨29, 34⟩⟩] := rfl
  obtain ⟨-, again, hagain, hvals⟩ := read_print.2 loose _ hloose
  exact ⟨⟨located, span, hread, hops, hload, hstart, hstop⟩, _, again, hloose, hagain, rfl, hvals⟩

end Listing

end StackBackend
