import StackBackend.Compile
import StackBackend.Proofs.StackCells
import StackBackend.Proofs.RoundTrip

/-! The text of a program, line by line.

The code of an operation is made of few things (`Lowers.emitted`): calls of the two routines, and
instructions whose operands are pending, globals, scratch registers or numbers. All of them have a
text, which is one line of words with a tab before each (`Instr.text_eq_ok`). So a program has a
text as soon as its frame can be reserved (`compile_eq_ok`), the lines of the text are the
instructions in their order (`pieces_assembled`), and those that the machine sees can be told from
the others by how they begin (`Instr.isCode_shown`). -/
namespace StackBackend

open Lowering (scratch)
open Text (isPlain isWord isWord_iff)

/-! ### The code of an operation -/

namespace Instr

/-- An instruction of an operation's code, with operands for which `P` holds. -/
def Emitted (P : Operand → Prop) : Instr → Prop
  | line _ => False
  | call x => x = "read" ∨ x = "write"
  | i => ∀ o ∈ i.operands, P o

theorem Emitted.not_line {P : Operand → Prop} {i : Instr} (h : i.Emitted P) : i.isLine = false := by
  cases i with
  | line t => exact h.elim
  | _ => rfl

end Instr

section Emitted

open Instr (Emitted)

variable {P : Operand → Prop} {p q last : Placement} {code body : List Instr}

namespace Lowering

variable {src dst : Operand}

theorem move_emitted (hscratch : ∀ r ∈ scratch, P (.reg r)) (hs : P src) (hd : P dst) :
    ∀ i ∈ move src dst, i.Emitted P := by
  have heax := hscratch .eax (by decide)
  unfold move
  split <;> simp [Emitted, Instr.operands, hs, hd, heax]

theorem operator_emitted (op : Operator) (hscratch : ∀ r ∈ scratch, P (.reg r))
    (hnumber : ∀ v, P (.imm v)) (hs : P src) (hd : P dst) :
    ∀ i ∈ operator op src dst, i.Emitted P := by
  have heax := hscratch .eax (by decide)
  have hedx := hscratch .edx (by decide)
  unfold operator
  split
  · unfold combine
    split <;> simp [Emitted, Instr.operands, hs, hd, hedx]
  · simp [logical, truth, clear, ByteReg.full, Emitted, Instr.operands, hnumber, hs, hd, heax, hedx]
  · unfold comparison combine
    split <;> simp [clear, Emitted, Instr.operands, hs, hd, heax, hedx]
  · unfold multiply
    split <;> simp [Emitted, Instr.operands, hs, hd, heax]
  · simp [divide, move, Emitted, Instr.operands, hs, hd, heax]
  · simp [divide, move, Emitted, Instr.operands, hs, hd, heax, hedx]

theorem around_emitted (hp : ∀ o ∈ p.pending, P o) (h : ∀ i ∈ code, i.Emitted P) :
    ∀ i ∈ around p code, i.Emitted P := by
  have hsaved : ∀ r ∈ saved p, P (.reg r) :=
    fun r hr => hp _ (Placement.mem_live.mp (List.mem_filter.mp hr).1)
  simp only [around, List.forall_mem_append, List.forall_mem_map, List.mem_reverse]
  refine ⟨⟨fun r hr => ?_, h⟩, fun r hr => ?_⟩
  · exact List.forall_mem_singleton.mpr (hsaved r hr)
  · exact List.forall_mem_singleton.mpr (hsaved r hr)

end Lowering

open Lowering

/-- Every location in the code of an operation is pending before the operation or after it, or is
the cell of the operation's global. -/
theorem Lowers.emitted {op : Op} (h : Lowers p op code q) (hscratch : ∀ r ∈ scratch, P (.reg r))
    (hnumber : ∀ v, P (.imm v)) (hglobal : ∀ x, op.global? = some x → P (.ofGlobal x))
    (hp : ∀ o ∈ p.pending, P o) (hq : ∀ o ∈ q.pending, P o) : ∀ i ∈ code, i.Emitted P := by
  have heax := hscratch .eax (by decide)
  cases h with
  | read ha _ =>
    obtain ⟨hdst, hrest⟩ := List.forall_mem_cons.mp hq
    refine List.forall_mem_append.mpr ⟨around_emitted hrest ?_, move_emitted hscratch heax hdst⟩
    exact List.forall_mem_singleton.mpr (.inl rfl)
  | write hpending _ =>
    rw [hpending] at hp
    refine around_emitted hq ?_
    simp [Emitted, Instr.operands, hp, heax]
  | const ha =>
    refine List.forall_mem_singleton.mpr ?_
    simp [Emitted, Instr.operands, hnumber, (List.forall_mem_cons.mp hq).1]
  | load ha => exact move_emitted hscratch (hglobal _ rfl) (List.forall_mem_cons.mp hq).1
  | store hpending =>
    rw [hpending] at hp
    exact move_emitted hscratch (List.forall_mem_cons.mp hp).1 (hglobal _ rfl)
  | binary hpending =>
    rw [hpending] at hp
    obtain ⟨hsrc, hrest⟩ := List.forall_mem_cons.mp hp
    exact operator_emitted _ hscratch hnumber hsrc (List.forall_mem_cons.mp hrest).1

/-- The code of a listing is the code of its operations and their headings. -/
theorem code_emitted {l : Lowering} {ops : List (Located Op)}
    (h : l.code p ops = .ok (body, last)) (hc : p.Canonical)
    (hscratch : ∀ r ∈ scratch, P (.reg r)) (hnumber : ∀ v, P (.imm v))
    (hglobal : ∀ op ∈ ops, ∀ x, op.val.global? = some x → P (.ofGlobal x))
    (hplace : ∀ q : Placement, q.Canonical → ∀ o ∈ q.pending, P o) :
    ∀ i ∈ body, i.Emitted P ∨ ∃ op ∈ ops, i ∈ l.heading op.val := by
  induction ops generalizing p body with
  | nil =>
    obtain ⟨rfl, -⟩ := code_nil_eq_ok.mp h
    simp
  | cons op ops ih =>
    obtain ⟨own, q, more, hl, hm, rfl⟩ := code_cons_eq_ok.mp h
    obtain ⟨hop, hops⟩ := List.forall_mem_cons.mp hglobal
    have hq := hl.canonical hc
    have hown := hl.emitted hscratch hnumber hop (hplace p hc) (hplace q hq)
    simp only [List.forall_mem_append]
    refine ⟨⟨fun i hi => ?_, fun i hi => .inl (hown i hi)⟩, fun i hi => ?_⟩
    · exact .inr ⟨op, List.mem_cons_self .., hi⟩
    · obtain hi | ⟨op', hop', hi⟩ := ih hm hq hops i hi
      · exact .inl hi
      · exact .inr ⟨op', List.mem_cons_of_mem _ hop', hi⟩

end Emitted

/-! ### Operands -/

theorem Reg.mem_table {r : Reg} (h : r.index < 8) : r ∈ table :=
  List.mem_of_getElem? (getElem?_table (UInt8.lt_iff_toNat_lt.mp h))

theorem Listing.IsIdentifier.append {v w : String} (hv : IsIdentifier v) (hw : IsIdentifier w) :
    IsIdentifier (v ++ w) := by
  obtain ⟨c, cs, hv, hc, hcs⟩ := hv
  obtain ⟨d, ds, hw, hd, hds⟩ := hw
  refine ⟨c, cs ++ d :: ds, by simp [hv, hw], hc, ?_⟩
  exact List.forall_mem_append.mpr ⟨hcs, List.forall_mem_cons.mpr ⟨.inl hd, hds⟩⟩

namespace Operand

/-- Whether the operand can be printed: its register has a name, or its cell a name of the form that
names have. -/
def printable : Operand → Bool
  | reg r => r.index < 8
  | mem x => Listing.isName x
  | slot _ | imm _ => true

/-- The text of an operand that can be printed. -/
def shown (o : Operand) : String := o.text.toOption.getD ""

variable {o : Operand}

theorem text_eq_ok (h : o.printable) : o.text = .ok o.shown := by
  cases o with
  | reg r =>
    have hnames : ∀ r ∈ Reg.table, (reg r).text.toOption.isSome := by decide
    have hsome := hnames r (Reg.mem_table (by simpa [printable] using h))
    cases htext : (reg r).text with
    | error f => simp [htext, Except.toOption] at hsome
    | ok t => simp [shown, htext, Except.toOption]
  | slot i => rfl
  | mem x => rfl
  | imm v => rfl

theorem toList_shown_slot (i : UInt32) : (slot i).shown.toList =
    '-' :: ((Text.Decimal.writeNat ((i.toNat + 1) * wordSize)).toList ++ "(%ebp)".toList) := by
  have hshown : (slot i).shown =
      "-" ++ Text.Decimal.writeNat ((i.toNat + 1) * wordSize) ++ "(%ebp)" := rfl
  simp [hshown]

theorem toList_shown_imm (v : Int32) :
    (imm v).shown.toList = '$' :: (Text.Decimal.writeInt v.toInt).toList := by
  have hshown : (imm v).shown = "$" ++ Text.Decimal.writeInt v.toInt := rfl
  simp [hshown]

theorem isWord_shown (h : o.printable) : isWord o.shown.toList := by
  cases o with
  | reg r =>
    have hnames : ∀ r ∈ Reg.table, isWord (reg r).shown.toList := by decide
    exact hnames r (Reg.mem_table (by simpa [printable] using h))
  | slot i =>
    have hsign : isWord ['-'] := by decide
    have hbase : isWord "(%ebp)".toList := by decide
    have hdigits := Text.Decimal.isWord_writeNat ((i.toNat + 1) * wordSize)
    rw [toList_shown_slot]
    exact Text.isWord_append hsign (Text.isWord_append hdigits hbase)
  | mem x => exact Listing.isWord_of_isIdentifier (Listing.isName_iff.mp h)
  | imm v =>
    have hmark : isWord ['$'] := by decide
    rw [toList_shown_imm]
    exact Text.isWord_append hmark (Text.Decimal.isWord_writeInt v.toInt)

theorem printable_ofGlobal {x : String} (h : Listing.IsIdentifier x) : (ofGlobal x).printable := by
  have hlabel : Listing.IsIdentifier "global_" := by decide
  exact Listing.isName_iff.mpr (hlabel.append h)

end Operand

theorem Placement.Canonical.printable {p : Placement} (hc : p.Canonical) {o : Operand}
    (ho : o ∈ p.pending) : o.printable := by
  have hwithin := hc.within ho
  cases o with
  | reg r =>
    have hindex := hc.index_lt r (Placement.mem_live.mpr ho)
    simpa [Operand.printable] using hindex
  | slot i => rfl
  | mem x => exact hwithin.elim
  | imm v => rfl

/-! ### Instructions -/

namespace Text

/-- A line with an instruction begins with a tab. A dot after it would make it a directive. -/
def isCode : List Char → Bool
  | '\t' :: '.' :: _ => false
  | '\t' :: _ => true
  | _ => false

theorem not_mem_of_isWord {w : List Char} (h : isWord w) {c : Char} (hc : isPlain c = false) :
    c ∉ w := by
  intro hmem
  exact Bool.false_ne_true (hc.symm.trans ((isWord_iff.mp h).2 c hmem))

end Text

namespace Instr

/-- Whether the instruction can be printed on one line that shows its kind. -/
def printable : Instr → Bool
  | line t => !t.toList.contains '\n' && !Text.isCode t.toList
  | call x => Listing.isName x
  | i => i.operands.all (·.printable)

/-- The words of an instruction. -/
def fields : Instr → List String
  | mov s d => ["movl", s.shown ++ ",", d.shown]
  | alu op s d => [op.mnemonic, s.shown ++ ",", d.shown]
  | idiv o => ["idivl", o.shown]
  | cltd => ["cltd"]
  | set c b => ["set" ++ c.suffix, b.name]
  | push o => ["pushl", o.shown]
  | pop o => ["popl", o.shown]
  | call x => ["call", x]
  | ret => ["ret"]
  | line _ => []

/-- The line of an instruction: a tab before each of its words. -/
def shown : Instr → List Char
  | line t => t.toList
  | i => i.fields.flatMap fun w => '\t' :: w.toList

variable {i : Instr}

theorem printable_of_mem_operands (h : i.printable) : ∀ o ∈ i.operands, o.printable := by
  cases i with
  | line t => simp [operands]
  | call x => simp [operands]
  | _ => exact List.all_eq_true.mp h

theorem text_eq_ok (h : i.printable) : i.text = .ok (String.ofList i.shown) := by
  have hok {t : String} {cs : List Char} (ht : t.toList = cs) :
      (.ok t : Except Fault String) = .ok (String.ofList cs) := by
    rw [← ht, String.ofList_toList]
  have htext := fun o ho => Operand.text_eq_ok (printable_of_mem_operands h o ho)
  cases i with
  | mov s d =>
    rw [text, htext s (by simp [operands]), htext d (by simp [operands])]
    exact hok (by simp [shown, fields])
  | alu op s d =>
    rw [text, htext s (by simp [operands]), htext d (by simp [operands])]
    exact hok (by simp [shown, fields])
  | idiv o =>
    rw [text, htext o (by simp [operands])]
    exact hok (by simp [shown, fields])
  | push o =>
    rw [text, htext o (by simp [operands])]
    exact hok (by simp [shown, fields])
  | pop o =>
    rw [text, htext o (by simp [operands])]
    exact hok (by simp [shown, fields])
  | cltd => rfl
  | ret => rfl
  | set c b => exact hok (by simp [shown, fields])
  | call x => exact hok (by simp [shown, fields])
  | line t => exact hok rfl

theorem isWord_of_mem_fields (h : i.printable) : ∀ w ∈ i.fields, isWord w.toList := by
  have hword := fun o ho => Operand.isWord_shown (printable_of_mem_operands h o ho)
  have hone (o : Operand) (ho : o ∈ i.operands) : ∀ w ∈ [o.shown], isWord w.toList :=
    List.forall_mem_singleton.mpr (hword o ho)
  have hcomma : isWord ",".toList := by decide
  have hboth {s d : Operand} (hs : isWord s.shown.toList) (hd : isWord d.shown.toList) :
      ∀ w ∈ [s.shown ++ ",", d.shown], isWord w.toList := by
    refine List.forall_mem_cons.mpr ⟨?_, List.forall_mem_singleton.mpr hd⟩
    rw [String.toList_append]
    exact Text.isWord_append hs hcomma
  cases i with
  | mov s d =>
    have hs := hword s (by simp [operands])
    exact List.forall_mem_cons.mpr ⟨by decide, hboth hs (hword d (by simp [operands]))⟩
  | alu op s d =>
    have hs := hword s (by simp [operands])
    refine List.forall_mem_cons.mpr ⟨?_, hboth hs (hword d (by simp [operands]))⟩
    cases op <;> decide
  | idiv o => exact List.forall_mem_cons.mpr ⟨by decide, hone o (by simp [operands])⟩
  | push o => exact List.forall_mem_cons.mpr ⟨by decide, hone o (by simp [operands])⟩
  | pop o => exact List.forall_mem_cons.mpr ⟨by decide, hone o (by simp [operands])⟩
  | cltd => decide
  | ret => decide
  | set c b => cases c <;> cases b <;> decide
  | call x =>
    have hx := Listing.isWord_of_isIdentifier (Listing.isName_iff.mp h)
    exact List.forall_mem_cons.mpr ⟨by decide, List.forall_mem_singleton.mpr hx⟩
  | line t => simp [fields]

theorem newline_not_mem_shown (h : i.printable) : '\n' ∉ i.shown := by
  have hfields : '\n' ∉ i.fields.flatMap fun w => '\t' :: w.toList := by
    intro hmem
    obtain ⟨w, hw, hmem⟩ := List.mem_flatMap.mp hmem
    have hword := isWord_of_mem_fields h w hw
    have hne := Text.not_mem_of_isWord hword (by decide : isPlain '\n' = false)
    simp [hne] at hmem
  cases i with
  | line t => simpa [shown] using (Bool.and_eq_true_iff.mp h).1
  | _ => exact hfields

/-- The lines that the machine sees are told from the others by their first characters. -/
theorem isCode_shown (h : i.printable) : Text.isCode i.shown = !i.isLine := by
  cases i with
  | line t => simpa [shown, isLine] using (Bool.and_eq_true_iff.mp h).2
  | alu op s d => cases op <;> simp [shown, fields, Alu.mnemonic, Text.isCode, isLine]
  | _ => simp [shown, fields, Text.isCode, isLine]

/-- The text of some instructions, each on its own line. -/
def lines (code : List Instr) : List Char := code.flatMap fun i => i.shown ++ ['\n']

theorem render_eq_ok {code : List Instr} (h : ∀ i ∈ code, i.printable) :
    render code = .ok (String.ofList (lines code)) := by
  induction code with
  | nil => rfl
  | cons i code ih =>
    obtain ⟨hi, hcode⟩ := List.forall_mem_cons.mp h
    rw [render, text_eq_ok hi, ih hcode]
    refine congrArg Except.ok ?_
    rw [← String.toList_inj]
    simp [lines]

theorem pieces_lines {code : List Instr} (h : ∀ i ∈ code, i.printable) :
    Text.pieces '\n' (lines code) = code.map shown ++ [[]] := by
  have hlines : ∀ l ∈ code.map shown, '\n' ∉ l :=
    List.forall_mem_map.mpr fun i hi => newline_not_mem_shown (h i hi)
  rw [lines, ← Text.pieces_lines hlines, List.flatMap_map]

theorem Emitted.printable (h : i.Emitted (·.printable)) : i.printable := by
  cases i with
  | line t => exact h.elim
  | call x => obtain rfl | rfl := h <;> decide
  | _ => exact List.all_eq_true.mpr h

end Instr

/-! ### Programs -/

section Code

variable {l : Lowering} {p last : Placement} {ops : List (Located Op)} {body : List Instr}

theorem heading_printable {op : Op} (h : op.Spelled) : ∀ i ∈ l.heading op, i.printable := by
  have hline : '\n' ∉ op.text.toList := fun hmem => (Listing.ne_of_mem_text h hmem).2 rfl
  unfold Lowering.heading
  split <;> simp [Instr.printable, Text.isCode, hline]

theorem code_printable (h : l.code p ops = .ok (body, last)) (hc : p.Canonical)
    (hops : ∀ op ∈ ops.map (·.val), op.Spelled) : ∀ i ∈ body, i.printable := by
  have hspelled := List.forall_mem_map.mp hops
  have hemitted := code_emitted (P := fun o => o.printable = true) h hc (by decide) (fun _ => rfl)
    (fun op hop x hx => Operand.printable_ofGlobal (hspelled op hop x hx))
    fun q hq o ho => hq.printable ho
  intro i hi
  obtain hi | ⟨op, hop, hi⟩ := hemitted i hi
  · exact hi.printable
  · exact heading_printable (hspelled op hop) i hi

end Code

namespace Program

variable {p : Program} {reserved : List Instr}

theorem listed_printable (hreserve : p.reserve = .ok reserved)
    (hglobals : ∀ x ∈ p.globals, Listing.IsIdentifier x) (hsaved : ∀ r ∈ p.calleeSaved, r.index < 8)
    (hbody : ∀ i ∈ p.body, i.printable) : ∀ i ∈ p.listed reserved, i.printable := by
  refine forall_mem_listed hreserve (by decide) ?_ (fun _ => rfl) ?_ hbody
  · intro x hx
    have hword := Listing.isWord_of_isIdentifier (hglobals x hx)
    have hline := Text.not_mem_of_isWord hword (by decide : isPlain '\n' = false)
    simp [cell, Instr.printable, Text.isCode, hline]
  · intro r hr
    simp [Instr.printable, Instr.operands, Operand.printable, hsaved r hr]

end Program

/-! ### Listings -/

namespace Compiled

/-- What becomes of a listing, given the instructions that reserve the frame. -/
def assembled (r : Lowered) (reserved : List Instr) : Compiled :=
  let code := (Program.ofLowered r).listed reserved
  ⟨.ofLowered r, String.ofList (Instr.lines code), r.warnings, (code.filter (!·.isLine)).length⟩

end Compiled

section Lowered

variable {l : Lowering} {ops : List (Located Op)} {r : Lowered}

theorem globals_spelled (hops : ∀ op ∈ ops.map (·.val), op.Spelled) (h : l.lower ops = .ok r) :
    ∀ x ∈ r.placement.globals, Listing.IsIdentifier x := by
  intro x hx
  have hcode := (Lowering.lower_eq_ok_iff.mp h).1
  obtain hx | ⟨op, hop, hx⟩ := (Lowering.mem_code_globals hcode).mp hx
  · cases hx
  · exact hops op.val (List.mem_map_of_mem hop) x hx

theorem lowered_printable (hops : ∀ op ∈ ops.map (·.val), op.Spelled) (h : l.lower ops = .ok r)
    {reserved : List Instr} (hreserve : (Program.ofLowered r).reserve = .ok reserved) :
    ∀ i ∈ (Program.ofLowered r).listed reserved, i.printable := by
  refine Program.listed_printable hreserve (globals_spelled hops h) ?_ ?_
  · exact fun x hx => Program.index_lt_of_mem_calleeSaved hx
  · exact code_printable (Lowering.lower_eq_ok_iff.mp h).1 (Placement.canonical_empty _) hops

theorem ofLowered_eq (hops : ∀ op ∈ ops.map (·.val), op.Spelled) (h : l.lower ops = .ok r) :
    Compiled.ofLowered r = (Program.ofLowered r).reserve.map (.assembled r) := by
  rw [Compiled.ofLowered, Program.assembly, Program.instructions_eq]
  cases hreserve : (Program.ofLowered r).reserve with
  | error f => rfl
  | ok reserved =>
    have hrender := Instr.render_eq_ok (lowered_printable hops h hreserve)
    simp only [Except.map, bind, Except.bind, hrender]
    rfl

variable {reserved : List Instr}

/-- The lines of the text are the instructions in their order. -/
theorem pieces_assembled (hops : ∀ op ∈ ops.map (·.val), op.Spelled) (h : l.lower ops = .ok r)
    (hreserve : (Program.ofLowered r).reserve = .ok reserved) :
    Text.pieces '\n' (Compiled.assembled r reserved).assembly.toList =
      ((Program.ofLowered r).listed reserved).map Instr.shown ++ [[]] := by
  have htext : (Compiled.assembled r reserved).assembly.toList =
      Instr.lines ((Program.ofLowered r).listed reserved) := String.toList_ofList
  rw [htext, Instr.pieces_lines (lowered_printable hops h hreserve)]

end Lowered

namespace Options

variable {o : Options} {source : String}

theorem lower_eq_ok {r : Lowered} : o.lower source = .ok r ↔
    ∃ ops, Listing.read source = .ok ops ∧ o.lowering.lower ops = .ok r := by
  simp only [lower, bind_eq_ok, mapError_eq_ok]

theorem compile_of_read {errors : List (Located Listing.Error)}
    (hread : Listing.read source = .error errors) :
    o.compile source = .error (.listing errors) := by
  rw [compile, lower, hread]
  rfl

theorem compile_of_lower {ops : List (Located Op)} {failure : Lowering.Failure}
    (hread : Listing.read source = .ok ops) (hlower : o.lowering.lower ops = .error failure) :
    o.compile source = .error (.lowering failure) := by
  have hr : o.lower source = (o.lowering.lower ops).mapError .lowering := by
    rw [lower, hread]
    rfl
  rw [compile, hr, hlower]
  rfl

/-- Once there is code for the operations, only the frame can be too large. -/
theorem compile_eq {ops : List (Located Op)} {r : Lowered} (hread : Listing.read source = .ok ops)
    (hlower : o.lowering.lower ops = .ok r) :
    o.compile source = ((Program.ofLowered r).reserve.map (.assembled r)).mapError .program := by
  have hr := lower_eq_ok.mpr ⟨ops, hread, hlower⟩
  rw [compile, hr, ← ofLowered_eq (Listing.read_spelled hread) hlower]
  rfl

theorem compile_eq_ok {c : Compiled} : o.compile source = .ok c ↔
    ∃ ops r reserved, Listing.read source = .ok ops ∧ o.lowering.lower ops = .ok r ∧
      (Program.ofLowered r).reserve = .ok reserved ∧ .assembled r reserved = c := by
  constructor
  · intro h
    obtain ⟨r, hr, -⟩ := bind_eq_ok.mp h
    obtain ⟨ops, hread, hlower⟩ := lower_eq_ok.mp hr
    rw [compile_eq hread hlower, mapError_eq_ok, map_eq_ok] at h
    obtain ⟨reserved, hreserve, hc⟩ := h
    exact ⟨ops, r, reserved, hread, hlower, hreserve, hc⟩
  · intro h
    obtain ⟨ops, r, reserved, hread, hlower, hreserve, hc⟩ := h
    rw [compile_eq hread hlower, mapError_eq_ok, map_eq_ok]
    exact ⟨reserved, hreserve, hc⟩

end Options

end StackBackend
