import StackBackend.Proofs.AssemblyText

/-! The text of a program determines the program.

Text is read back in the steps in which it was written: an operand from its word (`ofText_shown`),
an instruction from its words (`ofFields_fields`), the instructions from the lines of the text
(`mapM_ofLine`), and a program from its instructions (`ofInstructions_listed`). The last step needs
marks between the parts: the cells of the globals end where the text section begins, one instruction
reserves the frame, registers are saved by pushes, and no code begins with a push while no value is
pending (`code_starts`). Hence the program of a listing is found again in its text
(`ofAssembly_compile`), and two listings with the same text have the same program
(`assembly_determines_program`). -/
namespace StackBackend

/-! ### Operands -/

namespace Operand

/-- The operand that a text stands for. -/
def ofText (text : String) : Option Operand :=
  match text.toList with
  | '%' :: _ => (Reg.table.find? fun r => (reg r).shown = text).map reg
  | '-' :: cs =>
    (Text.Decimal.readDigits (cs.takeWhile Char.isDigit)).map fun n =>
      slot (.ofNat (n / wordSize - 1))
  | '$' :: cs => (Text.Decimal.readInt32 cs).map imm
  | _ => some (mem text)

theorem ofText_shown {o : Operand} (h : o.printable) : ofText o.shown = some o := by
  cases o with
  | reg r =>
    have hnames : ∀ r ∈ Reg.table, ofText (reg r).shown = some (reg r) := by decide
    exact hnames r (Reg.mem_table (by simpa [printable] using h))
  | slot i =>
    have hdigits : ∀ c ∈ Nat.toDigits 10 ((i.toNat + 1) * wordSize), c.isDigit = true :=
      fun c hc => Nat.isDigit_of_mem_toDigits (by decide) (by decide) hc
    have hnumber : (Nat.toDigits 10 ((i.toNat + 1) * wordSize) ++ "(%ebp)".toList).takeWhile
        Char.isDigit = Nat.toDigits 10 ((i.toNat + 1) * wordSize) := by
      rw [List.takeWhile_append_of_pos hdigits]
      simp
    have hindex : (i.toNat + 1) * wordSize / wordSize - 1 = i.toNat := by
      rw [Nat.mul_div_cancel _ (by decide)]
      rfl
    rw [ofText, toList_shown_slot]
    simp only [Text.Decimal.writeNat, String.toList_ofList, hnumber,
      Text.Decimal.readDigits_toDigits, Option.map_some, hindex, UInt32.ofNat_toNat]
  | mem x =>
    obtain ⟨c, cs, hx, hc, -⟩ := Listing.isName_iff.mp h
    have hshown : (mem x).shown = x := rfl
    -- A name begins with none of the characters that mark the other operands.
    have hpercent : ¬ Listing.IsLetter '%' := by decide
    have hminus : ¬ Listing.IsLetter '-' := by decide
    have hdollar : ¬ Listing.IsLetter '$' := by decide
    rw [hshown, ofText, hx]
    split
    next heq =>
      cases heq
      exact absurd hc hpercent
    next heq =>
      cases heq
      exact absurd hc hminus
    next heq =>
      cases heq
      exact absurd hc hdollar
    next => rfl
  | imm v =>
    rw [ofText, toList_shown_imm]
    simp only [Text.Decimal.readInt32_writeInt, Option.map_some]

end Operand

/-! ### Instructions -/

namespace Instr

/-- The instructions with two operands, by their first words. -/
def pairs : List (String × (Operand → Operand → Instr)) :=
  ("movl", mov) ::
    [Alu.add, .sub, .mul, .and, .or, .xor, .cmp].map fun op => (op.mnemonic, alu op)

/-- The instructions with one operand. -/
def singles : List (String × (Operand → Instr)) := [("idivl", idiv), ("pushl", push), ("popl", pop)]

/-- The instructions without operands, except calls. -/
def constants : List Instr :=
  [cltd, ret] ++ [Cond.less, .lessEq, .equal, .notEqual, .greaterEq, .greater].flatMap fun c =>
    [set c .al, set c .dl]

/-- The instruction that some words stand for. The comma between two operands belongs to the first
one's word. -/
def ofFields (words : List String) : Option Instr :=
  match words with
  | [m, o] =>
    match singles.lookup m with
    | some make => (Operand.ofText o).map make
    | none => if m = "call" then some (call o) else constants.find? (·.fields = words)
  | [m, s, d] => do
    let make ← pairs.lookup m
    let src ← Operand.ofText (String.ofList s.toList.dropLast)
    return make src (← Operand.ofText d)
  | _ => constants.find? (·.fields = words)

theorem ofFields_single {m : String} {make : Operand → Instr}
    (hmake : singles.lookup m = some make) {o : Operand} (ho : o.printable) :
    ofFields [m, o.shown] = some (make o) := by
  simp [ofFields, hmake, Operand.ofText_shown ho]

theorem ofFields_pair {m : String} {make : Operand → Operand → Instr}
    (hmake : pairs.lookup m = some make) {s d : Operand} (hs : s.printable) (hd : d.printable) :
    ofFields [m, s.shown ++ ",", d.shown] = some (make s d) := by
  simp [ofFields, hmake, Operand.ofText_shown hs, Operand.ofText_shown hd]

theorem ofFields_fields {i : Instr} (h : i.printable) (hline : i.isLine = false) :
    ofFields i.fields = some i := by
  have hoperand := printable_of_mem_operands h
  cases i with
  | mov s d =>
    exact ofFields_pair rfl (hoperand s (by simp [operands])) (hoperand d (by simp [operands]))
  | alu op s d =>
    have hop : pairs.lookup op.mnemonic = some (alu op) := by
      cases op <;> rfl
    exact ofFields_pair hop (hoperand s (by simp [operands])) (hoperand d (by simp [operands]))
  | idiv o => exact ofFields_single rfl (hoperand o (by simp [operands]))
  | push o => exact ofFields_single rfl (hoperand o (by simp [operands]))
  | pop o => exact ofFields_single rfl (hoperand o (by simp [operands]))
  | cltd => rfl
  | ret => rfl
  | set c b =>
    have hsets : ∀ i ∈ constants, ofFields i.fields = some i := by decide
    exact hsets _ (by cases c <;> cases b <;> decide)
  | call x => rfl
  | line t => cases hline

/-- The instruction that a line stands for. -/
def ofLine (line : List Char) : Option Instr :=
  if Text.isCode line then ofFields ((Text.pieces '\t' line).tail.map String.ofList)
  else some (.line (String.ofList line))

theorem ofLine_shown {i : Instr} (h : i.printable) : ofLine i.shown = some i := by
  have htabs : ∀ w ∈ i.fields.map String.toList, '\t' ∉ w :=
    List.forall_mem_map.mpr fun w hw =>
      Text.not_mem_of_isWord (isWord_of_mem_fields h w hw) (by decide)
  rw [ofLine, isCode_shown h]
  cases hline : i.isLine with
  | true =>
    cases i with
    | line t => simp [shown]
    | _ => cases hline
  | false =>
    have hshown : i.shown = (i.fields.map String.toList).flatMap ('\t' :: ·) := by
      rw [List.flatMap_map]
      cases i with
      | line t => cases hline
      | _ => rfl
    rw [hshown, ← List.nil_append (List.flatMap ..), Text.pieces_words List.not_mem_nil htabs]
    simpa [Function.comp_def] using ofFields_fields h hline

theorem mapM_ofLine {code : List Instr} (h : ∀ i ∈ code, i.printable) :
    (code.map shown).mapM ofLine = some code := by
  induction code with
  | nil => rfl
  | cons i code ih =>
    obtain ⟨hi, hcode⟩ := List.forall_mem_cons.mp h
    simp [ofLine_shown hi, ih hcode]

end Instr

/-! ### Programs -/

/-- A list falls apart where a property ends that all of the first part has. -/
theorem span_append {α : Type} {P : α → Bool} {a b : List α} (ha : ∀ x ∈ a, P x)
    (hb : ∀ x ∈ b.head?, P x = false) :
    (a ++ b).takeWhile P = a ∧ (a ++ b).dropWhile P = b := by
  rw [List.takeWhile_append_of_pos ha, List.dropWhile_append_of_pos ha]
  cases b with
  | nil => simp
  | cons x b => simp [hb x rfl]

namespace Program

/-- The global whose cell a line defines. -/
def ofCell : Instr → String
  -- Labels begin with `global_`.
  | .line t => String.ofList (Text.before ':' (t.toList.drop 7))
  | _ => ""

/-- Whether an instruction reserves a frame. -/
def isReserve : Instr → Bool
  | .alu .sub (.imm _) d => d = Reg.esp
  | _ => false

/-- The slots of the frame that is reserved. -/
def ofReserved : List Instr → UInt32
  | [.alu _ (.imm bytes) _] => (Int32.ofInt (bytes.toInt / Operand.wordSize)).toUInt32
  | _ => 0

/-- The register that an instruction saves. -/
def pushed? : Instr → Option Reg
  | .push (.reg r) => some r
  | _ => none

/-- The program with some instructions: its parts are told apart by how they begin. -/
def ofInstructions (code : List Instr) : Program :=
  let cells := (code.drop 2).takeWhile (· ≠ .line "\t.text")
  let entered := ((code.drop 2).dropWhile (· ≠ .line "\t.text")).drop 4
  let reserved := entered.takeWhile isReserve
  let sheltered := entered.dropWhile isReserve
  let pushes := sheltered.takeWhile (·.isPush)
  let rest := sheltered.dropWhile (·.isPush)
  ⟨cells.map ofCell, ofReserved reserved, pushes.filterMap pushed?,
    rest.take (rest.length - (pushes.length + closing.length))⟩

/-- The program with some text. -/
def ofAssembly (text : String) : Option Program :=
  ((Text.pieces '\n' text.toList).dropLast.mapM Instr.ofLine).map ofInstructions

theorem ofCell_cell {x : String} (h : Listing.IsIdentifier x) : ofCell (cell x) = x := by
  obtain ⟨c, cs, hx, hc, hcs⟩ := h
  have hcolon : ¬ (Listing.IsLetter ':' ∨ ('0' ≤ ':' ∧ ':' ≤ '9')) := by decide
  have hname : ∀ d ∈ x.toList, (d ≠ ':' : Bool) := by
    rw [hx]
    intro d hd
    refine decide_eq_true fun he => hcolon ?_
    rw [← he]
    obtain rfl | hd := List.mem_cons.mp hd
    · exact .inl hc
    · exact hcs d hd
  have hcell : ofCell (cell x) =
      String.ofList (Text.before ':' (x.toList ++ ":\t.int\t0".toList)) := by simp [ofCell, cell]
  rw [hcell, Text.before, List.takeWhile_append_of_pos hname]
  simp

theorem map_ofCell {xs : List String} (h : ∀ x ∈ xs, Listing.IsIdentifier x) :
    (xs.map cell).map ofCell = xs := by
  rw [List.map_map]
  exact (List.map_congr_left fun x hx => ofCell_cell (h x hx)).trans (List.map_id _)

theorem cell_ne_text (x : String) : cell x ≠ .line "\t.text" := by
  intro he
  have htext := congrArg String.toList (Instr.line.inj he)
  simp at htext

variable {p : Program} {reserved : List Instr}

theorem ofReserved_eq (h : p.reserve = .ok reserved) : ofReserved reserved = p.frame := by
  obtain ⟨hframe, rfl⟩ | ⟨-, bytes, hbytes, rfl⟩ := reserve_eq_ok_iff.mp h
  · exact hframe.symm
  · simp only [frameBytes] at hbytes
    split at hbytes
    next hrange =>
      cases hbytes
      have hslots : p.frame.toInt32.toInt * Operand.wordSize / Operand.wordSize =
          p.frame.toInt32.toInt := Int.mul_ediv_cancel _ (by decide)
      rw [ofReserved, Int32.toInt_ofInt_of_le hrange.1 (by omega), hslots, Int32.ofInt_toInt]
      rfl
    next => cases hbytes

theorem isReserve_of_mem (h : p.reserve = .ok reserved) : ∀ i ∈ reserved, isReserve i := by
  obtain ⟨-, rfl⟩ | ⟨-, bytes, -, rfl⟩ := reserve_eq_ok_iff.mp h
  · simp
  · exact List.forall_mem_singleton.mpr rfl

/-- Instructions give their program back if the body does not begin like what stands before it. -/
theorem ofInstructions_listed (hreserve : p.reserve = .ok reserved)
    (hglobals : ∀ x ∈ p.globals, Listing.IsIdentifier x)
    (hstart : ∀ i ∈ p.body.head?, i.isPush = false ∧ isReserve i = false) :
    ofInstructions (p.listed reserved) = p := by
  let pushes : List Instr := p.calleeSaved.map fun r => .push (.reg r)
  let pops : List Instr := p.calleeSaved.reverse.map fun r => .pop (.reg r)
  let rest := p.body ++ (pops ++ closing)
  let text := .line "\t.text" :: .line (entry ++ ":") :: .push Reg.ebp :: .mov Reg.esp Reg.ebp ::
    (reserved ++ (pushes ++ rest))
  have hlisted : (p.listed reserved).drop 2 = p.globals.map cell ++ text := by
    simp [listed, opening, data, sheltered, text, rest, pushes, pops]
  -- An empty body is followed by pops, or by the end of the procedure.
  have hrest : ∀ i ∈ rest.head?, i.isPush = false ∧ isReserve i = false := by
    simp only [rest, pops]
    cases hbody : p.body with
    | cons i body => simpa [hbody] using hstart
    | nil => cases p.calleeSaved.reverse <;> simp [closing, Instr.isPush, isReserve]
  have hsheltered : ∀ i ∈ (pushes ++ rest).head?, isReserve i = false := by
    simp only [pushes]
    cases p.calleeSaved with
    | cons r rs => simp [isReserve]
    | nil => exact fun i hi => (hrest i hi).2
  have hcell : ∀ i ∈ p.globals.map cell, (i ≠ .line "\t.text" : Bool) :=
    List.forall_mem_map.mpr fun x _ => decide_eq_true (cell_ne_text x)
  obtain ⟨hcells, htext⟩ := span_append hcell (b := text) (by simp [text])
  obtain ⟨hreserved, hentered⟩ := span_append (isReserve_of_mem hreserve) hsheltered
  have hpush : ∀ i ∈ pushes, i.isPush := List.forall_mem_map.mpr fun _ _ => rfl
  obtain ⟨hpushes, hbody⟩ := span_append hpush fun i hi => (hrest i hi).1
  have hsaved : pushes.filterMap pushed? = p.calleeSaved := by
    rw [List.filterMap_map]
    exact List.filterMap_some
  have htake : rest.take (rest.length - (pushes.length + closing.length)) = p.body := by
    have hlength : rest.length - (pushes.length + closing.length) = p.body.length := by
      simp [rest, pushes, pops]
    rw [hlength]
    exact List.take_left
  simp only [ofInstructions, hlisted, hcells, htext, map_ofCell hglobals]
  simp only [text, List.drop_succ_cons, List.drop_zero, hreserved, hentered, hpushes, hbody, hsaved,
    htake, ofReserved_eq hreserve]

end Program

/-! ### Listings -/

/-- While no value is pending, no register is saved around a call. -/
theorem Lowers.starts {p q : Placement} {op : Op} {code : List Instr} (h : Lowers p op code q)
    (hp : p.pending = []) :
    ∃ i more, code = i :: more ∧ i.isPush = false ∧ Program.isReserve i = false := by
  have hmove (src dst : Operand) : ∃ i more, Lowering.move src dst = i :: more ∧ i.isPush = false ∧
      Program.isReserve i = false := by
    unfold Lowering.move
    split <;> exact ⟨_, _, rfl, rfl, rfl⟩
  cases h with
  | @read dst q ha _ =>
    have hsaved : Lowering.saved q = [] := by
      simp [Lowering.saved, Placement.live, Placement.stack, (Placement.allocate_grown ha).pending,
        hp]
    rw [Lowering.around, hsaved]
    exact ⟨_, _, rfl, rfl, rfl⟩
  | write hpending _ => simp [hp] at hpending
  | const ha => exact ⟨_, _, rfl, rfl, rfl⟩
  | load ha => exact hmove _ _
  | store hpending => simp [hp] at hpending
  | binary hpending => simp [hp] at hpending

theorem code_starts {l : Lowering} {p last : Placement} {ops : List (Located Op)}
    {body : List Instr} (h : l.code p ops = .ok (body, last)) (hp : p.pending = []) :
    ∀ i ∈ body.head?, i.isPush = false ∧ Program.isReserve i = false := by
  cases ops with
  | nil =>
    obtain ⟨rfl, -⟩ := Lowering.code_nil_eq_ok.mp h
    simp
  | cons op ops =>
    obtain ⟨own, q, more, hl, -, rfl⟩ := Lowering.code_cons_eq_ok.mp h
    obtain ⟨i, rest, rfl, hi⟩ := hl.starts hp
    unfold Lowering.heading
    split
    · simp [Instr.isPush, Program.isReserve]
    · simpa using hi

/-- The text of a compiled listing is enough to find its program again. -/
theorem ofAssembly_compile {o : Options} {source : String} {c : Compiled}
    (h : o.compile source = .ok c) : Program.ofAssembly c.assembly = some c.program := by
  obtain ⟨ops, r, reserved, hread, hlower, hreserve, rfl⟩ := Options.compile_eq_ok.mp h
  have hspelled := Listing.read_spelled hread
  have hcode := (Lowering.lower_eq_ok_iff.mp hlower).1
  have hprintable := lowered_printable hspelled hlower hreserve
  rw [Program.ofAssembly, pieces_assembled hspelled hlower hreserve, List.dropLast_concat,
    Instr.mapM_ofLine hprintable]
  exact congrArg some (Program.ofInstructions_listed hreserve (globals_spelled hspelled hlower)
    (code_starts hcode rfl))

/-- **The text of a program determines the program.** Whatever the two listings are and however they
were compiled, if their texts are equal then so are their globals, their frames, the registers that
they save and the instructions of their bodies. -/
theorem assembly_determines_program (o o' : Options) (source source' : String) (c c' : Compiled)
    (h : o.compile source = .ok c) (h' : o'.compile source' = .ok c')
    (heq : c.assembly = c'.assembly) :
    c.program.globals = c'.program.globals ∧ c.program.frame = c'.program.frame ∧
      c.program.calleeSaved = c'.program.calleeSaved ∧ c.program.body = c'.program.body := by
  have hsome : some c.program = some c'.program := by
    rw [← ofAssembly_compile h, ← ofAssembly_compile h', heq]
  rw [Option.some.inj hsome]
  exact ⟨rfl, rfl, rfl, rfl⟩

/-- The code of a listing that stores a number. -/
def storing (registers : UInt8) : Lowered where
  body := [.mov (.imm 7) Reg.ebx, .mov Reg.ebx (.ofGlobal "g")]
  placement := ⟨[], 0, ["g"], registers⟩
  warnings := []

theorem storing_determined : ∃ c c' : Compiled,
    (⟨1, false⟩ : Options).compile "CONST 7\nST g\n" = .ok c ∧
    (⟨2, false⟩ : Options).compile " CONST +7 # seven\nST g" = .ok c' ∧
    c.assembly = c'.assembly ∧ c.program.globals = c'.program.globals ∧
    c.program.frame = c'.program.frame ∧ c.program.calleeSaved = c'.program.calleeSaved ∧
    c.program.body = c'.program.body := by
  have h : (⟨1, false⟩ : Options).compile "CONST 7\nST g\n" = .ok (.assembled (storing 1) []) :=
    Options.compile_eq_ok.mpr ⟨_, _, _, rfl, Lowering.lower_of_code rfl, rfl, rfl⟩
  have h' : (⟨2, false⟩ : Options).compile " CONST +7 # seven\nST g" =
      .ok (.assembled (storing 2) []) :=
    Options.compile_eq_ok.mpr ⟨_, _, _, rfl, Lowering.lower_of_code rfl, rfl, rfl⟩
  have hsame : (Compiled.assembled (storing 1) []).assembly =
      (Compiled.assembled (storing 2) []).assembly := rfl
  exact ⟨_, _, h, h', hsame, assembly_determines_program _ _ _ _ _ _ h h' hsame⟩

end StackBackend
