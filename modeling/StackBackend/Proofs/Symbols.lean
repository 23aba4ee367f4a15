import StackBackend.Proofs.AssemblyText
import StackBackend.Proofs.Effects

/-! The symbols of a program.

A global gets its cell when it is first named, so the globals of a program are the names in its
listing, each at its first mention (`code_globals`). In the text a symbol is defined by a line with
a colon, and such lines are few: code has no colon in it (`Instr.colon_not_mem_shown`), nor do
comments (`Op.colon_not_mem_text`), so what is left are the cells and the entry
(`labels_assembled`). The operands in memory are cells of globals and the routines that are called
are the two of the runtime (`listed_uses`). `symbols_defined` puts this together: every symbol that
a program uses is defined once, or belongs to the runtime. -/
namespace StackBackend

/-! ### Names -/

section Globals

variable {names : List String} {l : Lowering} {p last : Placement} {ops : List (Located Op)}
  {body : List Instr}

open Placement (noted)

/-- A name is noted at its first mention only. -/
theorem noted_eraseDups (names : List String) (x? : Option String) :
    noted names.eraseDups x? = (names ++ x?.toList).eraseDups := by
  cases x? with
  | none => simp [noted]
  | some x =>
    by_cases hx : x ∈ names
    · simp [noted, List.eraseDups_append, List.removeAll, List.mem_eraseDups, hx]
    · simp [noted, List.eraseDups_append, List.removeAll, List.mem_eraseDups, hx,
        List.eraseDups_cons]

theorem nodup_noted (h : names.Nodup) (x? : Option String) : (noted names x?).Nodup := by
  cases x? with
  | none => exact h
  | some x =>
    by_cases hx : x ∈ names
    · simpa [noted, hx] using h
    · have hne : ∀ a ∈ names, a ≠ x := fun a ha he => hx (he ▸ ha)
      simpa [noted, hx, List.nodup_append, h] using hne

theorem code_globals (h : l.code p ops = .ok (body, last)) (hp : p.globals = names.eraseDups) :
    last.globals = (names ++ ops.filterMap (·.val.global?)).eraseDups := by
  induction ops generalizing p body names with
  | nil =>
    obtain ⟨-, rfl⟩ := Lowering.code_nil_eq_ok.mp h
    simpa using hp
  | cons op ops ih =>
    obtain ⟨own, q, more, hl, hm, -⟩ := Lowering.code_cons_eq_ok.mp h
    have hq : q.globals = (names ++ op.val.global?.toList).eraseDups := by
      rw [hl.globals_eq, hp, noted_eraseDups]
    have hsplit : (op :: ops).filterMap (·.val.global?) =
        op.val.global?.toList ++ ops.filterMap (·.val.global?) := by
      cases hx : op.val.global? with
      | none => simp [hx]
      | some x => simp [hx]
    rw [ih hm hq, hsplit, List.append_assoc]

theorem nodup_code_globals (h : l.code p ops = .ok (body, last)) (hp : p.globals.Nodup) :
    last.globals.Nodup := by
  induction ops generalizing p body with
  | nil =>
    obtain ⟨-, rfl⟩ := Lowering.code_nil_eq_ok.mp h
    exact hp
  | cons op ops ih =>
    obtain ⟨own, q, more, hl, hm, -⟩ := Lowering.code_cons_eq_ok.mp h
    refine ih hm ?_
    rw [hl.globals_eq]
    exact nodup_noted hp _

end Globals

/-- The label of a global's cell. -/
def Program.label (name : String) : String := "global_" ++ name

theorem Program.label_inj {x y : String} : label x = label y ↔ x = y := by
  simp only [label, ← String.toList_inj, String.toList_append, List.append_cancel_left_eq]

/-- The label of a global is none of the other symbols. -/
theorem Program.label_not_mem (x : String) : label x ∉ ["main", "read", "write"] := by
  simp [label, ← String.toList_inj]

/-- The labels of different globals differ, and they are none of the other symbols. -/
theorem Program.nodup_labels {names : List String} (h : names.Nodup) :
    (names.map label ++ ["main", "read", "write"]).Nodup := by
  refine List.nodup_append.mpr ⟨?_, by decide, ?_⟩
  · exact List.pairwise_map.mpr (h.imp fun hne heq => hne (label_inj.mp heq))
  · rintro _ ha y hy rfl
    obtain ⟨x, -, rfl⟩ := List.mem_map.mp ha
    exact label_not_mem x hy

/-! ### Colons -/

section Colons

theorem Listing.IsIdentifier.colon_not_mem {x : String} (h : IsIdentifier x) : ':' ∉ x.toList := by
  obtain ⟨c, cs, hx, hc, hcs⟩ := h
  have hcolon : ¬ (IsLetter ':' ∨ ('0' ≤ ':' ∧ ':' ≤ '9')) := by decide
  rw [hx]
  intro hmem
  rcases List.mem_cons.mp hmem with rfl | hmem
  · exact hcolon (.inl hc)
  · exact hcolon (hcs _ hmem)

namespace Text.Decimal

theorem colon_not_mem_writeNat (n : Nat) : ':' ∉ (writeNat n).toList := by
  intro hmem
  rw [writeNat, String.toList_ofList] at hmem
  exact absurd (Nat.isDigit_of_mem_toDigits (by decide) (by decide) hmem) (by decide)

theorem colon_not_mem_writeInt (n : Int) : ':' ∉ (writeInt n).toList := by
  cases n with
  | ofNat k => exact colon_not_mem_writeNat k
  | negSucc k => simp [writeInt, colon_not_mem_writeNat]

end Text.Decimal

theorem Op.colon_not_mem_text {op : Op} (h : op.Spelled) : ':' ∉ op.text.toList := by
  have hmnemonic : ':' ∉ op.mnemonic.toList := by cases op <;> simp [mnemonic]
  have hargument : ∀ a ∈ op.argument?, ':' ∉ a.toList := by
    intro a ha
    cases op with
    | read => cases ha
    | write => cases ha
    | const v => cases ha; exact Text.Decimal.colon_not_mem_writeInt _
    | load x => cases ha; exact (h _ rfl).colon_not_mem
    | store x => cases ha; exact (h _ rfl).colon_not_mem
    | binary op => cases ha; cases op <;> decide
  rw [op.text_eq]
  simpa [hmnemonic] using hargument

theorem Operand.colon_not_mem_shown {o : Operand} (h : o.printable) : ':' ∉ o.shown.toList := by
  cases o with
  | reg r =>
    have hnames : ∀ r ∈ Reg.table, ':' ∉ (reg r).shown.toList := by decide
    exact hnames r (Reg.mem_table (by simpa [printable] using h))
  | slot i => simp [toList_shown_slot, Text.Decimal.colon_not_mem_writeNat]
  | mem x => exact (Listing.isName_iff.mp h).colon_not_mem
  | imm v => simp [toList_shown_imm, Text.Decimal.colon_not_mem_writeInt]

/-- No instruction that the machine sees has a colon in its text. -/
theorem Instr.colon_not_mem_shown {i : Instr} (h : i.printable) (hline : i.isLine = false) :
    ':' ∉ i.shown := by
  have ho := fun o ho => Operand.colon_not_mem_shown (printable_of_mem_operands h o ho)
  cases i with
  | mov s d => simp [shown, fields, ho s (by simp [operands]), ho d (by simp [operands])]
  | alu op s d =>
    have hop : ':' ∉ op.mnemonic.toList := by cases op <;> decide
    simp [shown, fields, hop, ho s (by simp [operands]), ho d (by simp [operands])]
  | idiv o => simp [shown, fields, ho o (by simp [operands])]
  | push o => simp [shown, fields, ho o (by simp [operands])]
  | pop o => simp [shown, fields, ho o (by simp [operands])]
  | cltd => decide
  | ret => decide
  | set c b => cases c <;> cases b <;> decide
  | call x => simp [shown, fields, (Listing.isName_iff.mp h).colon_not_mem]
  | line t => cases hline

end Colons

/-! ### Lines -/

/-- The symbol that a line of assembly defines: what stands before its first colon. -/
def Text.label? (line : String) : Option String :=
  (splitOnce ':' line.toList).map fun (name, _) => String.ofList name

theorem Text.label?_of_not_mem {line : String} (h : ':' ∉ line.toList) : label? line = none := by
  rw [label?, splitOnce_eq_none.mpr h]
  rfl

theorem Text.label?_of_colon {line name : String} {rest : List Char}
    (hline : line.toList = name.toList ++ ':' :: rest) (h : ':' ∉ name.toList) :
    label? line = some name := by
  rw [label?, splitOnce_eq_some.mpr ⟨hline, h⟩]
  exact congrArg some String.ofList_toList

namespace Program

/-- The instructions of a procedure, behind the label of its entry. -/
def procedure (p : Program) (reserved : List Instr) : List Instr :=
  .push Reg.ebp :: .mov Reg.esp Reg.ebp :: (reserved ++ (p.sheltered p.calleeSaved ++ closing))

theorem listed_eq (p : Program) (reserved : List Instr) : p.listed reserved =
    .line "\t.globl\tmain" :: .line "\t.data" :: (p.globals.map cell ++
      .line "\t.text" :: .line "main:" :: p.procedure reserved) := by
  simp [listed, opening, data, procedure, entry]

/-- The line of a cell defines the label of its global. -/
theorem labels_cells {names : List String} (h : ∀ x ∈ names, Listing.IsIdentifier x) :
    (names.map (label · ++ ":\t.int\t0")).filterMap Text.label? = names.map label := by
  induction names with
  | nil => rfl
  | cons x names ih =>
    obtain ⟨hx, hnames⟩ := List.forall_mem_cons.mp h
    have hstem : Listing.IsIdentifier "global_" := by decide
    have hline : (label x ++ ":\t.int\t0").toList =
        (label x).toList ++ ':' :: "\t.int\t0".toList := by simp
    have hlabel := Text.label?_of_colon hline (hstem.append hx).colon_not_mem
    simp only [List.map_cons, List.filterMap_cons, hlabel, ih hnames]

end Program

/-- The lines of a program's text. The last one is empty. -/
def Compiled.lines (c : Compiled) : List String :=
  (Text.pieces '\n' c.assembly.toList).map String.ofList

section Lowered

variable {l : Lowering} {ops : List (Located Op)} {r : Lowered} {reserved : List Instr}

/-- Behind the label of the entry there is only code, with the operations as comments in it. -/
theorem mem_procedure (hlower : l.lower ops = .ok r)
    (hreserve : (Program.ofLowered r).reserve = .ok reserved) :
    ∀ i ∈ (Program.ofLowered r).procedure reserved,
      i.isLine = false ∨ ∃ op ∈ ops, i = .line ("# " ++ op.val.text) := by
  have hbody : ∀ i ∈ r.body, i.isLine = false ∨ ∃ op ∈ ops, i = .line ("# " ++ op.val.text) := by
    have hemitted := code_emitted (P := fun _ => True) (Lowering.lower_eq_ok_iff.mp hlower).1
      (Placement.canonical_empty _) (by simp) (by simp) (by simp) (by simp)
    intro i hi
    obtain hi | ⟨op, hop, hi⟩ := hemitted i hi
    · exact .inl hi.not_line
    · unfold Lowering.heading at hi
      split at hi
      · exact .inr ⟨op, hop, List.mem_singleton.mp hi⟩
      · cases hi
  have hreserved : ∀ i ∈ reserved, i.isLine = false := by
    obtain ⟨-, rfl⟩ | ⟨-, bytes, -, rfl⟩ := Program.reserve_eq_ok_iff.mp hreserve
    · simp
    · simp [Instr.isLine]
  have hclosing : ∀ i ∈ Program.closing, i.isLine = false := by decide
  simp only [Program.procedure, Program.sheltered, List.forall_mem_cons, List.forall_mem_append,
    List.forall_mem_map]
  exact ⟨.inl rfl, .inl rfl, fun i hi => .inl (hreserved i hi),
    ⟨⟨fun _ _ => .inl rfl, hbody⟩, fun _ _ => .inl rfl⟩, fun i hi => .inl (hclosing i hi)⟩

variable (hops : ∀ op ∈ ops.map (·.val), op.Spelled) (hlower : l.lower ops = .ok r)
  (hreserve : (Program.ofLowered r).reserve = .ok reserved)

include hops hlower hreserve

/-- The text of a program: its cells between two directives, then its procedure. -/
theorem lines_assembled : (Compiled.assembled r reserved).lines =
    "\t.globl\tmain" :: "\t.data" :: (r.placement.globals.map (Program.label · ++ ":\t.int\t0") ++
      "\t.text" :: "main:" ::
        (((Program.ofLowered r).procedure reserved).map (String.ofList ·.shown) ++ [""])) := by
  have hline (t : String) : String.ofList (Instr.line t).shown = t := String.ofList_toList
  have hcell (x : String) :
      String.ofList (Program.cell x).shown = Program.label x ++ ":\t.int\t0" := hline _
  have hglobals : (Program.ofLowered r).globals = r.placement.globals := rfl
  rw [Compiled.lines, pieces_assembled hops hlower hreserve, Program.listed_eq, hglobals]
  simp only [List.map_append, List.map_cons, List.map_map, Function.comp_def, hline, hcell,
    List.cons_append, List.append_assoc]
  rfl

/-- No line of a procedure has a colon, and none is a directive. -/
theorem procedure_lines : ∀ i ∈ (Program.ofLowered r).procedure reserved,
    ':' ∉ i.shown ∧ ∀ rest, i.shown ≠ '\t' :: '.' :: rest := by
  intro i hi
  have hprintable : i.printable := by
    refine lowered_printable hops hlower hreserve i ?_
    rw [Program.listed_eq]
    simp [hi]
  obtain hcode | ⟨op, hop, rfl⟩ := mem_procedure hlower hreserve i hi
  · refine ⟨Instr.colon_not_mem_shown hprintable hcode, fun rest hrest => ?_⟩
    have hshown := Instr.isCode_shown hprintable
    rw [hcode, hrest] at hshown
    cases hshown
  · have htext := Op.colon_not_mem_text (hops op.val (List.mem_map_of_mem hop))
    simp [Instr.shown, htext]

/-- The symbols that are defined are the globals and the entry. -/
theorem labels_assembled : (Compiled.assembled r reserved).lines.filterMap Text.label? =
    r.placement.globals.map Program.label ++ ["main"] := by
  have hprocedure : (((Program.ofLowered r).procedure reserved).map (String.ofList ·.shown) ++
      [""]).filterMap Text.label? = [] := by
    simp only [List.filterMap_eq_nil_iff, List.forall_mem_append, List.forall_mem_map]
    refine ⟨fun i hi => Text.label?_of_not_mem ?_, by decide⟩
    simpa using (procedure_lines hops hlower hreserve i hi).1
  have hcells := Program.labels_cells (globals_spelled hops hlower)
  rw [lines_assembled hops hlower hreserve]
  simp only [List.filterMap_cons, List.filterMap_append, hprocedure, hcells]
  rfl

/-- The directives of a text are the three that every text has. -/
theorem count_directive {t : String} {rest : List Char} (ht : t.toList = '\t' :: '.' :: rest) :
    (Compiled.assembled r reserved).lines.count t =
      ["\t.globl\tmain", "\t.data", "\t.text"].count t := by
  have hcells : t ∉ r.placement.globals.map (Program.label · ++ ":\t.int\t0") := by
    intro hmem
    obtain ⟨x, -, rfl⟩ := List.mem_map.mp hmem
    simp [Program.label] at ht
  have hprocedure :
      t ∉ ((Program.ofLowered r).procedure reserved).map (String.ofList ·.shown) ++ [""] := by
    intro hmem
    rcases List.mem_append.mp hmem with hmem | hmem
    · obtain ⟨i, hi, rfl⟩ := List.mem_map.mp hmem
      rw [String.toList_ofList] at ht
      exact (procedure_lines hops hlower hreserve i hi).2 rest ht
    · rw [List.mem_singleton.mp hmem] at ht
      cases ht
  have hentry : t ≠ "main:" := by
    rintro rfl
    simp at ht
  rw [lines_assembled hops hlower hreserve]
  simp only [List.count_cons, List.count_append, List.count_eq_zero.mpr hcells,
    List.count_eq_zero.mpr hprocedure, beq_eq_false_iff_ne.mpr hentry.symm, List.count_nil]
  simp [Nat.add_assoc]

omit hops in
/-- What code refers to: cells of globals, and the routines of the runtime. -/
theorem listed_uses : ∀ i ∈ (Program.ofLowered r).listed reserved,
    (∀ x, .mem x ∈ i.operands → x ∈ r.placement.globals.map Program.label) ∧
      ∀ x, i = .call x → x = "read" ∨ x = "write" := by
  have hcode := (Lowering.lower_eq_ok_iff.mp hlower).1
  have hemitted := code_emitted
    (P := fun o => ∀ x, o = .mem x → x ∈ r.placement.globals.map Program.label) hcode
    (Placement.canonical_empty _) (by simp) (by simp)
    (by
      intro op hop g hg x hx
      cases hx
      exact List.mem_map_of_mem ((Lowering.mem_code_globals hcode).mpr (.inr ⟨op, hop, hg⟩)))
    (by
      rintro q hq _ ho x rfl
      exact (hq.within ho).elim)
  refine Program.forall_mem_listed hreserve ?_ ?_ ?_ ?_ ?_
  · simp [Instr.operands, Program.closing]
  · simp [Program.cell, Instr.operands]
  · simp [Instr.operands]
  · simp [Instr.operands]
  · intro i hi
    obtain hi | ⟨op, -, hi⟩ := hemitted i hi
    · cases i with
      | line t => exact hi.elim
      | call y =>
        refine ⟨by simp [Instr.operands], fun x hx => ?_⟩
        cases hx
        exact hi
      | _ => exact ⟨fun x hx => hi _ hx x rfl, by simp⟩
    · unfold Lowering.heading at hi
      split at hi
      · rw [List.mem_singleton.mp hi]
        simp [Instr.operands]
      · cases hi

end Lowered

/-! ### Listings -/

/-- The symbols of a compiled listing, given its operations and its instructions. -/
structure Compiled.Resolved (c : Compiled) (ops : List Op) (code : List Instr) : Prop where
  /-- The globals are the names in the listing, in the order of their first mention. -/
  globals : c.program.globals = (ops.filterMap (·.global?)).eraseDups
  /-- Between two directives, each there once, every global has one cell and nothing else stands. -/
  cells : ∃ front back, c.lines = front ++ "\t.data" ::
    (c.program.globals.map fun x => "global_" ++ x ++ ":\t.int\t0") ++ "\t.text" :: back
  data : c.lines.count "\t.data" = 1
  text : c.lines.count "\t.text" = 1
  /-- The lines of the whole text that define a symbol are the cells and the entry. -/
  labels : c.lines.filterMap Text.label? = c.program.globals.map ("global_" ++ ·) ++ ["main"]
  /-- No symbol stands for two things. -/
  distinct : (c.program.globals.map ("global_" ++ ·) ++ ["main", "read", "write"]).Nodup
  /-- An operand in memory is the cell of a global. -/
  memory : ∀ i ∈ code, ∀ x, .mem x ∈ i.operands → x ∈ c.program.globals.map ("global_" ++ ·)
  calls : ∀ i ∈ code, ∀ x, i = .call x → x = "read" ∨ x = "write"

/-- **Every symbol of a program is defined once, or belongs to the runtime.** Whatever listing is
compiled and with which options: the globals of the program are the names that the listing loads or
stores, each once, in the order of their first mention; the data section of the text has one cell
for each of them, in this order, and nothing else; the entry is the only other symbol that a line
defines; labels of globals are different from each other, from the entry and from the routines; and
the instructions refer to nothing but these cells and call nothing but the two routines. -/
theorem symbols_defined (o : Options) (source : String) (c : Compiled)
    (h : o.compile source = .ok c) : ∃ ops code, Listing.read source = .ok ops ∧
      c.program.instructions = .ok code ∧ c.Resolved (ops.map (·.val)) code := by
  obtain ⟨ops, r, reserved, hread, hlower, hreserve, rfl⟩ := Options.compile_eq_ok.mp h
  have hspelled := Listing.read_spelled hread
  have hcode := (Lowering.lower_eq_ok_iff.mp hlower).1
  have hempty : (Placement.empty o.lowering.registers).globals = ([] : List String).eraseDups := rfl
  have huses := listed_uses hlower hreserve
  have hdata : "\t.data".toList = '\t' :: '.' :: "data".toList := by decide
  have htext : "\t.text".toList = '\t' :: '.' :: "text".toList := by decide
  have hinstructions : (Program.ofLowered r).instructions =
      .ok ((Program.ofLowered r).listed reserved) := by
    rw [Program.instructions_eq, hreserve]
    rfl
  refine ⟨ops, _, hread, hinstructions, ?_⟩
  exact {
    globals := by
      rw [List.filterMap_map]
      exact code_globals hcode hempty
    cells := ⟨["\t.globl\tmain"], _, lines_assembled hspelled hlower hreserve⟩
    data := count_directive hspelled hlower hreserve hdata
    text := count_directive hspelled hlower hreserve htext
    labels := labels_assembled hspelled hlower hreserve
    distinct := Program.nodup_labels (nodup_code_globals hcode List.nodup_nil)
    memory := fun i hi => (huses i hi).1
    calls := fun i hi => (huses i hi).2 }

/-- A listing that names globals after other symbols, one of them twice. -/
def misleading : String := "READ\nST write\nLD main\nLD write\nBINOP +\nWRITE # main:\n"

theorem misleading_symbols : ∃ c, (⟨2, true⟩ : Options).compile misleading = .ok c ∧
    c.program.globals = ["write", "main"] ∧
    c.lines.filterMap Text.label? = ["global_write", "global_main", "main"] := by
  have hcompile : ∃ c, (⟨2, true⟩ : Options).compile misleading = .ok c :=
    ⟨_, Options.compile_eq_ok.mpr ⟨_, _, _, rfl, Lowering.lower_of_code rfl, rfl, rfl⟩⟩
  obtain ⟨c, hc⟩ := hcompile
  obtain ⟨ops, code, hread, -, hresolved⟩ := symbols_defined _ _ _ hc
  cases hread
  have hglobals : c.program.globals = ["write", "main"] := hresolved.globals
  refine ⟨c, hc, hglobals, ?_⟩
  rw [hresolved.labels, hglobals]
  rfl

end StackBackend
