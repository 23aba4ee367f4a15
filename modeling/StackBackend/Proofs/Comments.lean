import StackBackend.Proofs.AssemblyText

/-! Comments change nothing but the lines that they stand on.

The code of an operation has no line of its own (`Lowers.not_line`), so the lines of a body are the
headings of its operations, and the code without comments is the code with comments less these lines
(`code_uncommented`). In the text of a program no other line begins like a heading
(`listed_around`). Hence the text without comments is the text with comments less the lines that
begin with a number sign, and these lines are a listing of the operations
(`compile_uncommented`). -/
namespace StackBackend

/-! ### Bodies -/

/-- The code of a listing without its comments. -/
def Lowered.uncommented (r : Lowered) : Lowered := {r with body := r.body.filter (!·.isLine)}

/-- The comment on an operation. -/
def Op.remark (op : Op) : Instr := .line ("# " ++ op.text)

@[simp] theorem Op.isLine_remark (op : Op) : op.remark.isLine = true := rfl

theorem Lowers.not_line {p q : Placement} {op : Op} {code : List Instr} (h : Lowers p op code q) :
    ∀ i ∈ code, i.isLine = false := by
  have hemitted := h.emitted (P := fun _ => True) (by simp) (by simp) (by simp) (by simp) (by simp)
  exact fun i hi => (hemitted i hi).not_line

namespace Lowering

variable {registers : UInt8} {p last : Placement} {ops : List (Located Op)} {body : List Instr}

@[simp] theorem heading_commented (registers : UInt8) (op : Op) :
    heading ⟨registers, true⟩ op = [op.remark] := rfl

@[simp] theorem heading_uncommented (registers : UInt8) (op : Op) :
    heading ⟨registers, false⟩ op = [] := rfl

/-- Comments do not matter to the code of a listing, nor to whether there is any. -/
theorem code_uncommented (registers : UInt8) (p : Placement) (ops : List (Located Op)) :
    code ⟨registers, false⟩ p ops =
      (code ⟨registers, true⟩ p ops).map fun (body, q) => (body.filter (!·.isLine), q) := by
  induction ops generalizing p with
  | nil => rfl
  | cons op ops ih =>
    cases hlower : op.val.lower p with
    | error e =>
      rw [code, code, hlower]
      rfl
    | ok result =>
      obtain ⟨own, q⟩ := result
      have hown : own.filter (!·.isLine) = own := by
        simpa using (lower_eq_ok.mp hlower).not_line
      rw [code_of_lower hlower, code_of_lower hlower, ih]
      cases code ⟨registers, true⟩ q ops with
      | error e => rfl
      | ok result => simp [Except.map, hown]

theorem filter_isLine_body (h : code ⟨registers, true⟩ p ops = .ok (body, last)) :
    body.filter (·.isLine) = ops.map (·.val.remark) := by
  induction ops generalizing p body with
  | nil =>
    obtain ⟨rfl, -⟩ := code_nil_eq_ok.mp h
    rfl
  | cons op ops ih =>
    obtain ⟨own, q, more, hl, hm, rfl⟩ := code_cons_eq_ok.mp h
    have hown : own.filter (·.isLine) = [] := by simpa using hl.not_line
    simp [List.filter_cons, hown, ih hm]

theorem lower_uncommented (registers : UInt8) (ops : List (Located Op)) :
    lower ⟨registers, false⟩ ops = (lower ⟨registers, true⟩ ops).map Lowered.uncommented := by
  rw [lower_eq, lower_eq, code_uncommented]
  cases code ⟨registers, true⟩ (.empty registers) ops with
  | error e => rfl
  | ok result => rfl

end Lowering

/-! ### Lines -/

/-- A comment is a line that begins with a number sign. -/
def Text.isRemark : List Char → Bool
  | '#' :: _ => true
  | _ => false

namespace Instr

/-- Whether the line of an instruction is a comment. -/
def isRemark (i : Instr) : Bool := Text.isRemark i.shown

theorem isRemark_of_not_line {i : Instr} (h : i.isLine = false) : i.isRemark = false := by
  cases i with
  | line t => cases h
  | alu op s d => cases op <;> rfl
  | _ => rfl

end Instr

theorem Op.isRemark_remark (op : Op) : op.remark.isRemark = true := by
  simp [Instr.isRemark, Instr.shown, remark, Text.isRemark]

theorem isRemark_body {l : Lowering} {p last : Placement} {ops : List (Located Op)}
    {body : List Instr} (h : l.code p ops = .ok (body, last)) (hc : p.Canonical) :
    ∀ i ∈ body, i.isRemark = i.isLine := by
  have hemitted := code_emitted (P := fun _ => True) h hc (by simp) (by simp) (by simp) (by simp)
  intro i hi
  obtain hi | ⟨op, -, hi⟩ := hemitted i hi
  · rw [hi.not_line, Instr.isRemark_of_not_line hi.not_line]
  · unfold Lowering.heading at hi
    split at hi
    · rw [List.mem_singleton.mp hi]
      exact op.val.isRemark_remark
    · cases hi

namespace Program

variable {p : Program} {reserved : List Instr}

/-- No line around the body is a comment. -/
theorem listed_around (hreserve : p.reserve = .ok reserved) : ∃ front back : List Instr,
    (∀ i ∈ front ++ back, i.isRemark = false) ∧
      ∀ body, {p with body := body}.listed reserved = front ++ body ++ back := by
  let front := p.opening ++ .mov Reg.esp Reg.ebp ::
    (reserved ++ p.calleeSaved.map fun r => .push (.reg r))
  let back := (p.calleeSaved.reverse.map fun r => .pop (.reg r)) ++ closing
  have hlisted (body : List Instr) :
      {p with body := body}.listed reserved = front ++ body ++ back := by
    simp [listed, opening, data, sheltered, front, back]
  -- A program with an empty body is all that stands around one.
  have hempty : ∀ i ∈ {p with body := []}.listed reserved, i.isRemark = false := by
    refine forall_mem_listed hreserve (by decide) ?_ (fun _ => rfl) ?_ (by simp)
    · intro x _
      simp [cell, Instr.isRemark, Instr.shown, Text.isRemark]
    · exact fun _ _ => ⟨rfl, rfl⟩
  rw [hlisted, List.append_nil] at hempty
  exact ⟨front, back, hempty, hlisted⟩

end Program

section Lowered

variable {registers : UInt8} {ops : List (Located Op)} {r : Lowered} {reserved : List Instr}

theorem filter_listed (h : Lowering.lower ⟨registers, true⟩ ops = .ok r)
    (hreserve : (Program.ofLowered r).reserve = .ok reserved) :
    ((Program.ofLowered r).listed reserved).filter (!·.isRemark) =
        (Program.ofLowered r.uncommented).listed reserved ∧
      ((Program.ofLowered r).listed reserved).filter (·.isRemark) = ops.map (·.val.remark) ∧
      ((Program.ofLowered r).listed reserved).filter (!·.isLine) =
        ((Program.ofLowered r.uncommented).listed reserved).filter (!·.isLine) := by
  have hcode := (Lowering.lower_eq_ok_iff.mp h).1
  have hbody := isRemark_body hcode (Placement.canonical_empty _)
  obtain ⟨front, back, haround, hlisted⟩ := Program.listed_around hreserve
  obtain ⟨hfront, hback⟩ := List.forall_mem_append.mp haround
  have hcommented : (Program.ofLowered r).listed reserved = front ++ r.body ++ back :=
    hlisted r.body
  have huncommented : (Program.ofLowered r.uncommented).listed reserved =
      front ++ r.body.filter (!·.isLine) ++ back := hlisted _
  have hkept : r.body.filter (!·.isRemark) = r.body.filter (!·.isLine) :=
    List.filter_congr fun i hi => by rw [hbody i hi]
  have hdropped : r.body.filter (·.isRemark) = ops.map (·.val.remark) := by
    rw [← Lowering.filter_isLine_body hcode]
    exact List.filter_congr hbody
  have hall {xs : List Instr} (hxs : ∀ i ∈ xs, i.isRemark = false) :
      xs.filter (!·.isRemark) = xs ∧ xs.filter (·.isRemark) = [] := by
    constructor
    · simpa using hxs
    · simpa using hxs
  rw [hcommented, huncommented]
  simp only [List.filter_append, hkept, hdropped, hall hfront, hall hback, List.filter_filter,
    Bool.and_self, List.nil_append, List.append_nil, and_self]

theorem instructionCount_assembled {l : Lowering} (hops : ∀ op ∈ ops.map (·.val), op.Spelled)
    (h : l.lower ops = .ok r) (hreserve : (Program.ofLowered r).reserve = .ok reserved) :
    (Compiled.assembled r reserved).instructionCount =
      (Text.pieces '\n' (Compiled.assembled r reserved).assembly.toList).countP Text.isCode := by
  have hcode : ∀ i ∈ (Program.ofLowered r).listed reserved,
      (Text.isCode i.shown = true ↔ (!i.isLine) = true) :=
    fun i hi => by rw [Instr.isCode_shown (lowered_printable hops h hreserve i hi)]
  rw [pieces_assembled hops h hreserve, List.countP_append, List.countP_map]
  exact (List.countP_eq_length_filter ..).symm.trans (List.countP_congr hcode).symm

end Lowered

/-! ### Listings -/

/-- `d` is `c` without its comments, which are the operations `ops`. -/
structure Compiled.Uncommented (c d : Compiled) (ops : List Op) : Prop where
  globals : d.program.globals = c.program.globals
  frame : d.program.frame = c.program.frame
  calleeSaved : d.program.calleeSaved = c.program.calleeSaved
  warnings : d.warnings = c.warnings
  instructionCount : d.instructionCount = c.instructionCount
  /-- The text of `d` is that of `c` without the lines that are comments. -/
  assembly : d.assembly.toList =
    Text.join '\n' ((Text.pieces '\n' c.assembly.toList).filter (!Text.isRemark ·))
  /-- The comments are a listing of the operations. -/
  remarks : ∃ (texts : List (List Char)) (again : List (Located Op)),
    (Text.pieces '\n' c.assembly.toList).filter Text.isRemark = texts.map ("# ".toList ++ ·) ∧
    Listing.read (String.ofList (texts.flatMap (· ++ ['\n']))) = .ok again ∧
    again.map (·.val) = ops
  /-- The instructions that are counted are the lines of the text with instructions. -/
  counted : ∀ x ∈ [c, d], x.instructionCount =
    (Text.pieces '\n' x.assembly.toList).countP Text.isCode

theorem assembled_uncommented {registers : UInt8} {ops : List (Located Op)} {r : Lowered}
    {reserved : List Instr} (hops : ∀ op ∈ ops.map (·.val), op.Spelled)
    (h : Lowering.lower ⟨registers, true⟩ ops = .ok r)
    (hreserve : (Program.ofLowered r).reserve = .ok reserved) :
    (Compiled.assembled r reserved).Uncommented (.assembled r.uncommented reserved)
      (ops.map (·.val)) := by
  have h' : Lowering.lower ⟨registers, false⟩ ops = .ok r.uncommented := by
    rw [Lowering.lower_uncommented, h]
    rfl
  have hlines := pieces_assembled hops h hreserve
  obtain ⟨hkept, hdropped, hcounted⟩ := filter_listed h hreserve
  refine ⟨rfl, rfl, rfl, rfl, congrArg List.length hcounted.symm, ?_, ?_, ?_⟩
  · have hlines' := pieces_assembled hops h' hreserve
    rw [← Text.join_pieces '\n' (Compiled.assembled _ _).assembly.toList, hlines', hlines, ← hkept,
      List.filter_append, List.filter_map]
    rfl
  · refine ⟨(ops.map (·.val)).map (·.text.toList), Listing.located 0 (ops.map (·.val)), ?_, ?_, ?_⟩
    · have hshown : ((ops.map (·.val.remark)).map Instr.shown) =
          ((ops.map (·.val)).map (·.text.toList)).map ("# ".toList ++ ·) := by
        simp [Op.remark, Instr.shown]
      rw [hlines, List.filter_append, List.filter_map, ← hshown, ← hdropped]
      exact List.append_nil _
    · rw [← Listing.toList_print, String.ofList_toList]
      exact Listing.read_eq_located hops
    · exact Listing.map_val_located 0 _
  · have hcount := instructionCount_assembled hops h hreserve
    have hcount' := instructionCount_assembled hops h' hreserve
    simpa using ⟨hcount, hcount'⟩

/-- **Comments change nothing.** With and without comments, a listing is refused for the same
reason, or it is compiled to the same program but for the comments: they are the lines that begin
with a number sign, without them the two texts are equal, and they repeat the operations of the
listing in order. -/
theorem compile_uncommented (registers : UInt8) (source : String) :
    (∃ e, (⟨registers, true⟩ : Options).compile source = .error e ∧
      (⟨registers, false⟩ : Options).compile source = .error e) ∨
    ∃ ops c d, Listing.read source = .ok ops ∧
      (⟨registers, true⟩ : Options).compile source = .ok c ∧
      (⟨registers, false⟩ : Options).compile source = .ok d ∧
      Compiled.Uncommented c d (ops.map (·.val)) := by
  cases hread : Listing.read source with
  | error errors =>
    exact .inl ⟨_, Options.compile_of_read hread, Options.compile_of_read hread⟩
  | ok ops =>
    have hboth := Lowering.lower_uncommented (Placement.usable registers) ops
    cases hlower : Lowering.lower ⟨Placement.usable registers, true⟩ ops with
    | error failure =>
      rw [hlower] at hboth
      exact .inl ⟨_, Options.compile_of_lower hread hlower, Options.compile_of_lower hread hboth⟩
    | ok r =>
      rw [hlower] at hboth
      have hcommented : (⟨registers, true⟩ : Options).compile source = _ :=
        Options.compile_eq hread hlower
      have huncommented : (⟨registers, false⟩ : Options).compile source = _ :=
        Options.compile_eq hread hboth
      -- The frame does not depend on the body.
      have hframe : (Program.ofLowered r.uncommented).reserve = (Program.ofLowered r).reserve := rfl
      rw [hframe] at huncommented
      cases hreserve : (Program.ofLowered r).reserve with
      | error fault =>
        rw [hreserve] at hcommented huncommented
        exact .inl ⟨_, hcommented, huncommented⟩
      | ok reserved =>
        rw [hreserve] at hcommented huncommented
        have hpair := assembled_uncommented (Listing.read_spelled hread) hlower hreserve
        exact .inr ⟨ops, _, _, rfl, hcommented, huncommented, hpair⟩

/-- A listing with a comment of its own and an empty line. -/
def doubling : String := "READ # n\n\nCONST 2\nBINOP *\nWRITE"

theorem doubling_uncommented : ∃ c d,
    (⟨2, true⟩ : Options).compile doubling = .ok c ∧
    (⟨2, false⟩ : Options).compile doubling = .ok d ∧
    c.program.body.length = d.program.body.length + 4 ∧
    c.Uncommented d [.read, .const 2, .binary .mul, .write] := by
  have hcommented : (⟨2, true⟩ : Options).compile doubling = .ok _ :=
    Options.compile_eq_ok.mpr ⟨_, _, _, rfl, Lowering.lower_of_code rfl, rfl, rfl⟩
  have huncommented : (⟨2, false⟩ : Options).compile doubling = .ok _ :=
    Options.compile_eq_ok.mpr ⟨_, _, _, rfl, Lowering.lower_of_code rfl, rfl, rfl⟩
  obtain ⟨e, he, -⟩ | ⟨ops, c, d, hread, hc, hd, hpair⟩ := compile_uncommented 2 doubling
  · exact absurd (hcommented.symm.trans he) (by simp)
  · obtain rfl := Except.ok.inj (hcommented.symm.trans hc)
    obtain rfl := Except.ok.inj (huncommented.symm.trans hd)
    cases hread
    exact ⟨_, _, hc, hd, rfl, hpair⟩

end StackBackend
