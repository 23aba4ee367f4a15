import StackBackend.Proofs.Code

/-! What is written while code is generated.

An emission either writes some code behind whatever stands (`Writes`) or fails before it writes
anything (`Refuses`), and which it does follows from its steps. Every template writes the code that
it stands for. So an operation writes the code that it has as a value (`Lowers.written`), or is
refused and leaves the code so far as it was (`emit_refuses`). A list of operations can fail with
something written, the code of the operations before the one that is refused, but that is dropped in
the end: what code generation returns is the code as a value, or the same failure (`lower_eq`). -/
namespace StackBackend

namespace Emission

variable {ε ε' α β : Type}

/-- Writes `code` behind whatever stands, and gives `a`. -/
def Writes (e : Emission ε α) (code : List Instr) (a : α) : Prop :=
  ∀ out, e.run out = .ok a (out ++ code.toArray)

/-- Fails with nothing written. -/
def Refuses (e : Emission ε α) (cause : ε) : Prop :=
  ∀ out, e.run out = .error cause out

/-! ### Steps -/

section Steps
variable {e : Emission ε α} {f : α → Emission ε β} {code more : List Instr} {a : α} {b : β}
  {cause : ε} {x : Except ε α}

theorem writes_pure (a : α) : Writes (pure a : Emission ε α) [] a := by
  intro out
  show EStateM.Result.ok a out = _
  rw [Array.append_empty]

theorem writes_put (i : Instr) : Writes (put i : Emission ε Unit) [i] () := by
  intro out
  show EStateM.Result.ok () (out.push i) = _
  rw [Array.push_eq_append]

theorem Writes.run_bind (he : Writes e code a) (out : Array Instr) :
    (e >>= f).run out = (f a).run (out ++ code.toArray) := by
  rw [EStateM.run_bind, he out]

theorem Writes.bind (he : Writes e code a) (hf : Writes (f a) more b) :
    Writes (e >>= f) (code ++ more) b := by
  intro out
  rw [he.run_bind, hf, ← List.append_toArray, Array.append_assoc]

theorem Writes.giving (he : Writes e code a) (b : β) : Writes (e >>= fun _ => pure b) code b := by
  have hboth := he.bind (f := fun _ => pure b) (writes_pure b)
  rwa [List.append_nil] at hboth

theorem Writes.cast (he : Writes e code a) (h : code = more) : Writes e more a := h ▸ he

theorem writes_forM {γ : Type} (instr : γ → Instr) (xs : List γ) :
    Writes (xs.forM fun x => put (instr x) : Emission ε Unit) (xs.map instr) () := by
  induction xs with
  | nil => exact writes_pure ()
  | cons x xs ih => exact (writes_put (instr x)).bind ih

theorem writes_ofExcept (h : x = .ok a) : Writes (ofExcept x : Emission ε α) [] a := by
  rw [h]
  exact writes_pure a

theorem refuses_ofExcept (h : x = .error cause) : Refuses (ofExcept x : Emission ε α) cause := by
  rw [h]
  intro out
  rfl

theorem Refuses.bind (he : Refuses e cause) : Refuses (e >>= f) cause := by
  intro out
  rw [EStateM.run_bind, he out]

/-- A step that writes nothing can stand before a refusal. -/
theorem Writes.bind_refuses (he : Writes e [] a) (hf : Refuses (f a) cause) :
    Refuses (e >>= f) cause := by
  intro out
  rw [he.run_bind, Array.append_empty]
  exact hf out

theorem Writes.adaptExcept (he : Writes e code a) (g : ε → ε') :
    Writes (EStateM.adaptExcept g e) code a := by
  intro out
  have hrun : e out = _ := he out
  show EStateM.adaptExcept g e out = _
  rw [EStateM.adaptExcept, hrun]

theorem Refuses.adaptExcept (he : Refuses e cause) (g : ε → ε') :
    Refuses (EStateM.adaptExcept g e) (g cause) := by
  intro out
  have hrun : e out = _ := he out
  show EStateM.adaptExcept g e out = _
  rw [EStateM.adaptExcept, hrun]

end Steps

/-! ### Templates -/

theorem writes_move (src dst : Operand) :
    Writes (move src dst : Emission ε Unit) (Lowering.move src dst) () := by
  unfold move Lowering.move
  split
  · exact (writes_put _).bind (writes_put _)
  · exact writes_put _

theorem writes_combine (op : Alu) (src dst : Operand) :
    Writes (combine op src dst : Emission ε Unit) (Lowering.combine op src dst) () := by
  unfold combine Lowering.combine
  split
  · exact (writes_put _).bind (writes_put _)
  · exact writes_put _

theorem writes_truth (o : Operand) (byte : ByteReg) :
    Writes (truth o byte : Emission ε Unit) (Lowering.truth o byte) () :=
  (writes_put _).bind ((writes_put _).bind (writes_put _))

theorem writes_logical (op : Alu) (src dst : Operand) :
    Writes (logical op src dst : Emission ε Unit) (Lowering.logical op src dst) () := by
  have hall : Writes (logical op src dst : Emission ε Unit) _ () :=
    (writes_truth dst .al).bind
      ((writes_truth src .dl).bind ((writes_put _).bind (writes_put _)))
  exact hall.cast (List.append_assoc ..).symm

theorem writes_comparison (c : Cond) (src dst : Operand) :
    Writes (comparison c src dst : Emission ε Unit) (Lowering.comparison c src dst) () :=
  (writes_put _).bind ((writes_combine .cmp src dst).bind ((writes_put _).bind (writes_put _)))

theorem writes_multiply (src dst : Operand) :
    Writes (multiply src dst : Emission ε Unit) (Lowering.multiply src dst) () := by
  unfold multiply Lowering.multiply
  split
  · exact writes_put _
  · exact (writes_put _).bind ((writes_put _).bind (writes_put _))

theorem writes_divide (src dst : Operand) (result : Reg) :
    Writes (divide src dst result : Emission ε Unit) (Lowering.divide src dst result) () :=
  (writes_put _).bind ((writes_put _).bind ((writes_put _).bind (writes_move result dst)))

theorem writes_operator (op : Operator) (src dst : Operand) :
    Writes (operator op src dst : Emission ε Unit) (Lowering.operator op src dst) () := by
  unfold operator Lowering.operator
  cases op.family with
  | arithmetic a => exact writes_combine (Lowering.additive a) src dst
  | logical c => exact writes_logical (Lowering.connective c) src dst
  | comparison r => exact writes_comparison (Lowering.condition r) src dst
  | multiplicative product =>
    cases product with
    | mul => exact writes_multiply src dst
    | quotient => exact writes_divide src dst .eax
    | remainder => exact writes_divide src dst .edx

section Call
variable {routine : String} {argument : Option Operand} {p : Placement}

theorem call_writes {code : List Instr} (h : Lowering.call routine argument p = .ok code) :
    Writes (call routine argument p) code () := by
  obtain ⟨saved, hsaved, hcode⟩ := bind_eq_ok.mp h
  have hall : Writes (call routine argument p) _ () :=
    (writes_ofExcept (mapError_eq_ok.mpr hsaved)).bind <|
      (writes_forM _ saved).bind <|
        (writes_forM _ argument.toList).bind <|
          (writes_put (.call routine)).bind <|
            (writes_forM _ argument.toList).bind (writes_forM _ saved.reverse)
  refine hall.cast ?_
  rw [← pure_eq_ok.mp hcode]
  simp only [List.nil_append, List.append_assoc]

/-- Whether a register exists that is to be saved is found out before anything is pushed. -/
theorem call_refuses {cause : Fault} (h : Lowering.call routine argument p = .error cause) :
    Refuses (call routine argument p) (.fault cause) := by
  obtain hsaved | ⟨_, -, hcode⟩ := bind_eq_error.mp h
  · exact (refuses_ofExcept (mapError_eq_error.mpr ⟨cause, hsaved, rfl⟩)).bind
  · cases hcode

end Call

end Emission

/-! ### Single operations -/

open Emission

theorem Lowers.written {op : Op} {p q : Placement} {code : List Instr} (h : Lowers p op code q) :
    Writes (op.emit p) code q := by
  cases h with
  | @read dst q ha hl =>
    have hcall : Writes (call "read" none q) _ () := call_writes (Lowering.call_eq_ok.mpr ⟨hl, rfl⟩)
    exact (writes_ofExcept (mapError_eq_ok.mpr ha)).bind (hcall.bind ((writes_move _ _).giving _))
  | @write value rest hp hl =>
    have hpop := Placement.pop_eq_ok.mpr ⟨rest, hp, rfl⟩
    have hcall : Writes (call "write" (some value) _) _ () :=
      call_writes (Lowering.call_eq_ok.mpr ⟨hl, rfl⟩)
    exact (writes_ofExcept (mapError_eq_ok.mpr hpop)).bind (hcall.giving _)
  | const ha => exact (writes_ofExcept (mapError_eq_ok.mpr ha)).bind ((writes_put _).giving _)
  | load ha => exact (writes_ofExcept (mapError_eq_ok.mpr ha)).bind ((writes_move _ _).giving _)
  | @store x src rest hp =>
    have hpop := Placement.pop_eq_ok.mpr ⟨rest, (p.addGlobal_pending x).trans hp, rfl⟩
    exact (writes_ofExcept (mapError_eq_ok.mpr hpop)).bind ((writes_move _ _).giving _)
  | binary hp =>
    have hpop := Placement.pop2_eq_ok.mpr ⟨_, hp, rfl⟩
    exact (writes_ofExcept (mapError_eq_ok.mpr hpop)).bind ((writes_operator _ _ _).giving _)

namespace Op

variable {op : Op} {p q : Placement}

/-- An operation that is refused has written nothing, be it for want of values or by a fault. -/
theorem emit_refuses {cause : Refusal} (h : op.lower p = .error cause) :
    Refuses (op.emit p) cause := by
  cases op with
  | read =>
    obtain ha | ⟨⟨dst, q⟩, ha, h⟩ := bind_eq_error.mp h
    · exact (refuses_ofExcept ha).bind
    obtain hcall | ⟨_, -, h⟩ := bind_eq_error.mp h
    · obtain ⟨c, hfault, rfl⟩ := mapError_eq_error.mp hcall
      exact (writes_ofExcept ha).bind_refuses (call_refuses hfault).bind
    · cases h
  | write =>
    obtain hp | ⟨⟨value, q⟩, hp, h⟩ := bind_eq_error.mp h
    · exact (refuses_ofExcept hp).bind
    obtain hcall | ⟨_, -, h⟩ := bind_eq_error.mp h
    · obtain ⟨c, hfault, rfl⟩ := mapError_eq_error.mp hcall
      exact (writes_ofExcept hp).bind_refuses (call_refuses hfault).bind
    · cases h
  | const v =>
    obtain ha | ⟨_, -, h⟩ := bind_eq_error.mp h
    · exact (refuses_ofExcept ha).bind
    · cases h
  | load x =>
    obtain ha | ⟨_, -, h⟩ := bind_eq_error.mp h
    · exact (refuses_ofExcept ha).bind
    · cases h
  | store x =>
    obtain hp | ⟨_, -, h⟩ := bind_eq_error.mp h
    · exact (refuses_ofExcept hp).bind
    · cases h
  | binary op =>
    obtain hp | ⟨_, -, h⟩ := bind_eq_error.mp h
    · exact (refuses_ofExcept hp).bind
    · cases h

theorem emit_eq_ok {out written : Array Instr} : (op.emit p).run out = .ok q written ↔
    ∃ code, op.lower p = .ok (code, q) ∧ written = out ++ code.toArray := by
  cases hlower : op.lower p with
  | error cause =>
    rw [emit_refuses hlower]
    simp
  | ok result =>
    obtain ⟨code, last⟩ := result
    rw [(lower_eq_ok.mp hlower).written]
    simp [and_assoc, eq_comm]

theorem emit_eq_error {out left : Array Instr} {cause : Refusal} :
    (op.emit p).run out = .error cause left ↔ op.lower p = .error cause ∧ left = out := by
  cases hlower : op.lower p with
  | error cause =>
    rw [emit_refuses hlower]
    simp [eq_comm]
  | ok result =>
    obtain ⟨code, last⟩ := result
    rw [(lower_eq_ok.mp hlower).written]
    simp

end Op

/-! ### Lists of operations -/

namespace Lowering

variable {l : Lowering} {p last : Placement} {ops : List (Located Op)} {body : List Instr}

theorem writes_heading {ε : Type} (l : Lowering) (op : Op) :
    Writes ((l.heading op).forM put : Emission ε Unit) (l.heading op) () :=
  (writes_forM id (l.heading op)).cast (List.map_id _)

theorem emit_writes (h : l.code p ops = .ok (body, last)) : Writes (l.emit p ops) body last := by
  induction ops generalizing p body with
  | nil =>
    obtain ⟨rfl, rfl⟩ := code_nil_eq_ok.mp h
    exact writes_pure _
  | cons op ops ih =>
    obtain ⟨own, q, more, hown, hmore, rfl⟩ := code_cons_eq_ok.mp h
    have hall : Writes (l.emit p (op :: ops)) _ last :=
      (writes_heading l op.val).bind ((hown.written.adaptExcept _).bind (ih hmore))
    exact hall.cast (List.append_assoc ..).symm

/-- A list that fails keeps what stands and what was written before the refusal. -/
theorem emit_fails {f : Failure} (h : l.code p ops = .error f) (out : Array Instr) :
    ∃ more, (l.emit p ops).run out = .error f (out ++ more) := by
  induction ops generalizing p out with
  | nil => cases h
  | cons op ops ih =>
    obtain hown | ⟨⟨own, q⟩, hown, h⟩ := bind_eq_error.mp h
    · obtain ⟨cause, hrefused, rfl⟩ := mapError_eq_error.mp hown
      refine ⟨(l.heading op.val).toArray, ?_⟩
      rw [emit, (writes_heading l op.val).run_bind]
      exact ((Op.emit_refuses hrefused).adaptExcept _).bind _
    · have hlowers := lower_eq_ok.mp (mapError_eq_ok.mp hown)
      have hwritten := hlowers.written.adaptExcept (Failure.mk op)
      obtain hmore | ⟨_, -, h⟩ := bind_eq_error.mp h
      · obtain ⟨more, hmore⟩ := ih hmore (out ++ (l.heading op.val).toArray ++ own.toArray)
        refine ⟨(l.heading op.val).toArray ++ own.toArray ++ more, ?_⟩
        rw [emit, (writes_heading l op.val).run_bind, hwritten.run_bind, hmore]
        simp only [Array.append_assoc]
      · cases h

theorem lower_eq (l : Lowering) (ops : List (Located Op)) :
    l.lower ops = (l.code (.empty l.registers) ops).map
      fun (body, p) => ⟨body, p, leftover p ops⟩ := by
  cases h : l.code (.empty l.registers) ops with
  | ok result =>
    obtain ⟨body, p⟩ := result
    rw [lower, emit_writes h #[], Array.empty_append]
    rfl
  | error f =>
    obtain ⟨more, hfails⟩ := emit_fails h #[]
    rw [lower, hfails]
    rfl

theorem lower_of_code (h : l.code (.empty l.registers) ops = .ok (body, last)) :
    l.lower ops = .ok ⟨body, last, leftover last ops⟩ := by
  rw [lower_eq, h]
  rfl

theorem lower_of_code_error {f : Failure} (h : l.code (.empty l.registers) ops = .error f) :
    l.lower ops = .error f := by
  rw [lower_eq, h]
  rfl

theorem lower_eq_ok_iff {r : Lowered} : l.lower ops = .ok r ↔
    l.code (.empty l.registers) ops = .ok (r.body, r.placement) ∧
      r.warnings = leftover r.placement ops := by
  rw [lower_eq, map_eq_ok]
  constructor
  · rintro ⟨⟨body, p⟩, hc, rfl⟩
    exact ⟨hc, rfl⟩
  · rintro ⟨hc, hw⟩
    refine ⟨_, hc, ?_⟩
    show (⟨r.body, r.placement, leftover r.placement ops⟩ : Lowered) = r
    rw [← hw]

end Lowering

end StackBackend
