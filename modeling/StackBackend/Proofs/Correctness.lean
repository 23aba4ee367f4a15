import StackBackend.Proofs.Emission
import StackBackend.Proofs.Simulation

/-! The code of a listing does what the listing means.

`lowered_computes`: a listing that can be evaluated has code, and from any machine that has not
put anything out or set a global yet the code ends with the output, the globals, the unread input
and the pending values of the evaluation. `lowered_faults`: code fails only where evaluation has
no input left or a zero divisor, at the code of that operation, and up to there it has done what
evaluation has done. -/
namespace StackBackend

variable {l : Lowering} {p last : Placement} {ops : List (Located Op)} {body : List Instr}
  {s t : EvalState} {m : Machine}

/-! ### Lists of operations -/

theorem heading_ends (l : Lowering) (op : Op) (m : Machine) : m.Ends (l.heading op) m := by
  unfold Lowering.heading
  split
  · exact .one rfl
  · exact .nil m

/-- The code of some operations that can be taken one after the other. -/
theorem code_takes (h : l.code p ops = .ok (body, last)) (hc : p.Canonical) (hm : Matches p s m)
    (hs : s.run false (ops.map (·.val)) = .ok t) : Takes m body p.registers last t := by
  induction ops generalizing p s m body with
  | nil =>
    obtain ⟨rfl, rfl⟩ := Lowering.code_nil_eq_ok.mp h
    cases hs
    exact ⟨m, .nil m, hm, ⟨fun _ _ _ => rfl, rfl⟩⟩
  | cons op ops ih =>
    obtain ⟨own, q, more, hl, hmore, rfl⟩ := Lowering.code_cons_eq_ok.mp h
    obtain ⟨u, hu, hrest⟩ := EvalState.run_cons_eq_ok.mp hs
    obtain ⟨m₁, hown, hm₁, hkept₁⟩ := hl.takes hc hm (EvalState.step_eq_ok.mp hu)
    obtain ⟨m₂, hend, hm₂, hkept₂⟩ := ih hmore (hl.canonical hc) hm₁ hrest
    rw [hl.registers] at hkept₂
    exact ⟨m₂, ((heading_ends l op.val m).append hown).append hend, hm₂, hkept₁.trans hkept₂⟩

/-- Operations that find their values are all taken, or one of them is the first to be blocked. -/
theorem run_or_blocked (h : Op.Supplied s.stack.length (ops.map (·.val))) :
    (∃ t, s.run false (ops.map (·.val)) = .ok t) ∨
      ∃ before op after u f, ops = before ++ op :: after ∧
        s.run false (before.map (·.val)) = .ok u ∧ Blocked u op.val f := by
  induction ops generalizing s with
  | nil => exact .inl ⟨s, rfl⟩
  | cons op ops ih =>
    obtain ⟨hpops, hrest⟩ := h
    rcases steps_or_blocked hpops with ⟨u, hu⟩ | ⟨f, hf⟩
    · rw [← hu.depth.2] at hrest
      have hstep := EvalState.step_eq_ok.mpr hu
      rcases ih hrest with ⟨t, ht⟩ | ⟨before, op', after, w, f, rfl, hw, hf⟩
      · exact .inl ⟨t, EvalState.run_cons_eq_ok.mpr ⟨u, hstep, ht⟩⟩
      · exact .inr ⟨op :: before, op', after, w, f, rfl,
          EvalState.run_cons_eq_ok.mpr ⟨u, hstep, hw⟩, hf⟩
    · exact .inr ⟨[], op, ops, s, f, rfl, rfl, hf⟩

/-! ### Whole listings -/

/-- A machine about to run. Registers, slots, flags and the stack may hold anything. -/
structure Machine.Fresh (m : Machine) (input : List Int32) : Prop where
  input : m.input = input
  output : m.output = []
  globals : ∀ x, m.globals x = 0

theorem Machine.start_fresh (input : List Int32) : (Machine.start input).Fresh input :=
  ⟨rfl, rfl, fun _ => rfl⟩

theorem Machine.Fresh.matches {input : List Int32} (h : m.Fresh input) (registers : UInt8) :
    Matches (.empty registers) (.start input) m :=
  ⟨rfl, fun _ => h.globals _, fun y _ => h.globals y, h.input, h.output⟩

/-- **A listing that can be evaluated has code, and the code computes what evaluation does**,
whatever the machine holds that is not input, output or a global. The stack may be 2^32 deep. -/
theorem lowered_computes (registers : UInt8) (comments : Bool) (ops : List (Located Op))
    (input : List Int32) (t : EvalState)
    (heval : (EvalState.start input).run true (ops.map (·.val)) = .ok t)
    (hdepth : Op.peak 0 (ops.map (·.val)) ≤ 4294967296) :
    ∃ r, (Lowering.ofOptions registers comments).lower ops = .ok r ∧
      ∀ m : Machine, m.Fresh input → ∃ m', m.run r.body = ⟨m', .ended⟩ ∧
        m'.output = t.output ∧ (∀ x, m'.globals ("global_" ++ x) = t.globals x) ∧
        m'.input = t.input ∧ r.placement.stack.map m'.read = t.stack.reverse.map .ok := by
  have hc := Placement.canonical_empty (Placement.usable registers)
  obtain ⟨body, last, hcode⟩ := code_of_supplied (l := .ofOptions registers comments) hc
    (EvalState.run_supplied heval) hdepth
  refine ⟨_, Lowering.lower_of_code hcode, fun m hm => ?_⟩
  obtain ⟨m', hend, hmatch, -⟩ :=
    code_takes hcode hc (hm.matches _) (EvalState.run_of_strict heval)
  refine ⟨m', hend, hmatch.output, hmatch.globals, hmatch.input, ?_⟩
  simp only [Placement.stack, List.map_reverse, hmatch.pending]

/-- One register does not hold the values of this listing, which leaves 9 behind. -/
def spilling : List (Located Op) :=
  [.read, .store "n", .const 100, .const 7, .load "n", .binary .mul, .binary .sub, .const (-3),
    .binary .div, .write, .const 9].map (⟨·, .nowhere⟩)

theorem spilling_computes :
    (EvalState.start [21, 5]).run true (spilling.map (·.val)) =
      .ok ⟨[9], fun y => if y = "n" then 21 else 0, [5], [15]⟩ ∧
    Op.peak 0 (spilling.map (·.val)) ≤ 4294967296 ∧
    ∃ r m', (Lowering.ofOptions 1 true).lower spilling = .ok r ∧
      (Machine.start [21, 5]).run r.body = ⟨m', .ended⟩ ∧ m'.output = [15] ∧
      m'.globals "global_n" = 21 ∧ m'.input = [5] ∧ r.placement.stack.map m'.read = [.ok 9] := by
  have heval : (EvalState.start [21, 5]).run true (spilling.map (·.val)) =
      .ok ⟨[9], fun y => if y = "n" then 21 else 0, [5], [15]⟩ := rfl
  have hdepth : Op.peak 0 (spilling.map (·.val)) ≤ 4294967296 := by decide
  obtain ⟨r, hr, hrun⟩ := lowered_computes 1 true spilling [21, 5] _ heval hdepth
  obtain ⟨m', hend, houtput, hglobals, hinput, hstack⟩ := hrun _ (Machine.start_fresh _)
  exact ⟨heval, hdepth, r, m', hr, hend, houtput, hglobals "n", hinput, hstack⟩

/-- Where the evaluation of a listing is blocked: `before` is taken and leads to the state `s`,
in which `op` is the first operation that cannot be taken. -/
structure BlockedAt (input : List Int32) (ops before : List (Located Op)) (op : Located Op)
    (s : EvalState) (f : Machine.Fault) : Prop where
  split : ∃ after, ops = before ++ op :: after
  state : (EvalState.start input).run false (before.map (·.val)) = .ok s
  blocked : Blocked s op.val f

/-- The code fails in the part that belongs to one operation. -/
structure FailsAt (l : Lowering) (m : Machine) (body : List Instr) (before : List (Located Op))
    (op : Located Op) (m' : Machine) (f : Machine.Fault) : Prop where
  place : ∃ head p own q tail, l.code (.empty l.registers) before = .ok (head, p) ∧
    op.val.lower p = .ok (own, q) ∧ body = head ++ (l.heading op.val ++ own) ++ tail ∧
    ∃ m₁, m.run head = ⟨m₁, .ended⟩ ∧ m₁.run (l.heading op.val ++ own) = ⟨m', .faulted f⟩
  halt : m.run body = ⟨m', .faulted f⟩

/-- Evaluation takes every operation of a listing that has code, or it is blocked. -/
theorem taken_or_blocked (h : l.code (.empty l.registers) ops = .ok (body, last))
    (input : List Int32) :
    (∃ t, (EvalState.start input).run false (ops.map (·.val)) = .ok t) ∨
      ∃ before op s f, BlockedAt input ops before op s f := by
  rcases run_or_blocked (s := .start input) (supplied_of_code h) with
    ht | ⟨before, op, after, s, f, hsplit, hs, hb⟩
  · exact .inl ht
  · exact .inr ⟨before, op, s, f, ⟨after, hsplit⟩, hs, hb⟩

/-- A blocked operation stops the code in its own part, with everything before it done. -/
theorem fails_of_blocked {input : List Int32} {before : List (Located Op)} {op : Located Op}
    {f : Machine.Fault} (h : l.code (.empty l.registers) ops = .ok (body, last))
    (hm : m.Fresh input) (hb : BlockedAt input ops before op s f) :
    ∃ m', FailsAt l m body before op m' f ∧ m'.output = s.output ∧
      ∀ x, m'.globals ("global_" ++ x) = s.globals x := by
  obtain ⟨after, rfl⟩ := hb.split
  obtain ⟨head, p, own, q, tail, hhead, hown, htail, rfl⟩ := Lowering.code_split h
  have hc := Placement.canonical_empty l.registers
  obtain ⟨m₁, hend, hm₁, -⟩ := code_takes hhead hc (hm.matches _) hb.state
  have hp := (Lowering.code_canonical hhead hc).1
  obtain ⟨m', hfails, houtput, hglobals⟩ := hown.fails hp hm₁ hb.blocked
  have hpart := (heading_ends l op.val m₁).append_fails hfails
  refine ⟨m', ⟨⟨head, p, own, q, tail, hhead, lower_eq_ok.mpr hown, rfl, m₁, hend, hpart⟩,
    (hend.append_fails hpart).append tail⟩, houtput.trans hm₁.output, fun x => ?_⟩
  rw [hglobals]
  exact hm₁.globals x

/-- Code that does not fail on an input belongs to operations that can all be taken on it. -/
theorem taken_of_not_faulted {input : List Int32}
    (h : l.code (.empty l.registers) ops = .ok (body, last)) (hm : m.Fresh input)
    (hbody : ∀ f, (m.run body).stop ≠ .faulted f) :
    ∃ t, (EvalState.start input).run false (ops.map (·.val)) = .ok t := by
  rcases taken_or_blocked h input with ht | ⟨before, op, s, f, hb⟩
  · exact ht
  · obtain ⟨m', hfails, -⟩ := fails_of_blocked h hm hb
    exact absurd (by rw [hfails.halt]) (hbody f)

/-- **Code fails exactly where evaluation is blocked**: at the code of the first operation with no
input left or a zero divisor, with the fault that says so and the output and the globals of the
evaluation up to there. There is no other fault. -/
theorem lowered_faults (registers : UInt8) (comments : Bool) (ops : List (Located Op)) (r : Lowered)
    (hr : (Lowering.ofOptions registers comments).lower ops = .ok r) (input : List Int32)
    (m : Machine) (hm : m.Fresh input) :
    ((∃ f, (m.run r.body).stop = .faulted f) ↔
      ∃ before op s f, BlockedAt input ops before op s f) ∧
    (∀ before op s f, BlockedAt input ops before op s f →
      ∃ m', FailsAt (.ofOptions registers comments) m r.body before op m' f ∧
        m'.output = s.output ∧ ∀ x, m'.globals ("global_" ++ x) = s.globals x) ∧
    ∀ f, (m.run r.body).stop = .faulted f → f = .inputExhausted ∨ f = .divisionByZero := by
  have hcode := (Lowering.lower_eq_ok_iff.mp hr).1
  have hfails {before op s f} (hb : BlockedAt input ops before op s f) :=
    fails_of_blocked hcode hm hb
  -- Without a blocked operation the code runs to its end.
  have hblocked {f} (hf : (m.run r.body).stop = .faulted f) :
      ∃ before op s f, BlockedAt input ops before op s f := by
    rcases taken_or_blocked hcode input with ⟨t, ht⟩ | hb
    · have hc := Placement.canonical_empty (Placement.usable registers)
      obtain ⟨m', hend, -, -⟩ := code_takes hcode hc (hm.matches _) ht
      rw [show m.run r.body = _ from hend] at hf
      cases hf
    · exact hb
  refine ⟨⟨fun ⟨f, hf⟩ => hblocked hf, ?_⟩, fun before op s f hb => hfails hb, ?_⟩
  · rintro ⟨before, op, s, f, hb⟩
    obtain ⟨m', hf, -⟩ := hfails hb
    exact ⟨f, by rw [hf.halt]⟩
  · intro f hf
    obtain ⟨before, op, s, f', hb⟩ := hblocked hf
    obtain ⟨m', hf', -⟩ := hfails hb
    rw [hf'.halt] at hf
    cases hf
    exact hb.blocked.fault

/-- A listing that writes 3 and then divides by zero. -/
def dividing : List (Located Op) :=
  [.const 3, .write, .read, .const 0, .binary .mod, .store "x"].map (⟨·, .nowhere⟩)

def dividingCode : Lowered where
  body := [.mov (.imm 3) Reg.ebx, .push Reg.ebx, .call "write", .pop Reg.eax, .call "read",
    .mov Reg.eax Reg.ebx, .mov (.imm 0) Reg.ecx, .mov Reg.ebx Reg.eax, .cltd, .idiv Reg.ecx,
    .mov Reg.edx Reg.ebx, .mov Reg.ebx (.mem "global_x")]
  placement := ⟨[], 0, ["x"], 2⟩
  warnings := []

theorem dividing_faults :
    (Lowering.ofOptions 2 false).lower dividing = .ok dividingCode ∧
    (Machine.start [5]).Fresh [5] ∧
    ∃ m', (Machine.start [5]).run dividingCode.body = ⟨m', .faulted .divisionByZero⟩ ∧
      m'.output = [3] := by
  have hlower : (Lowering.ofOptions 2 false).lower dividing = .ok dividingCode := rfl
  have hfresh := Machine.start_fresh [5]
  have hblocked : BlockedAt [5] dividing (dividing.take 4) ⟨.binary .mod, .nowhere⟩
      ⟨[0, 5], fun _ => 0, [], [3]⟩ .divisionByZero :=
    ⟨⟨[⟨.store "x", .nowhere⟩], rfl⟩, rfl, .divisor rfl rfl⟩
  obtain ⟨m', hfails, houtput, -⟩ :=
    (lowered_faults 2 false dividing dividingCode hlower [5] _ hfresh).2.1 _ _ _ _ hblocked
  exact ⟨hlower, hfresh, m', hfails.halt, houtput⟩

end StackBackend
