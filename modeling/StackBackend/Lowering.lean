import StackBackend.Diagnostic
import StackBackend.Lowering.Emission

/-! Code for a whole listing.

The operations are taken in order, each at the placement that the one before it leaves. The code
of an operation can be headed by a comment that repeats it. `emit` writes the code, and `code` is
the same code as a value. -/
namespace StackBackend

/-- How code is generated. -/
structure Lowering where
  registers : UInt8
  comments : Bool
  deriving DecidableEq, Repr

/-- The code of a listing and the placement at its end. -/
structure Lowered where
  body : List Instr
  placement : Placement
  warnings : List Diagnostic
  deriving DecidableEq, Repr

namespace Lowering

def ofOptions (registers : UInt8) (comments : Bool) : Lowering :=
  ⟨Placement.usable registers, comments⟩

/-- An operation that has no code where it stands. -/
structure Failure where
  op : Located Op
  cause : Refusal
  deriving DecidableEq, Repr

/-- The report on a failure. A fault has none, since it says nothing about the listing. -/
def Failure.diagnostic (f : Failure) : Except Fault Diagnostic :=
  match f.cause with
  | .fault c => .error c
  | .underflow u =>
    .ok ((Diagnostic.error u.message f.op.span).withNote
      ("while lowering `" ++ f.op.val.text ++ "`"))

/-- The comment above an operation's code. -/
def heading (l : Lowering) (op : Op) : List Instr :=
  if l.comments then [.line ("# " ++ op.text)] else []

/-- The code of some operations from a placement on. -/
def code (l : Lowering) (p : Placement) :
    List (Located Op) → Except Failure (List Instr × Placement)
  | [] => .ok ([], p)
  | op :: rest => do
    let (own, q) ← (op.val.lower p).mapError (⟨op, ·⟩)
    let (more, last) ← l.code q rest
    return (l.heading op.val ++ own ++ more, last)

/-- Writes the code of some operations from a placement on, and gives the placement at its end. -/
def emit (l : Lowering) (p : Placement) : List (Located Op) → Emission Failure Placement
  | [] => return p
  | op :: rest => do
    (l.heading op.val).forM .put
    let q ← (op.val.emit p).adaptExcept (⟨op, ·⟩)
    l.emit q rest

/-- The warning about values that are pending at the end. -/
def leftover (p : Placement) (ops : List (Located Op)) : List Diagnostic :=
  match ops.getLast? with
  | none => []
  | some last =>
    if p.depth = 0 then []
    else
      [(Diagnostic.warning (toString p.depth ++ " value(s) left on the stack at end of program")
        last.span).withHelp "values that are never stored or written are discarded"]

def lower (l : Lowering) (ops : List (Located Op)) : Except Failure Lowered :=
  match (l.emit (.empty l.registers) ops).run #[] with
  | .ok p body => .ok ⟨body.toList, p, leftover p ops⟩
  | .error f _ => .error f

/-! ### Messages -/

/-- The messages while the code of some operations is generated. -/
def trail (l : Lowering) (p : Placement) : List (Located Op) → List Log.Entry
  | [] => []
  | op :: rest =>
    ⟨.trace, "lowering " ++ op.val.text ++ " (depth " ++ toString p.depth ++ ")"⟩ ::
      op.val.growth p ++
      match op.val.lower p with
      | .ok (_, q) => l.trail q rest
      | .error _ => []

def summary (ops : List (Located Op)) (r : Lowered) : Log.Entry :=
  ⟨.debug, "lowered " ++ toString ops.length ++ " op(s): " ++ toString r.body.length ++
    " instruction(s), frame " ++ toString r.placement.frame.toNat ++ " slot(s), " ++
    toString r.placement.globals.length ++ " global(s)"⟩

/-- All messages of `lower`, the last one only when it succeeds. -/
def log (l : Lowering) (ops : List (Located Op)) : List Log.Entry :=
  l.trail (.empty l.registers) ops ++
    match l.lower ops with
    | .ok r => [summary ops r]
    | .error _ => []

end Lowering

end StackBackend
