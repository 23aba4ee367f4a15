import StackBackend.Stack.Operator
import StackBackend.Text.Decimal

/-! The operations of stack code, in the words of its listings. -/
namespace StackBackend

inductive Op where
  | read
  | write
  | const (value : Int32)
  | load (name : String)
  | store (name : String)
  | binary (operator : Operator)
  deriving DecidableEq, Repr

namespace Op

def text : Op → String
  | read => "READ"
  | write => "WRITE"
  | const v => "CONST " ++ Text.Decimal.writeInt v.toInt
  | load x => "LD " ++ x
  | store x => "ST " ++ x
  | binary op => "BINOP " ++ op.symbol

/-- Values taken from the stack. -/
def pops : Op → Nat
  | read | const _ | load _ => 0
  | write | store _ => 1
  | binary _ => 2

/-- Values left on the stack. -/
def pushes : Op → Nat
  | read | const _ | load _ | binary _ => 1
  | write | store _ => 0

/-- The global an operation refers to. -/
def global? : Op → Option String
  | load x | store x => some x
  | read | write | const _ | binary _ => none

end Op

end StackBackend
