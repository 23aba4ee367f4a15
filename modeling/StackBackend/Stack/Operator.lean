/-! The thirteen binary operators of stack code.

Each has one symbol, and each belongs to a family: operators of one family are compiled to one
shape of code. -/
namespace StackBackend

inductive Operator where
  | add
  | sub
  | mul
  | div
  | mod
  | eq
  | ne
  | lt
  | le
  | gt
  | ge
  | and
  | or
  deriving DecidableEq, Repr

inductive Additive where
  | add
  | sub
  deriving DecidableEq, Repr

inductive Connective where
  | and
  | or
  deriving DecidableEq, Repr

inductive Relation where
  | lt
  | le
  | eq
  | ne
  | ge
  | gt
  deriving DecidableEq, Repr

inductive Product where
  | mul
  | quotient
  | remainder
  deriving DecidableEq, Repr

inductive Family where
  | arithmetic (op : Additive)
  | logical (op : Connective)
  | comparison (op : Relation)
  | multiplicative (op : Product)
  deriving DecidableEq, Repr

/-- A word that is no operator's symbol. -/
structure UnknownOperator where
  word : String
  deriving DecidableEq, Repr

def UnknownOperator.message (e : UnknownOperator) : String :=
  "unknown operator `" ++ e.word ++ "`"

namespace Operator

def all : List Operator := [add, sub, mul, div, mod, eq, ne, lt, le, gt, ge, and, or]

def symbol : Operator → String
  | add => "+"
  | sub => "-"
  | mul => "*"
  | div => "/"
  | mod => "%"
  | eq => "=="
  | ne => "!="
  | lt => "<"
  | le => "<="
  | gt => ">"
  | ge => ">="
  | and => "&&"
  | or => "!!"

def read (word : String) : Except UnknownOperator Operator :=
  match all.find? (·.symbol = word) with
  | some op => .ok op
  | none => .error ⟨word⟩

def family : Operator → Family
  | add => .arithmetic .add
  | sub => .arithmetic .sub
  | and => .logical .and
  | or => .logical .or
  | lt => .comparison .lt
  | le => .comparison .le
  | eq => .comparison .eq
  | ne => .comparison .ne
  | ge => .comparison .ge
  | gt => .comparison .gt
  | mul => .multiplicative .mul
  | div => .multiplicative .quotient
  | mod => .multiplicative .remainder

/-- A symbol names its operator and no other. -/
theorem read_symbol (op : Operator) : read op.symbol = .ok op := by
  cases op <;> rfl

theorem symbol_of_read {word : String} {op : Operator} (h : read word = .ok op) :
    op.symbol = word := by
  unfold read at h
  split at h
  next op' hf =>
    obtain rfl : op' = op := by injection h
    simpa using List.find?_some hf
  next => cases h

end Operator

end StackBackend
