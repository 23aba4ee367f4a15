import StackBackend.Diagnostic
import StackBackend.Stack.Op
import StackBackend.Text.Blank
import StackBackend.Text.Split

/-! Listings: stack code as text, one operation a line.

A line ends at its newline and its code at the first `#`. What is left is cut into words at
blanks; a line without words says nothing, and every other line is one operation. Each line is
read by itself, so a listing has one error for each bad line and the errors come in the order of
the lines. -/
namespace StackBackend.Listing

/-- What can be wrong with a line. -/
inductive Error where
  | takesNoOperand (mnemonic : String)
  | expectsOneOperand (mnemonic : String)
  | invalidInteger (word : String)
  | invalidName (word : String)
  | unknownOperator (cause : UnknownOperator)
  | unknownInstruction (word : String)
  deriving DecidableEq, Repr

namespace Error

def message : Error → String
  | takesNoOperand m => "`" ++ m ++ "` takes no operand"
  | expectsOneOperand m => "`" ++ m ++ "` expects one operand"
  | invalidInteger w => "invalid integer `" ++ w ++ "`"
  | invalidName w => "invalid global name `" ++ w ++ "`"
  | unknownOperator e => e.message
  | unknownInstruction w => "unknown instruction `" ++ w ++ "`"

def notes : Error → List String
  | invalidInteger _ => ["constants are 32-bit signed integers"]
  | _ => []

def help : Error → Option String
  | unknownOperator _ => some ("expected one of " ++ " ".intercalate (Operator.all.map (·.symbol)))
  | unknownInstruction _ => some "expected READ, WRITE, CONST, LD, ST or BINOP"
  | _ => none

def diagnostic (e : Located Error) : Diagnostic :=
  ⟨.error, e.val.message, e.span, e.val.notes, e.val.help⟩

end Error

/-! ### Words -/

/-- The maximal runs of characters that are not blank, each with the byte at which it starts.
`start` is the byte at which the text starts. -/
def runs (start : Nat) : List Char → List (Nat × List Char)
  | [] => []
  | c :: cs =>
    let rest := runs (start + c.utf8Size) cs
    if Text.isBlank c then rest
    else
      match cs, rest with
      | d :: _, (_, w) :: ws => if Text.isBlank d then (start, [c]) :: rest else (start, c :: w) :: ws
      | _, _ => (start, [c]) :: rest

def words (start : Nat) (code : List Char) : List (Located String) :=
  (runs start code).map fun (first, w) =>
    ⟨String.ofList w, .ofBytes first (first + Text.byteLength w)⟩

/-! ### Lines -/

/-- A letter or an underscore, then letters, digits and underscores, all ASCII. -/
def isName (word : String) : Bool :=
  match word.toList with
  | [] => false
  | c :: cs => (c.isAlpha || c = '_') && cs.all fun d => d.isAlphanum || d = '_'

/-- The span from the first of some words to the last. -/
def spanOf (word : Located String) (more : List (Located String)) : Span :=
  word.span.merge ((more.getLast?.getD word).span)

def noOperand (mnemonic : Located String) (operands : List (Located String)) (op : Op) :
    Except (Located Error) Op :=
  match operands with
  | [] => .ok op
  | w :: ws => .error ⟨.takesNoOperand mnemonic.val, spanOf w ws⟩

def oneOperand (mnemonic : Located String) (operands : List (Located String))
    (read : String → Except Error Op) : Except (Located Error) Op :=
  match operands with
  | [] => .error ⟨.expectsOneOperand mnemonic.val, mnemonic.span⟩
  | [w] => (read w.val).mapError (⟨·, w.span⟩)
  | _ :: w :: ws => .error ⟨.expectsOneOperand mnemonic.val, spanOf w ws⟩

def readConst (word : String) : Except Error Op :=
  match Text.Decimal.readInt32 word.toList with
  | some v => .ok (.const v)
  | none => .error (.invalidInteger word)

def readGlobal (op : String → Op) (word : String) : Except Error Op :=
  if isName word then .ok (op word) else .error (.invalidName word)

def readOperator (word : String) : Except Error Op :=
  ((Operator.read word).map .binary).mapError .unknownOperator

/-- The operation that a mnemonic and its operands spell. -/
def readOp (mnemonic : Located String) (operands : List (Located String)) :
    Except (Located Error) Op :=
  match mnemonic.val with
  | "READ" => noOperand mnemonic operands .read
  | "WRITE" => noOperand mnemonic operands .write
  | "CONST" => oneOperand mnemonic operands readConst
  | "LD" => oneOperand mnemonic operands (readGlobal .load)
  | "ST" => oneOperand mnemonic operands (readGlobal .store)
  | "BINOP" => oneOperand mnemonic operands readOperator
  | word => .error ⟨.unknownInstruction word, mnemonic.span⟩

/-- The reading of one line that starts at byte `start`; none when the line has no words. -/
def readLine (start : Nat) (line : List Char) :
    Option (Except (Located Error) (Located Op)) :=
  match words start (Text.before '#' line) with
  | [] => none
  | w :: ws => some ((readOp w ws).map (⟨·, spanOf w ws⟩))

def readLines (start : Nat) : List (List Char) → List (Except (Located Error) (Located Op))
  | [] => []
  | line :: lines =>
    (readLine start line).toList ++ readLines (start + Text.byteLength line + 1) lines

/-! ### Listings -/

/-- All operations when every line can be read, and all errors otherwise. -/
def gather (readings : List (Except (Located Error) (Located Op))) :
    Except (List (Located Error)) (List (Located Op)) :=
  match readings.filterMap fun | .error e => some e | .ok _ => none with
  | [] => .ok (readings.filterMap Except.toOption)
  | errors => .error errors

def read (source : String) : Except (List (Located Error)) (List (Located Op)) :=
  gather (readLines 0 (Text.pieces '\n' source.toList))

/-- The listing of some operations. -/
def print (ops : List Op) : String :=
  String.join (ops.map fun op => op.text ++ "\n")

end StackBackend.Listing
