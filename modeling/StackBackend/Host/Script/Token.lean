/-! The tokens of a script.

A script is read character by character. A word is made of pieces, which remember whether they
stood in quotes: only bare characters can be keywords or patterns, and only a value outside of
quotes falls into several words. Every token knows the line on which it begins. -/
namespace StackBackend.Script

inductive Piece where
  | bare (char : Char)
  | quoted (chars : List Char)
  | value (name : List Char) (inQuotes : Bool)
  deriving DecidableEq, Repr

abbrev Word := List Piece

/-- How a file is opened, or another descriptor taken instead. -/
inductive Opening where
  | write
  | append
  | read
  | duplicate
  deriving DecidableEq, Repr

inductive Token where
  | word (pieces : Word)
  | redirect (descriptor : Nat) (opening : Opening)
  | newline
  | stop
  | doubleStop
  | background
  | both
  | either
  | bar
  | openGroup
  | closeGroup
  /-- A quote that is never closed. -/
  | unclosed
  /-- The end of the script. -/
  | final
  deriving DecidableEq, Repr

/-- A token and its line. -/
abbrev Tokens := List (Nat × Token)

inductive Mode where
  | plain
  | single
  | double
  | comment
  /-- After a backslash. -/
  | escape (inQuotes : Bool)
  /-- After a dollar sign. -/
  | dollar (inQuotes : Bool)
  | name (inQuotes : Bool) (chars : List Char)
  | brace (inQuotes : Bool) (chars : List Char)
  /-- After the first character of an operator, and the descriptor before it. -/
  | operator (first : Char) (descriptor : Option Nat)
  deriving DecidableEq, Repr

/-- The reader between two characters. -/
structure Lexer where
  mode : Mode
  line : Nat
  /-- The pieces of the word so far, the last first, and its line; none between words. -/
  word : Option (Nat × List Piece)

namespace Lexer

def add (l : Lexer) (p : Piece) : Lexer :=
  match l.word with
  | none => {l with word := some (l.line, [p])}
  | some (line, ps) => {l with word := some (line, p :: ps)}

/-- A character as it stands. -/
def addChar (l : Lexer) (inQuotes : Bool) (c : Char) : Lexer :=
  l.add (if inQuotes then .quoted [c] else .bare c)

/-- Back from a value or an escape to what surrounds it. -/
def outside (l : Lexer) (inQuotes : Bool) : Lexer :=
  {l with mode := if inQuotes then .double else .plain}

/-- The word that ends here. -/
def close (l : Lexer) : Tokens := (l.word.map fun (line, ps) => (line, .word ps.reverse)).toList

/-- The reader after the word. -/
def fresh (l : Lexer) (mode : Mode) : Lexer := {l with mode := mode, word := none}

/-- The digit that stands alone before a redirection is a descriptor. -/
def descriptor? (l : Lexer) : Option Nat :=
  match l.word with
  | some (_, [.bare c]) => if c.isDigit then some (c.toNat - 48) else none
  | _ => none

def isNameStart (c : Char) : Bool := c.isAlpha || c = '_'

def isNameRest (c : Char) : Bool := c.isAlphanum || c = '_'

/-- The names of one character that is not a letter. -/
def isSpecialName (c : Char) : Bool := c.isDigit || "@*#?$!-".toList.contains c

/-- A character in plain text. -/
def plainStep (l : Lexer) (c : Char) : Lexer × Tokens :=
  match c with
  | '\n' => (l.fresh .plain, l.close ++ [(l.line, .newline)])
  | '(' => (l.fresh .plain, l.close ++ [(l.line, .openGroup)])
  | ')' => (l.fresh .plain, l.close ++ [(l.line, .closeGroup)])
  | ';' | '&' | '|' => (l.fresh (.operator c none), l.close)
  | '<' | '>' =>
    match l.descriptor? with
    | some n => (l.fresh (.operator c (some n)), [])
    | none => (l.fresh (.operator c none), l.close)
  | '\'' => ({l.add (.quoted []) with mode := .single}, [])
  | '"' => ({l.add (.quoted []) with mode := .double}, [])
  | '$' => ({l with mode := .dollar false}, [])
  | '\\' => ({l with mode := .escape false}, [])
  | ' ' | '\t' => (l.fresh .plain, l.close)
  | '#' => if l.word.isNone then ({l with mode := .comment}, []) else (l.add (.bare c), [])
  | c => (l.add (.bare c), [])

def doubleStep (l : Lexer) (c : Char) : Lexer :=
  match c with
  | '"' => {l with mode := .plain}
  | '$' => {l with mode := .dollar true}
  | '\\' => {l with mode := .escape true}
  | c => l.add (.quoted [c])

/-- A character in plain text or between double quotes. -/
def textStep (l : Lexer) (inQuotes : Bool) (c : Char) : Lexer × Tokens :=
  if inQuotes then ((l.outside true).doubleStep c, []) else (l.outside false).plainStep c

/-- The operator with one character only. -/
def short (first : Char) (descriptor : Option Nat) : Token :=
  match first with
  | ';' => .stop
  | '&' => .background
  | '|' => .bar
  | '<' => .redirect (descriptor.getD 0) .read
  | _ => .redirect (descriptor.getD 1) .write

/-- The operator with two characters, if there is one. -/
def long? (first : Char) (descriptor : Option Nat) (second : Char) : Option Token :=
  match first, second with
  | ';', ';' => some .doubleStop
  | '&', '&' => some .both
  | '|', '|' => some .either
  | '>', '>' => some (.redirect (descriptor.getD 1) .append)
  | '>', '&' => some (.redirect (descriptor.getD 1) .duplicate)
  | '>', '|' => some (.redirect (descriptor.getD 1) .write)
  | '<', '&' => some (.redirect (descriptor.getD 0) .duplicate)
  | _, _ => none

def stepHere (l : Lexer) (c : Char) : Lexer × Tokens :=
  match l.mode with
  | .plain => l.plainStep c
  | .double => (l.doubleStep c, [])
  | .single => if c = '\'' then ({l with mode := .plain}, []) else (l.add (.quoted [c]), [])
  | .comment => if c = '\n' then (l.fresh .plain, [(l.line, .newline)]) else (l, [])
  | .escape inQuotes =>
    if c = '\n' then (l.outside inQuotes, [])
    else if inQuotes ∧ !"$`\"\\".toList.contains c then
      ((l.add (.quoted ['\\', c])).outside true, [])
    else ((l.add (.quoted [c])).outside inQuotes, [])
  | .dollar inQuotes =>
    if c = '\x7b' then ({l with mode := .brace inQuotes []}, [])
    else if isSpecialName c then ((l.add (.value [c] inQuotes)).outside inQuotes, [])
    else if isNameStart c then ({l with mode := .name inQuotes [c]}, [])
    else (l.addChar inQuotes '$').textStep inQuotes c
  | .name inQuotes chars =>
    if isNameRest c then ({l with mode := .name inQuotes (c :: chars)}, [])
    else (l.add (.value chars.reverse inQuotes)).textStep inQuotes c
  | .brace inQuotes chars =>
    if c = '\x7d' then ((l.add (.value chars.reverse inQuotes)).outside inQuotes, [])
    else ({l with mode := .brace inQuotes (c :: chars)}, [])
  | .operator first descriptor =>
    match long? first descriptor c with
    | some t => (l.fresh .plain, [(l.line, t)])
    | none =>
      let (next, more) := (l.fresh .plain).plainStep c
      (next, (l.line, short first descriptor) :: more)

def step (l : Lexer) (c : Char) : Lexer × Tokens :=
  let (next, tokens) := l.stepHere c
  (if c = '\n' then {next with line := next.line + 1} else next, tokens)

/-- The tokens that the end of the text completes. -/
def rest (l : Lexer) : Tokens :=
  match l.mode with
  | .plain => l.close
  | .comment => []
  | .single | .double | .brace _ _ => [(l.line, .unclosed)]
  | .escape inQuotes => (l.addChar inQuotes '\\').close
  | .dollar inQuotes => (l.addChar inQuotes '$').close
  | .name inQuotes chars => (l.add (.value chars.reverse inQuotes)).close
  | .operator first descriptor => [(l.line, short first descriptor)]

def tokens (l : Lexer) : List Char → Tokens
  | [] => l.rest ++ [(l.line, .final)]
  | c :: cs => (l.step c).2 ++ (l.step c).1.tokens cs

end Lexer

def tokens (text : List Char) : Tokens := Lexer.tokens ⟨.plain, 1, none⟩ text

end StackBackend.Script
