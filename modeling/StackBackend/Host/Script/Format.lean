import StackBackend.Text.Decimal
import StackBackend.Text.Utf8

/-! Text with escapes, as scripts write it.

A backslash and a letter stand for a control character, and a backslash and up to three octal
digits for a byte. A format also has places for arguments, and is used again while it leaves some
of them. -/
namespace StackBackend.Script

def isOctal (c : Char) : Bool := '0' ≤ c && c ≤ '7'

/-- The number in up to `digits` octal digits, and what follows them. -/
def octal : Nat → List Char → Nat → Nat × List Char
  | 0, cs, n => (n, cs)
  | _, [], n => (n, [])
  | digits + 1, c :: cs, n =>
    if isOctal c then octal digits cs (n * 8 + (c.toNat - 48)) else (n, c :: cs)

/-- The control character that a letter stands for after a backslash. -/
def control? : Char → Option UInt8
  | 'a' => some 7
  | 'b' => some 8
  | 't' => some 9
  | 'n' => some 10
  | 'v' => some 11
  | 'f' => some 12
  | 'r' => some 13
  | '\\' => some 92
  | _ => none

/-- The byte of what follows a backslash, and the text after it. A backslash that escapes nothing
stands for itself. -/
def escaped (cs : List Char) : UInt8 × List Char :=
  match cs with
  | [] => (92, [])
  | c :: rest =>
    if isOctal c then
      let (n, left) := octal 3 cs 0
      (UInt8.ofNat n, left)
    else
      match control? c with
      | some b => (b, rest)
      | none => (92, cs)

def charBytes (c : Char) : List UInt8 := String.utf8EncodeChar c

/-- Text with its escapes replaced, and whether `\c` ends all output. An octal number can have a
zero before its three digits. `fuel` bounds the characters. -/
def unescape : Nat → List Char → List UInt8 × Bool
  | 0, _ | _, [] => ([], false)
  | _ + 1, '\\' :: 'c' :: _ => ([], true)
  | fuel + 1, '\\' :: '0' :: c :: rest =>
    let (b, left) := escaped (if isOctal c then c :: rest else '0' :: c :: rest)
    let (bytes, ends) := unescape fuel left
    (b :: bytes, ends)
  | fuel + 1, '\\' :: rest =>
    let (b, left) := escaped rest
    let (bytes, ends) := unescape fuel left
    (b :: bytes, ends)
  | fuel + 1, c :: rest =>
    let (bytes, ends) := unescape fuel rest
    (charBytes c ++ bytes, ends)

def unescaped (text : String) : List UInt8 × Bool := unescape text.toList.length text.toList

/-- What `echo` writes: its words with blanks between them, and a line feed unless the first word
asks for none. -/
def echoed (words : List String) : List UInt8 :=
  let (bare, words) :=
    match words with
    | "-n" :: rest => (true, rest)
    | _ => (false, words)
  let (bytes, ends) := unescaped (" ".intercalate words)
  if bare || ends then bytes else bytes ++ [10]

/-! ### Formats -/

/-- What a format made: its bytes, the arguments that it left, the complaints about them, and
whether `\c` ended it. -/
structure Formatted where
  bytes : List UInt8
  left : List String
  complaints : List String
  ends : Bool

/-- Text as wide as asked for. -/
def padded (leftward : Bool) (filler : Char) (width : Nat) (text : List Char) : List Char :=
  let missing := width - text.length
  if leftward then text ++ List.replicate missing ' ' else List.replicate missing filler ++ text

/-- A place for an argument. -/
structure Slot where
  leftward : Bool
  zero : Bool
  width : Nat
  precision : Option Nat
  kind : Char

/-- The number at the front of a text, and the rest. -/
def leadingNat (cs : List Char) : Nat × List Char :=
  ((Text.Decimal.readDigits (cs.takeWhile Char.isDigit)).getD 0, cs.dropWhile Char.isDigit)

/-- The place that follows a percent sign. -/
def Slot.read (cs : List Char) : Option (Slot × List Char) :=
  let flags := cs.takeWhile ("-0+ #".toList.contains ·)
  let (width, rest) := leadingNat (cs.drop flags.length)
  let (precision, rest) :=
    match rest with
    | '.' :: more => ((some (leadingNat more).1, (leadingNat more).2) : Option Nat × List Char)
    | _ => (none, rest)
  match rest with
  | kind :: more => some (⟨flags.contains '-', flags.contains '0', width, precision, kind⟩, more)
  | [] => none

/-- The text of an argument at its place, and the complaint about it. -/
def Slot.fill (s : Slot) (argument : String) : List UInt8 × List String × Bool :=
  let encode (filler : Char) (cs : List Char) : List UInt8 :=
    Text.Utf8.encode (String.ofList (padded s.leftward filler s.width cs))
  let cut (cs : List Char) : List Char :=
    match s.precision with
    | some n => cs.take n
    | none => cs
  match s.kind with
  | 's' => (encode ' ' (cut argument.toList), [], false)
  | 'c' => (encode ' ' (argument.toList.take 1), [], false)
  | 'b' =>
    let (bytes, ends) := unescaped argument
    (bytes, [], ends)
  | 'd' | 'i' | 'u' =>
    let filler := if s.zero ∧ !s.leftward then '0' else ' '
    match if argument = "" then some 0 else Text.Decimal.readInt argument.toList with
    | some n => (encode filler (Text.Decimal.writeInt n).toList, [], false)
    | none => (encode filler ['0'], [argument ++ ": expected numeric value"], false)
  | kind => ([], ["%" ++ String.singleton kind ++ ": invalid directive"], true)

/-- A format used once. `fuel` bounds its characters. -/
def formatOnce (fuel : Nat) (cs : List Char) (arguments : List String) : Formatted :=
  match fuel, cs with
  | 0, _ | _, [] => ⟨[], arguments, [], false⟩
  | fuel + 1, '%' :: '%' :: rest =>
    let f := formatOnce fuel rest arguments
    {f with bytes := 37 :: f.bytes}
  | fuel + 1, '%' :: rest =>
    match Slot.read rest with
    | none => ⟨[37], arguments, [], false⟩
    | some (slot, more) =>
      let (bytes, complaints, ends) := slot.fill (arguments.head?.getD "")
      if ends then ⟨bytes, [], complaints, true⟩
      else
        let f := formatOnce fuel more arguments.tail
        {f with bytes := bytes ++ f.bytes, complaints := complaints ++ f.complaints}
  | fuel + 1, '\\' :: rest =>
    let (b, left) := escaped rest
    let f := formatOnce fuel left arguments
    {f with bytes := b :: f.bytes}
  | fuel + 1, c :: rest =>
    let f := formatOnce fuel rest arguments
    {f with bytes := charBytes c ++ f.bytes}

/-- A format used until no argument is left, or once when it takes none. -/
def formatAll (rounds : Nat) (cs : List Char) (arguments : List String) : Formatted :=
  let f := formatOnce cs.length cs arguments
  match rounds with
  | 0 => f
  | rounds + 1 =>
    if f.ends ∨ f.left = [] ∨ f.left = arguments then f
    else
      let g := formatAll rounds cs f.left
      {g with bytes := f.bytes ++ g.bytes, complaints := f.complaints ++ g.complaints}

end StackBackend.Script
