import StackBackend.Log
import StackBackend.Settings
import StackBackend.Text.Blank
import StackBackend.Text.Decimal

/-! The text of a settings file.

A file is read line by line. A line is blank or a comment, or it is the header of a section, or
it gives a key a value; keys belong to the section of the nearest header above them. Of several
values for one key the last one counts. Keys that mean nothing are passed over with a warning,
and the first line that cannot be read is the only error. -/
namespace StackBackend.Settings

open Text (trim trimEnd before splitOnce pieces)

/-! ### Lines -/

inductive Line where
  | blank
  | header (sectionName : List Char)
  | entry (key value : List Char)
  | other
  deriving DecidableEq, Repr

/-- A key without the double quotes around it. -/
def bareKey (key : List Char) : List Char :=
  ((key.dropWhile (· = '"')).reverse.dropWhile (· = '"')).reverse

/-- A value without what follows it. A value in quotes ends at the closing quote and any other
before its comment; a quote that is never closed keeps the whole value. -/
def bareValue : List Char → List Char
  | '"' :: rest =>
    match splitOnce '"' rest with
    | some (inside, _) => '"' :: inside ++ ['"']
    | none => '"' :: rest
  | value => trimEnd (before '#' value)

def Line.ofText (text : List Char) : Line :=
  match trim text with
  | [] | '#' :: _ => .blank
  | t =>
    if t.head? = some '[' ∧ t.getLast? = some ']' then .header (trim t.tail.dropLast)
    else
      match splitOnce '=' t with
      | none => .other
      | some (key, value) => .entry (bareKey (trim key)) (bareValue (trim value))

/-! ### Entries -/

/-- What an entry sets. -/
inductive Setting where
  | registers (count : UInt8)
  | runtime (path : String)
  | compiler (command : String)
  | unknown (key : String)
  deriving DecidableEq, Repr

inductive Problem where
  | notAnEntry
  | notAnInteger (value : String)
  | notQuoted (value : String)
  deriving DecidableEq, Repr

structure Error where
  line : Nat
  problem : Problem
  deriving DecidableEq, Repr

def Error.message (e : Error) : String :=
  fileName ++ ":" ++ toString e.line ++ ": " ++
    match e.problem with
    | .notAnEntry => "expected `key = value`"
    | .notAnInteger v => "`registers` must be an integer, got `" ++ v ++ "`"
    | .notQuoted v => "expected a quoted string, got `" ++ v ++ "`"

/-- The text between double quotes. -/
def quoted (value : List Char) : Except Problem String :=
  match value with
  | '"' :: rest =>
    if rest.getLast? = some '"' then .ok (String.ofList rest.dropLast)
    else .error (.notQuoted (String.ofList value))
  | _ => .error (.notQuoted (String.ofList value))

def Setting.read (sectionName key value : List Char) : Except Problem Setting :=
  match String.ofList sectionName, String.ofList key with
  | "target", "registers" =>
    match Text.Decimal.readUInt8 value with
    | some n => .ok (.registers n)
    | none => .error (.notAnInteger (String.ofList value))
  | "build", "runtime" => (quoted value).map .runtime
  | "build", "cc" => (quoted value).map .compiler
  | _, key => .ok (.unknown key)

/-- The readings of the lines that are entries, or should be, each with the number of its line.
`number` is that of the first line, and `sectionName` the section that it stands in. -/
def readings (sectionName : List Char) (number : Nat) :
    List (List Char) → List (Nat × Except Problem Setting)
  | [] => []
  | line :: lines =>
    match Line.ofText line with
    | .blank => readings sectionName (number + 1) lines
    | .header name => readings name (number + 1) lines
    | .entry key value =>
      (number, Setting.read sectionName key value) :: readings sectionName (number + 1) lines
    | .other => (number, .error .notAnEntry) :: readings sectionName (number + 1) lines

def allReadings (content : String) : List (Nat × Except Problem Setting) :=
  readings [] 1 (pieces '\n' content.toList)

/-! ### Files -/

def set (s : Settings) : Setting → Settings
  | .registers n => {s with registers := some n}
  | .runtime p => {s with runtime := some (s.root.join ⟨p⟩)}
  | .compiler c => {s with compiler := some c}
  | .unknown _ => s

def setAll (s : Settings) : List (Nat × Except Problem Setting) → Except Error Settings
  | [] => .ok s
  | (number, reading) :: rest =>
    match reading with
    | .ok setting => (s.set setting).setAll rest
    | .error problem => .error ⟨number, problem⟩

/-- The settings of a file in the directory `root`. -/
def read (root : Path) (content : String) : Except Error Settings :=
  ({root} : Settings).setAll (allReadings content)

/-- The warnings about keys that mean nothing, up to the first error. -/
def unknownKeys : List (Nat × Except Problem Setting) → List Log.Entry
  | (number, .ok (.unknown key)) :: rest =>
    ⟨.warn, fileName ++ ":" ++ toString number ++ ": ignoring unknown key `" ++ key ++ "`"⟩ ::
      unknownKeys rest
  | (_, .ok _) :: rest => unknownKeys rest
  | (_, .error _) :: _ | [] => []

/-- The messages of `read`. -/
def log (content : String) : List Log.Entry := unknownKeys (allReadings content)

end StackBackend.Settings
