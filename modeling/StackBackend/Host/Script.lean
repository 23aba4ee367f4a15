import StackBackend.Host.Script.Format
import StackBackend.Host.Script.Tool
import StackBackend.Text.Blank

/-! Scripts: the programs of a simulated system.

A script runs statement by statement. A statement leaves a status, which is zero when it went
well, and what the next one does can depend on it. What a script shows to the outside is how it
ends, what it wrote to its standard error, and the files that it left. -/
namespace StackBackend.Script

namespace Shell

/-! ### Tests -/

def isFile (s : Shell) (path : String) : Bool :=
  match s.world.locate ⟨path⟩ with
  | .ok (.file _ _) | .ok (.tool _) => true
  | _ => false

/-- A test with one operand, or nothing when there is none of that name. -/
def unary? (s : Shell) (op operand : String) : Option Bool :=
  match op with
  | "-n" => some (operand ≠ "")
  | "-z" => some (operand = "")
  | "-e" | "-r" | "-w" => some (s.world.isThere ⟨operand⟩)
  | "-f" => some (s.isFile operand)
  | "-d" => some (s.world.isThere ⟨operand⟩ && !s.isFile operand)
  | "-s" =>
    match s.world.locate ⟨operand⟩ with
    | .ok (.file bytes _) => some (!bytes.isEmpty)
    | .ok _ => some true
    | .error _ => some false
  | "-x" =>
    match s.world.locate ⟨operand⟩ with
    | .ok (.file _ x) => some x
    | .ok _ => some true
    | .error _ => some false
  | _ => none

/-- The comparison of numbers that a word names. -/
def comparison? : String → Option (Int → Int → Bool)
  | "-eq" => some fun a b => a = b
  | "-ne" => some fun a b => a ≠ b
  | "-lt" => some fun a b => a < b
  | "-le" => some fun a b => a ≤ b
  | "-gt" => some fun a b => a > b
  | "-ge" => some fun a b => a ≥ b
  | _ => none

/-- The result of a test, or what is wrong with it. -/
def test (s : Shell) : List String → Except String Bool
  | [] => .ok false
  | [a] => .ok (a ≠ "")
  | ["!", a] => .ok (a = "")
  | [op, a] =>
    match s.unary? op a with
    | some b => .ok b
    | none => .error (op ++ ": unexpected operator")
  | [a, "=", b] => .ok (a = b)
  | [a, "!=", b] => .ok (a ≠ b)
  | [a, op, b] =>
    match comparison? op, Text.Decimal.readInt a.toList, Text.Decimal.readInt b.toList with
    | some f, some m, some n => .ok (f m n)
    | some _, none, _ => .error ("Illegal number: " ++ a)
    | some _, _, none => .error ("Illegal number: " ++ b)
    | none, _, _ =>
      if a = "!" then
        match s.unary? op b with
        | some r => .ok !r
        | none => .error (op ++ ": unexpected operator")
      else .error (op ++ ": unexpected operator")
  | ["!", a, "=", b] => .ok (a ≠ b)
  | ["!", a, "!=", b] => .ok (a = b)
  | a :: _ => .error (a ++ ": unexpected operator")

def runTest (s : Shell) (line : Nat) (name : String) (words : List String) : Shell :=
  match s.test words with
  | .ok true => s.withStatus 0
  | .ok false => s.withStatus 1
  | .error e => s.refuse line (name ++ ": " ++ e) 2

/-! ### Commands -/

/-- The commands of the shell for which a failed redirection ends the script. -/
def isSpecial (name : String) : Bool :=
  [":", "break", "continue", "exec", "exit", "export", "set", "shift", "unset"].contains name

def largestStatus : Nat := 2147483647

/-- A number given to a command of the shell, with blanks around it or without. -/
def readNumber (word : String) : Except String Nat :=
  match Text.Decimal.readDigits (Text.trim word.toList) with
  | some n => if n ≤ largestStatus then .ok n else .error ("Illegal number: " ++ word)
  | none => .error ("Illegal number: " ++ word)

def exit (s : Shell) (line : Nat) (words : List String) : Shell :=
  match words with
  | [] => {s with flow := .exit}
  | w :: _ =>
    match readNumber w with
    | .ok n => {s with status := n % 256, flow := .exit}
    | .error e => {s.refuse line ("exit: " ++ e) 2 with flow := .exit}

def shift (s : Shell) (line : Nat) (words : List String) : Shell :=
  match readNumber (words.head?.getD "1") with
  | .error e => {s.refuse line ("shift: " ++ e) 2 with flow := .exit}
  | .ok n =>
    if n ≤ s.arguments.length then {s with arguments := s.arguments.drop n, status := 0}
    else {s.refuse line "shift: can't shift that many" 2 with flow := .exit}

def set (s : Shell) : List String → Shell
  | "--" :: words => {s with arguments := words, status := 0}
  | w :: rest =>
    if w.startsWith "-" then ({s with strict := s.strict || w.toList.contains 'e'}).set rest
    else if w.startsWith "+" then ({s with strict := s.strict && !w.toList.contains 'e'}).set rest
    else {s with arguments := w :: rest, status := 0}
  | [] => s.withStatus 0

/-- Sets the variables of `export` and its like. -/
def bindAll (s : Shell) (words : List String) : Shell :=
  words.foldl
    (fun s w =>
      match Text.splitOnce '=' w.toList with
      | some (name, value) => {s with bindings := (name, String.ofList value) :: s.bindings}
      | none => s)
    (s.withStatus 0)

def cd (s : Shell) (line : Nat) (path : String) : Shell :=
  match s.world.find ⟨path⟩ with
  | .ok (place, .directory) => {s with world := {s.world with cwd := place}, status := 0}
  | _ => s.refuse line ("cd: can't cd to " ++ path) 2

def signals : List Signal :=
  [.hangup, .interrupt, .kill, .user1, .user2, .pipe, .alarm, .terminate]

/-- Sends a signal to the script itself, by its number or name. -/
def kill (s : Shell) (words : List String) : Shell :=
  let named := words.filterMap fun w =>
    let chars := if w.startsWith "-" then w.toList.drop 1 else w.toList
    let word := String.ofList (if chars.take 3 = "SIG".toList then chars.drop 3 else chars)
    signals.find? fun g => g.name = word || (w.startsWith "-" && toString g.number = word)
  {s with flow := .killed (named.head?.getD .terminate)}

def printf (s : Shell) (line : Nat) : List String → Shell
  | [] => s.refuse line "printf: usage: printf format [arg ...]" 2
  | cs :: words =>
    let f := formatAll words.length cs.toList words
    let said := f.complaints.foldl (fun s c => s.complain line ("printf: " ++ c)) s
    (said.print f.bytes).withStatus (if f.complaints = [] then 0 else 1)

/-- A command that is neither the shell's nor one on files. -/
def unknown (s : Shell) (line : Nat) (name : String) : Shell :=
  match if name.toList.contains '/' then s.world.locate ⟨name⟩ else .error .notFound with
  | .ok (.tool (.idle status)) => s.withStatus status
  | .ok _ | .error .denied => s.refuse line (name ++ ": Permission denied") 126
  | .error _ => s.refuse line (name ++ ": not found") 127

def command (s : Shell) (line : Nat) : List String → Shell
  | [] => s.withStatus 0
  | name :: words =>
    match name with
    | "true" | ":" | "wait" | "sleep" | "umask" => s.withStatus 0
    | "false" => s.withStatus 1
    | "echo" => (s.print (echoed words)).withStatus 0
    | "printf" => s.printf line words
    | "exit" | "return" => s.exit line words
    | "test" => s.runTest line "test" words
    | "[" =>
      if words.getLast? = some "]" then s.runTest line "[" words.dropLast
      else s.refuse line "[: missing ]" 2
    | "shift" => s.shift line words
    | "set" => s.set words
    | "export" => s.bindAll words
    | "unset" =>
      {s with bindings := s.bindings.filter (fun b => !words.contains (String.ofList b.1)),
              status := 0}
    | "cd" => s.cd line (words.head?.getD "")
    | "break" => {s with flow := .leaveLoop, status := 0}
    | "continue" => {s with flow := .nextTurn, status := 0}
    | "kill" => s.kill words
    | name =>
      match Tool.named? name with
      | some run => run s words
      | none => s.unknown line name

/-- A command in place of the shell. -/
def replaceBy (s : Shell) (line : Nat) (name : String) (words : List String) : Shell :=
  let done := s.command line (name :: words)
  if done.status = 127 then s.refuse line ("exec: " ++ name ++ ": not found") 127 else done

/-- A command ends the script when it fails and nobody looks at its status. -/
def judge (s : Shell) : Shell :=
  if s.strict ∧ !s.guarded ∧ s.status ≠ 0 ∧ s.flow = .onward then {s with flow := .exit} else s

/-- A simple command. The redirections of `exec` alone stay. -/
def simple (s : Shell) (c : Simple) : Shell :=
  let words := c.words.flatMap s.expand
  let bound : Shell :=
    {s with bindings := (c.assignments.map fun (n, w) => (n, s.text w)).reverse ++ s.bindings}
  match c.redirections.foldlM (redirect c.line) bound with
  | .error t =>
    let failed := t.restore s
    if words.head?.any isSpecial then {failed with flow := .exit} else failed.judge
  | .ok t =>
    match words with
    | [] => ({t.restore s with status := 0}).judge
    | ["exec"] => t.withStatus 0
    | "exec" :: name :: words =>
      let done := (t.replaceBy c.line name words).restore s
      {done with flow := if done.flow = .onward then .exit else done.flow}
    | words =>
      let done := (t.command c.line words).restore s
      ({done with bindings := if words.head?.any isSpecial then done.bindings else s.bindings}).judge

/-! ### Statements -/

/-- Runs something whose status is looked at. -/
def guardedBy (s : Shell) (run : Shell → Shell) : Shell :=
  {run {s with guarded := true} with guarded := s.guarded}

/-- The turns of a loop, `turns` of them at most. -/
def repeated (holds : Bool) (test body : Shell → Shell) : Nat → Shell → Shell
  | 0, s => s
  | turns + 1, s =>
    let tested := s.guardedBy test
    if tested.flow ≠ .onward then tested
    else if (tested.status = 0) ≠ (holds = true) then tested.withStatus s.status
    else
      let done := body tested
      match done.flow with
      | .onward | .nextTurn => repeated holds test body turns {done with flow := .onward}
      | .leaveLoop => {done with flow := .onward}
      | .exit | .killed _ => done

/-- One turn for every item. -/
def forEach (name : List Char) (body : Shell → Shell) : List String → Shell → Shell
  | [], s => s
  | item :: items, s =>
    let done := body {s with bindings := (name, item) :: s.bindings}
    match done.flow with
    | .onward | .nextTurn => forEach name body items {done with flow := .onward}
    | .leaveLoop => {done with flow := .onward}
    | .exit | .killed _ => done

/-- What a part that runs by itself leaves to the rest: files, output and status. -/
def afterPart (part s : Shell) : Shell :=
  {s with world := {part.world with cwd := s.world.cwd}, report := part.report,
          status := part.status}

/-- The most turns of a loop. -/
def turnLimit : Nat := 100000

def run : Statement → Shell → Shell
  | .nothing, s => s
  | .simple c, s => s.simple c
  | .seq a b, s =>
    let t := run a s
    if t.flow = .onward then run b t else t
  | .both a b, s =>
    let t := s.guardedBy (run a)
    if t.flow = .onward ∧ t.status = 0 then run b t else t
  | .either a b, s =>
    let t := s.guardedBy (run a)
    if t.flow = .onward ∧ t.status ≠ 0 then run b t else t
  | .negate a, s =>
    let t := s.guardedBy (run a)
    if t.flow = .onward then t.withStatus (if t.status = 0 then 1 else 0) else t
  | .pipe a b, s =>
    let first := run a {s with output := .pipe, piped := []}
    let second := run b {first.afterPart s with input := first.piped}
    ({second.afterPart s with piped := second.piped}).judge
  | .choose test yes no, s =>
    let t := s.guardedBy (run test)
    if t.flow ≠ .onward then t
    else if t.status = 0 then run yes t
    else run no (t.withStatus 0)
  | .loop holds test body, s => repeated holds (run test) (run body) turnLimit (s.withStatus 0)
  | .each name items body, s =>
    forEach name (run body) (items.flatMap s.expand) (s.withStatus 0)
  | .select subject patterns body rest, s =>
    if patterns.any fun w => Glob.fits (s.glob w) (s.text subject).toList then
      run body (s.withStatus 0)
    else run rest s
  | .subshell body, s =>
    let part := run body s
    let after := {part.afterPart s with piped := part.piped}
    match part.flow with
    | .killed _ => {after with flow := part.flow}
    | _ => after.judge
  | .redirected line body rs, s => s.redirected line rs (run body)
  | .wrong line message, s => {s.refuse line message 2 with flow := .exit}

def ending (s : Shell) : Ending :=
  match s.flow with
  | .killed signal => .killed signal
  | _ => .exited (s.status % 256)

end Shell

/-- A script run with some arguments: how it ends, and the world after it. -/
def run (w : World) (strict : Bool) (name : String) (arguments : List String) (text : List Char) :
    Completion × World :=
  let s := Shell.run (parse text) (.start w name arguments strict)
  (⟨s.ending, s.report⟩, {s.world with cwd := w.cwd})

end StackBackend.Script
