import StackBackend.Host.Script

/-! The simulated system as a host. -/
namespace StackBackend

namespace World

/-! ### Starting programs -/

/-- The interpreter that the first line of a script names, and the argument that can follow it. -/
def interpreter? (bytes : List UInt8) : Option (String × List String) :=
  match bytes with
  | 35 :: 33 :: rest =>
    let line := rest.takeWhile fun b => b ≠ 10 && b ≠ 0
    let isGap (c : Char) : Bool := c = ' ' || c = '\t'
    let trimmed := ((Text.Utf8.decodeLossy line).toList.reverse.dropWhile isGap).reverse.dropWhile
      isGap
    let name := trimmed.takeWhile (!isGap ·)
    let argument := (trimmed.dropWhile (!isGap ·)).dropWhile isGap
    if name = [] then none
    else some (String.ofList name, if argument = [] then [] else [String.ofList argument])
  | _ => none

/-- The tool that runs when a file is started, and the words that it is given. A script is given
to its interpreter, which can be a script in turn; `levels` bounds how often. -/
def resolve (w : World) (levels : Nat) (program : String) (words : List String) :
    Except HostError (Tool × List String) := do
  match ← w.locate ⟨program⟩ with
  | .directory | .file _ false => throw .denied
  | .tool t => return (t, words)
  | .file bytes true =>
    match interpreter? bytes, levels with
    | none, _ => throw .notExecutable
    | some _, 0 => throw .tooManyLevels
    | some (name, argument), levels + 1 =>
      w.resolve levels name (argument ++ program :: words)

/-- The most interpreters that a program goes through. -/
def levelLimit : Nat := 5

/-- A program found by its name in one of some directories. One that may not be run is passed
over, and reported when there is no other. -/
def lookIn (w : World) (program : String) (words : List String) (denied : Bool) :
    List Place → Except HostError (Tool × List String)
  | [] => .error (if denied then .denied else .notFound)
  | dir :: dirs =>
    match w.resolve levelLimit ("/" ++ "/".intercalate dir.reverse ++ "/" ++ program) words with
    | .error .denied => w.lookIn program words true dirs
    | .error .notFound | .error .notDirectory => w.lookIn program words denied dirs
    | result => result

/-- A program with a slash in its name is a file, and any other is looked up in the directories of
programs. -/
def select (w : World) (c : Invocation) : Except HostError (Tool × List String) :=
  if c.program.toList.contains '/' then w.resolve levelLimit c.program c.arguments
  else if c.program = "" then .error .notFound
  else w.lookIn c.program c.arguments false w.search

/-- The shell given some words: options, a script and its arguments. -/
def runShell (w : World) (words : List String) : Completion × World :=
  let options := words.takeWhile fun o => o.startsWith "-"
  match words.drop options.length with
  | [] => (⟨.exited 0, []⟩, w)
  | name :: arguments =>
    match w.readFile ⟨name⟩ with
    | .ok bytes =>
      Script.run w (options.any (·.toList.contains 'e')) name arguments
        (Text.Utf8.decodeLossy bytes).toList
    | .error _ =>
      (⟨.exited 2, Text.Utf8.encode ("sh: 0: cannot open " ++ name ++ ": No such file\n")⟩, w)

def invoke (w : World) (c : Invocation) : Except HostError (Completion × World) := do
  match ← w.select c with
  | (.idle status, _) => return (⟨.exited status, []⟩, w)
  | (.shell, words) => return w.runShell words

end World

instance : Host (StateM World) where
  isThere p := do return (← get).isThere p
  readFile p := do return (← get).readFile p
  writeFile p bytes := do
    match (← get).writeFile p bytes with
    | .ok w => set w; return .ok ()
    | .error e => return .error e
  getVariable name := do return (← get).environment.lookup name
  invoke c := do
    match (← get).invoke c with
    | .ok (done, w) => set w; return .ok done
    | .error e => return .error e
  note entry := modify fun w => {w with journal := w.journal ++ [entry]}

end StackBackend
