import StackBackend.Host.Script.Shell

/-! The commands on files that a script can use.

A command goes through its operands and says what it cannot do; it ends with status 1 when there
was anything to say. -/
namespace StackBackend.Script.Tool

open World (Place Entry)

/-- The operands of a command, and the letters of its options. -/
def operands (words : List String) : List String × List Char :=
  let isOption (w : String) : Bool := w.length > 1 && w.startsWith "-" && w ≠ "--"
  (words.filter fun w => !isOption w && w ≠ "--",
    (words.filter isOption).flatMap fun w => w.toList.drop 1)

def fail (s : Shell) (message : String) : Shell := (s.say message).withStatus 1

def quoted (path : String) : String := "'" ++ path ++ "'"

/-- Does something with every operand; the status is that of the last failure. -/
def forAll (s : Shell) (paths : List String) (act : Shell → String → Shell) : Shell :=
  paths.foldl act (s.withStatus 0)

def missingOperand (s : Shell) (name : String) : Shell :=
  (fail s (name ++ ": missing operand")).say ("Try '" ++ name ++ " --help' for more information.")

/-- Writes files, or what comes in, to standard output. -/
def cat (s : Shell) (words : List String) : Shell :=
  let (paths, _) := operands words
  if paths = [] then (s.print s.input).withStatus 0
  else
    forAll s paths fun s p =>
      if p = "-" then s.print s.input
      else
        match s.world.readFile ⟨p⟩ with
        | .ok bytes => s.print bytes
        | .error e => fail s ("cat: " ++ p ++ ": " ++ e.reason)

/-- Where a copy of `source` goes: into `target` when that is a directory. -/
def destination (w : World) (source target : String) : Path :=
  match w.locate ⟨target⟩, (Path.mk source).fileName? with
  | .ok .directory, some name => (Path.mk target).join ⟨String.ofList name⟩
  | _, _ => ⟨target⟩

/-- Copies one file; `takeAway` removes it from where it was. -/
def copyOne (name : String) (takeAway : Bool) (target : String) (s : Shell) (source : String) :
    Shell :=
  match s.world.find ⟨source⟩ with
  | .error e => fail s (name ++ ": cannot stat " ++ quoted source ++ ": " ++ e.reason)
  | .ok (_, .directory) =>
    fail s (name ++ ": -r not specified; omitting directory " ++ quoted source)
  | .ok (_, .tool _) => s
  | .ok (from_, .file bytes x) =>
    let path := destination s.world source target
    match s.world.writable path with
    | .error e =>
      fail s (name ++ ": cannot create regular file " ++ quoted path.text ++ ": " ++ e.reason)
    | .ok place =>
      if place = from_ then
        fail s (name ++ ": " ++ quoted source ++ " and " ++ quoted path.text ++
          " are the same file")
      else
        let executable :=
          match s.world.entry? place with
          | some (.file _ old) => if takeAway then x else old
          | _ => x
        let w := s.world.put place (.file bytes executable)
        {s with world := if takeAway then w.remove from_ else w}

def copy (name : String) (takeAway : Bool) (s : Shell) (words : List String) : Shell :=
  match (operands words).1.reverse with
  | [] =>
    (fail s (name ++ ": missing file operand")).say
      ("Try '" ++ name ++ " --help' for more information.")
  | [p] =>
    (fail s (name ++ ": missing destination file operand after " ++ quoted p)).say
      ("Try '" ++ name ++ " --help' for more information.")
  | target :: sources => forAll s sources.reverse (copyOne name takeAway target)

/-- The world without a place and all below it. -/
def removeTree (w : World) (p : Place) : World :=
  {w with entries := w.entries.filter fun (q, _) => !p.reverse.isPrefixOf q.reverse}

def rm (s : Shell) (words : List String) : Shell :=
  let (paths, options) := operands words
  if paths = [] then if options.contains 'f' then s.withStatus 0 else missingOperand s "rm"
  else
    forAll s paths fun s p =>
      match s.world.find ⟨p⟩ with
      | .ok (place, .directory) =>
        if options.contains 'r' ∨ options.contains 'R' then
          {s with world := removeTree s.world place}
        else fail s ("rm: cannot remove " ++ quoted p ++ ": Is a directory")
      | .ok (place, _) => {s with world := s.world.remove place}
      | .error e =>
        if options.contains 'f' then s
        else fail s ("rm: cannot remove " ++ quoted p ++ ": " ++ e.reason)

def mkdir (s : Shell) (words : List String) : Shell :=
  let (paths, options) := operands words
  if paths = [] then missingOperand s "mkdir"
  else
    forAll s paths fun s p =>
      let all := options.contains 'p'
      match s.world.find ⟨p⟩ with
      | .ok (_, .directory) =>
        if all then s else fail s ("mkdir: cannot create directory " ++ quoted p ++ ": File exists")
      | .ok _ => fail s ("mkdir: cannot create directory " ++ quoted p ++ ": File exists")
      | .error e =>
        if all then
          let base := s.world.startOf ⟨p⟩
          {s with world := s.world.makeDirectories (World.placeBelow base ⟨p⟩)}
        else
          match s.world.writable ⟨(p.dropEndWhile (· = '/')).toString⟩ with
          | .ok place => {s with world := s.world.put place .directory}
          | .error _ => fail s ("mkdir: cannot create directory " ++ quoted p ++ ": " ++ e.reason)

def touch (s : Shell) (words : List String) : Shell :=
  let (paths, _) := operands words
  if paths = [] then
    (fail s "touch: missing file operand").say "Try 'touch --help' for more information."
  else
    forAll s paths fun s p =>
      if s.world.isThere ⟨p⟩ then s
      else
        match s.world.writeFile ⟨p⟩ [] with
        | .ok w => {s with world := w}
        | .error e => fail s ("touch: cannot touch " ++ quoted p ++ ": " ++ e.reason)

/-- Makes files executable, or takes that away. -/
def chmod (s : Shell) (words : List String) : Shell :=
  match words with
  | mode :: paths =>
    let executable :=
      if mode.toList.any Char.isDigit then mode.toList.any (['1', '3', '5', '7'].contains ·)
      else mode.toList.contains '+'
    forAll s paths fun s p =>
      match s.world.find ⟨p⟩ with
      | .ok (place, .file bytes _) => {s with world := s.world.put place (.file bytes executable)}
      | .ok _ => s
      | .error e => fail s ("chmod: cannot access " ++ quoted p ++ ": " ++ e.reason)
  | [] => missingOperand s "chmod"

/-- The commands by their names. -/
def named? : String → Option (Shell → List String → Shell)
  | "cat" => some cat
  | "cp" => some (copy "cp" false)
  | "mv" => some (copy "mv" true)
  | "rm" => some rm
  | "mkdir" => some mkdir
  | "touch" => some touch
  | "chmod" => some chmod
  | _ => none

end StackBackend.Script.Tool
