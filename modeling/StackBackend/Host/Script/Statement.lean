import StackBackend.Host.Script.Token

/-! The statements of a script.

Statements are read from tokens by descent. A line is read when the ones before it have been run,
so what is wrong with it is a statement too, at its place, and the lines before it count. -/
namespace StackBackend.Script

structure Redirection where
  descriptor : Nat
  opening : Opening
  target : Word
  deriving DecidableEq, Repr

/-- A command with its words, and the variables set for it. -/
structure Simple where
  line : Nat
  assignments : List (List Char × Word)
  words : List Word
  redirections : List Redirection
  deriving DecidableEq, Repr

inductive Statement where
  | nothing
  | simple (command : Simple)
  | seq (first second : Statement)
  | both (first second : Statement)
  | either (first second : Statement)
  | negate (body : Statement)
  | pipe (first second : Statement)
  | choose (test yes no : Statement)
  /-- Runs the body while the test has the result `holds`. -/
  | loop (holds : Bool) (test body : Statement)
  | each (name : List Char) (items : List Word) (body : Statement)
  /-- Runs the body when one of the patterns fits the subject. -/
  | select (subject : Word) (patterns : List Word) (body rest : Statement)
  | subshell (body : Statement)
  | redirected (line : Nat) (body : Statement) (redirections : List Redirection)
  | wrong (line : Nat) (message : String)
  deriving DecidableEq, Repr

/-! ### Reading tokens -/

structure Wrong where
  line : Nat
  message : String

abbrev Reader := StateT Tokens (Except Wrong)

def Piece.bare? : Piece → Option Char
  | .bare c => some c
  | .quoted _ | .value _ _ => none

/-- The text of a word without quotes and values. -/
def plainText? (word : Word) : Option String := (word.mapM Piece.bare?).map String.ofList

def keywords : List String :=
  ["if", "then", "elif", "else", "fi", "for", "while", "until", "do", "done", "case", "esac", "\x7b",
    "\x7d", "!"]

/-- The keyword that a token is, at the start of a command. -/
def keyword? : Token → Option String
  | .word w => (plainText? w).filter (keywords.contains ·)
  | _ => none

def quotedName (name : String) : String := "\"" ++ name ++ "\""

/-- What a token is called in messages. -/
def Token.title (t : Token) : String :=
  match t with
  | .word _ => ((keyword? t).map quotedName).getD "word"
  | .redirect _ _ => "redirection"
  | .newline => "newline"
  | .stop => quotedName ";"
  | .doubleStop => quotedName ";;"
  | .background => quotedName "&"
  | .both => quotedName "&&"
  | .either => quotedName "||"
  | .bar => quotedName "|"
  | .openGroup => quotedName "("
  | .closeGroup => quotedName ")"
  | .unclosed | .final => "end of file"

namespace Reader

def peek : Reader (Option Token) := do return (← get).head?.map (·.2)

def line : Reader Nat := do return ((← get).head?.map (·.1)).getD 1

def drop : Reader Unit := modify List.tail

def skipNewlines : Reader Unit := modify fun ts => ts.dropWhile (·.2 = .newline)

/-- Gives up at the next token; `expected` is what should have stood there. -/
def fail {α : Type} (expected : Option String) : Reader α := do
  let suffix := (expected.map fun e => " (expecting " ++ quotedName e ++ ")").getD ""
  match ← peek with
  | some .unclosed => throw ⟨← line, "Syntax error: Unterminated quoted string"⟩
  | t => throw ⟨← line, "Syntax error: " ++ (t.getD .final).title ++ " unexpected" ++ suffix⟩

def keyword : Reader (Option String) := do return (← peek).bind keyword?

def expect (word : String) : Reader Unit := do
  if (← keyword) = some word then drop else fail (some word)

def expectClose : Reader Unit := do
  if (← peek) = some .closeGroup then drop else fail (some ")")

end Reader

/-! ### Parts of commands -/

/-- Redirections at the front of some tokens. -/
def redirections : Tokens → List Redirection × Tokens
  | (_, .redirect n o) :: (_, .word w) :: rest =>
    let (more, left) := redirections rest
    (⟨n, o, w⟩ :: more, left)
  | ts => ([], ts)

/-- The name and the value of a word that sets a variable. -/
def assignment? : Word → Option (List Char × Word)
  | [] => none
  | .bare c :: rest => go [c] rest
  | _ => none
where
  go (name : List Char) : Word → Option (List Char × Word)
    | .bare '=' :: value =>
      if name.getLast?.any Lexer.isNameStart ∧ name.all Lexer.isNameRest then
        some (name.reverse, value)
      else none
    | .bare c :: rest => go (c :: name) rest
    | _ => none

/-- The parts of a simple command, and the tokens after it. -/
def Simple.read (line : Nat) : Tokens → Simple × Tokens
  | (_, .redirect n o) :: (_, .word w) :: rest =>
    let (c, left) := read line rest
    ({c with redirections := ⟨n, o, w⟩ :: c.redirections}, left)
  | (_, .word w) :: rest =>
    let (c, left) := read line rest
    ({c with words := w :: c.words}, left)
  | ts => (⟨line, [], [], []⟩, ts)

/-- The command with its leading words that set variables taken apart. -/
def Simple.withAssignments (c : Simple) : Simple :=
  let leading := c.words.takeWhile (assignment? · |>.isSome)
  {c with assignments := leading.filterMap assignment?, words := c.words.drop leading.length}

/-- Words up to the end of a line or a stop. -/
def plainWords : Tokens → List Word × Tokens
  | (_, .word w) :: rest =>
    let (more, left) := plainWords rest
    (w :: more, left)
  | ts => ([], ts)

/-- The patterns of a choice, up to the parenthesis that closes them. -/
def patterns : Tokens → List Word × Tokens
  | (_, .word w) :: (_, .bar) :: rest =>
    let (more, left) := patterns rest
    (w :: more, left)
  | (_, .word w) :: rest => ([w], rest)
  | ts => ([], ts)

/-! ### Statements -/

/-- The keywords that end a list of statements. -/
def closers : List String := ["then", "elif", "else", "fi", "do", "done", "esac", "\x7d"]

open Reader

/-- Whether a list of statements ends before the next token. -/
def atEnd : Reader Bool := do
  match ← peek with
  | none | some .final | some .closeGroup | some .doubleStop => return true
  | some t => return (keyword? t).any (closers.contains ·)

/-- A compound command with the redirections after it. -/
def readRedirected (line : Nat) (body : Statement) : Reader Statement := do
  match redirections (← get) with
  | ([], _) => return body
  | (rs, rest) => do
    set rest
    return .redirected line body rs

mutual

/-- Statements up to what closes them. With `oneLine`, a line feed closes them too. -/
def readList (oneLine : Bool) : Nat → Reader Statement
  | 0 => fail none
  | n + 1 => do
    if !oneLine then skipNewlines
    if ← atEnd then return .nothing
    let first ← readChain n
    match ← peek with
    | some .stop | some .background => drop
    | some .newline => if oneLine then return first
    | _ => return first
    if oneLine ∧ (← peek) = some .newline then return first
    return .seq first (← readList oneLine n)

/-- Statements inside of a command, of which there must be some. -/
def readBody : Nat → Reader Statement
  | 0 => fail none
  | n + 1 => do
    skipNewlines
    if (← atEnd) ∧ (← peek) ≠ some .final then fail none
    readList false n

/-- Commands joined by `&&` and `||`. -/
def readChain : Nat → Reader Statement
  | 0 => fail none
  | n + 1 => do readChainRest n (← readPipe n)

def readChainRest : Nat → Statement → Reader Statement
  | 0, _ => fail none
  | n + 1, first => do
    match ← peek with
    | some .both => do
      drop
      skipNewlines
      readChainRest n (.both first (← readPipe n))
    | some .either => do
      drop
      skipNewlines
      readChainRest n (.either first (← readPipe n))
    | _ => return first

def readPipe : Nat → Reader Statement
  | 0 => fail none
  | n + 1 => do
    if (← keyword) = some "!" then
      drop
      return .negate (← readPipe n)
    let first ← readCommand n
    if (← peek) = some .bar then
      drop
      skipNewlines
      return .pipe first (← readPipe n)
    return first

def readCommand : Nat → Reader Statement
  | 0 => fail none
  | n + 1 => do
    let line ← line
    match ← keyword with
    | some "if" => do
      drop
      readRedirected line (← readBranches n)
    | some "while" => do
      drop
      readRedirected line (← readLoop true n)
    | some "until" => do
      drop
      readRedirected line (← readLoop false n)
    | some "for" => do
      drop
      readRedirected line (← readEach n)
    | some "case" => do
      drop
      readRedirected line (← readSelect n)
    | some "\x7b" => do
      drop
      let body ← readBody n
      expect "\x7d"
      readRedirected line body
    | some _ => fail none
    | none =>
      match ← peek with
      | some .openGroup => do
        drop
        let body ← readBody n
        expectClose
        readRedirected line (.subshell body)
      | some (.word _) | some (.redirect _ _) => do
        let (c, rest) := Simple.read line (← get)
        set rest
        match ← peek with
        | some .openGroup | some (.redirect _ _) | some .unclosed => fail none
        | _ => return .simple c.withAssignments
      | _ => fail none

/-- After `if` or `elif`. -/
def readBranches : Nat → Reader Statement
  | 0 => fail none
  | n + 1 => do
    let test ← readBody n
    expect "then"
    let yes ← readBody n
    match ← keyword with
    | some "elif" => do
      drop
      return .choose test yes (← readBranches n)
    | some "else" => do
      drop
      let no ← readBody n
      expect "fi"
      return .choose test yes no
    | _ => do
      expect "fi"
      return .choose test yes .nothing

/-- After `while` or `until`. -/
def readLoop (holds : Bool) : Nat → Reader Statement
  | 0 => fail none
  | n + 1 => do
    let test ← readBody n
    expect "do"
    let body ← readBody n
    expect "done"
    return .loop holds test body

/-- After `for`. Without a list of items the arguments are taken. -/
def readEach : Nat → Reader Statement
  | 0 => fail none
  | n + 1 => do
    match ← peek with
    | some (.word name) => do
      drop
      skipNewlines
      let mut items : List Word := [[.value ['@'] true]]
      match ← peek with
      | some (.word w) =>
        if plainText? w = some "in" then
          drop
          let (words, rest) := plainWords (← get)
          set rest
          items := words
      | _ => pure ()
      match ← peek with
      | some .stop | some .newline => drop
      | _ => if (← keyword) ≠ some "do" then fail none
      skipNewlines
      expect "do"
      let body ← readBody n
      expect "done"
      return .each (((plainText? name).getD "").toList) items body
    | _ => fail none

/-- After `case`. -/
def readSelect : Nat → Reader Statement
  | 0 => fail none
  | n + 1 => do
    match ← peek with
    | some (.word subject) => do
      drop
      skipNewlines
      match ← peek with
      | some (.word w) =>
        if plainText? w = some "in" then
          drop
          readArms subject n
        else fail (some "in")
      | _ => fail (some "in")
    | _ => fail none

def readArms (subject : Word) : Nat → Reader Statement
  | 0 => fail none
  | n + 1 => do
    skipNewlines
    if (← keyword) = some "esac" then
      drop
      return .nothing
    if (← peek) = some .openGroup then drop
    let (ws, rest) := patterns (← get)
    set rest
    expectClose
    let body ← readList false n
    if (← peek) = some .doubleStop then
      drop
      return .select subject ws body (← readArms subject n)
    skipNewlines
    expect "esac"
    return .select subject ws body .nothing

end

/-- The lines of a script, up to the first that cannot be read. `fuel` bounds the lines. -/
def readLines : Nat → Tokens → Statement
  | 0, _ => .nothing
  | fuel + 1, ts =>
    match ts.dropWhile (·.2 = .newline) with
    | [] | [(_, .final)] => .nothing
    | t :: rest =>
      let line : Reader Statement := do
        let s ← readList true (8 * (rest.length + 2))
        match ← peek with
        | none | some .newline | some .final => return s
        | _ => fail none
      match line.run (t :: rest) with
      | .error e => .wrong e.line e.message
      | .ok (s, left) => .seq s (readLines fuel left)

def parse (text : List Char) : Statement :=
  let ts := tokens text
  readLines (ts.length + 1) ts

end StackBackend.Script
