import StackBackend.Host

/-! A system in one value: a tree of files, and what surrounds a program that runs in it.

There are no links in the tree, so every directory has one place, and a path is followed segment
by segment from the working directory or from the root. Whatever a path passes through must be a
directory, and above the root is the root again. Names and paths can be too long for the
system. -/
namespace StackBackend

/-- A place in a tree: the names on the way from it up to the root. -/
abbrev World.Place := List String

/-- The programs that a system comes with. -/
inductive World.Tool where
  /-- Runs a script. -/
  | shell
  /-- Does nothing, and ends with a status. -/
  | idle (status : Nat)
  deriving DecidableEq, Repr

/-- What there can be at a place. -/
inductive World.Entry where
  | directory
  | file (bytes : List UInt8) (executable : Bool)
  | tool (program : World.Tool)
  deriving DecidableEq, Repr

structure World where
  entries : List (World.Place × World.Entry)
  cwd : World.Place
  environment : List (String × String)
  /-- The directories in which a program is looked for by its name. -/
  search : List World.Place
  journal : List Log.Entry
  deriving Repr

namespace World

/-! ### Places -/

def entry? (w : World) (p : Place) : Option Entry :=
  if p = [] then some .directory else w.entries.lookup p

/-- The entries with `e` at `p`. -/
def putIn (p : Place) (e : Entry) : List (Place × Entry) → List (Place × Entry)
  | [] => [(p, e)]
  | (q, f) :: rest => if q = p then (p, e) :: rest else (q, f) :: putIn p e rest

def put (w : World) (p : Place) (e : Entry) : World := {w with entries := putIn p e w.entries}

/-- The world with a directory at `p` and at every place above it that is still free. -/
def makeDirectories (w : World) : Place → World
  | [] => w
  | name :: up =>
    let v := w.makeDirectories up
    if (v.entry? (name :: up)).isSome then v else v.put (name :: up) .directory

/-- The world with `e` at `p` and directories above it. -/
def install (w : World) (p : Place) (e : Entry) : World :=
  match e with
  | .directory => w.makeDirectories p
  | .file _ _ | .tool _ => (w.makeDirectories p.tail).put p e

/-- Where the tools are. -/
def tools : List (Place × Tool) :=
  [(["sh", "bin"], .shell), (["true", "bin"], .idle 0), (["false", "bin"], .idle 1)]

/-- A world with nothing but its tools and the working directory. -/
def start (cwd : Place) (environment : List (String × String)) : World :=
  let empty : World := ⟨[], cwd, environment, [["bin"]], []⟩
  (tools.foldl (fun w (p, t) => w.install p (.tool t)) empty).makeDirectories cwd

/-- The place that a path without `..` names below `base`. -/
def placeBelow (base : Place) (p : Path) : Place :=
  (p.parts.2.filter (!Path.isSilent ·)).reverse.map String.ofList ++ base

/-! ### Paths -/

def enter (w : World) (p : Place) : Except HostError Unit :=
  match w.entry? p with
  | some .directory => .ok ()
  | some (.file _ _) | some (.tool _) => .error .notDirectory
  | none => .error .notFound

/-- The most bytes in a name. -/
def longestName : Nat := 255

/-- The most bytes in a path. -/
def longestPath : Nat := 4095

def checkName (segment : List Char) : Except HostError Unit :=
  if longestName < Text.byteLength segment then .error .nameTooLong else .ok ()

def checkPath (p : Path) : Except HostError Unit :=
  if p.text = "" then .error .notFound
  else if longestPath < Text.byteLength p.text.toList then .error .nameTooLong
  else .ok ()

/-- Where some segments lead. The place that they lead to need not exist, but every one on the
way must be a directory. -/
def walk (w : World) (here : Place) : List (List Char) → Except HostError Place
  | [] => .ok here
  | segment :: rest => do
    w.enter here
    if Path.isSilent segment then w.walk here rest
    else if segment = ['.', '.'] then w.walk here.tail rest
    else
      checkName segment
      w.walk (String.ofList segment :: here) rest

/-- The place at which a path starts. -/
def startOf (w : World) (p : Path) : Place := if p.isAbsolute then [] else w.cwd

def segmentsOf (p : Path) : List (List Char) := Text.pieces '/' p.text.toList

/-- The place that a path names, and what is there. -/
def find (w : World) (p : Path) : Except HostError (Place × Entry) := do
  checkPath p
  let place ← w.walk (w.startOf p) (segmentsOf p)
  match w.entry? place with
  | some e => return (place, e)
  | none => throw .notFound

/-- The entry that a path names. -/
def locate (w : World) (p : Path) : Except HostError Entry := (w.find p).map (·.2)

/-- The place at which a file can be written under a path. A path that ends in a slash, in `.` or
in `..` can only name a directory. -/
def writable (w : World) (p : Path) : Except HostError Place := do
  checkPath p
  match (segmentsOf p).reverse.dropWhile (· = []) with
  | [] => throw .isDirectory
  | last :: front =>
    let dir ← w.walk (w.startOf p) front.reverse
    w.enter dir
    if (segmentsOf p).getLast? = some [] ∨ last = ['.'] ∨ last = ['.', '.'] then throw .isDirectory
    checkName last
    let place := String.ofList last :: dir
    match w.entry? place with
    | some .directory => throw .isDirectory
    | some (.tool _) => throw .denied
    | some (.file _ _) | none => return place

/-! ### Files -/

def isThere (w : World) (p : Path) : Bool := (w.locate p).isOk

/-- A tool holds no text. -/
def readFile (w : World) (p : Path) : Except HostError (List UInt8) := do
  match ← w.locate p with
  | .directory => throw .isDirectory
  | .file bytes _ => return bytes
  | .tool _ => throw .notText

/-- A file that is written anew keeps its permission. -/
def writeFile (w : World) (p : Path) (bytes : List UInt8) : Except HostError World := do
  let place ← w.writable p
  let executable :=
    match w.entry? place with
    | some (.file _ x) => x
    | _ => false
  return w.put place (.file bytes executable)

/-- The world without what is at a place. -/
def remove (w : World) (p : Place) : World := {w with entries := w.entries.filter (·.1 ≠ p)}

/-- The files below `base` that `before` does not have, or has with another content. -/
def changes (before after : World) (base : Place) : List (Path × List UInt8) :=
  after.entries.filterMap fun (place, e) =>
    match e with
    | .directory | .tool _ => none
    | .file bytes _ =>
      let old : Option (List UInt8) :=
        match before.entry? place with
        | some (.file b _) => some b
        | _ => none
      if base.reverse.isPrefixOf place.reverse ∧ old ≠ some bytes then
        let names := place.reverse.drop base.length
        some (⟨"/".intercalate names⟩, bytes)
      else none

end World

end StackBackend
