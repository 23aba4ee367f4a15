import StackBackend.Text.Split

/-! File paths, as text and as components.

A path keeps the text it was given: joining and replacing names never tidies it up. What it
denotes, as far as text alone can tell, are its components. Doubled and trailing slashes and the
segment `.` have none, except for a `.` at the very start, which is kept; `..` is a component like
any other. Two paths are the same when their components are. -/
namespace StackBackend

structure Path where
  text : String
  deriving DecidableEq, Repr

namespace Path

/-- How a path starts. -/
inductive Lead where
  | root
  | here
  | plain
  deriving DecidableEq, Repr

inductive Component where
  | root
  | here
  | up
  | name (chars : List Char)
  deriving DecidableEq, Repr

/-! ### Segments -/

/-- The start of a path and the segments between the slashes after it. -/
def parts (p : Path) : Lead × List (List Char) :=
  match Text.pieces '/' p.text.toList with
  | [] :: segment :: segments => (.root, segment :: segments)
  | ['.'] :: segments => (.here, segments)
  | segments => (.plain, segments)

def ofParts (lead : Lead) (segments : List (List Char)) : Path :=
  match lead with
  | .root => ⟨String.ofList ('/' :: Text.join '/' segments)⟩
  | .here => ⟨String.ofList (Text.join '/' (['.'] :: segments))⟩
  | .plain => ⟨String.ofList (Text.join '/' segments)⟩

/-- A segment without a component. -/
def isSilent (segment : List Char) : Bool := segment = [] || segment = ['.']

def segmentComponent (segment : List Char) : Option Component :=
  if isSilent segment then none
  else if segment = ['.', '.'] then some .up
  else some (.name segment)

def leadComponent : Lead → Option Component
  | .root => some .root
  | .here => some .here
  | .plain => none

def components (p : Path) : List Component :=
  (leadComponent p.parts.1).toList ++ p.parts.2.filterMap segmentComponent

/-- Whether two paths have the same components. -/
def same (p q : Path) : Bool := p.components = q.components

def isAbsolute (p : Path) : Bool := p.parts.1 = .root

/-! ### Parents -/

/-- The paths above one whose segments, the last first, are given: each is the one before without
its last component. -/
def above (lead : Lead) : List (List Char) → List Path
  | [] =>
    match lead with
    | .here => [⟨""⟩]
    | .root | .plain => []
  | segment :: rest =>
    if isSilent segment then above lead rest
    else ofParts lead (rest.dropWhile isSilent).reverse :: above lead rest

/-- The proper ancestors, the nearest first. -/
def parents (p : Path) : List Path := above p.parts.1 p.parts.2.reverse

def parent? (p : Path) : Option Path := p.parents.head?

/-- The path and its ancestors, the nearest first. -/
def ancestors (p : Path) : List Path := p :: p.parents

/-! ### Names -/

/-- `q` as seen from the directory `p`. -/
def join (p q : Path) : Path :=
  if q.isAbsolute then q
  else if p.text.toList.getLast?.all (· = '/') then ⟨p.text ++ q.text⟩
  else ⟨p.text ++ "/" ++ q.text⟩

/-- The last component, when it is a name. -/
def fileName? (p : Path) : Option (List Char) :=
  match p.components.getLast? with
  | some (.name n) => some n
  | _ => none

/-- A file name without its extension: without the last dot and what follows it, unless nothing
stands before that dot. -/
def stemOf (name : List Char) : List Char :=
  match Text.splitOnce '.' name.reverse with
  | none | some (_, []) => name
  | some (_, stem) => stem.reverse

def stem? (p : Path) : Option (List Char) := p.fileName?.map stemOf

/-- The path with another file name, or with one more when it has none. -/
def withFileName (p : Path) (name : List Char) : Path :=
  match p.fileName?, p.parent? with
  | some _, some dir => dir.join ⟨String.ofList name⟩
  | _, _ => p.join ⟨String.ofList name⟩

end Path

end StackBackend
