/-! Bytes read as UTF-8.

`scan` walks the bytes once and yields one item per character, `none` standing for a longest run
of bytes that begins a character and cannot be completed. `decode?` accepts the bytes only when
no item is `none`; `decodeLossy` puts the replacement character in its place. -/
namespace StackBackend.Text.Utf8

/-- The inside of a character: the bits so far, how many bytes are owed, and the range in which
the next one must lie. -/
structure Pending where
  bits : Nat
  owed : Nat
  low : Nat
  high : Nat

/-- A byte between characters: what it completes, and what it begins. -/
def first (b : UInt8) : List (Option Char) × Option Pending :=
  let n := b.toNat
  if n ≤ 0x7F then ([some (Char.ofNat n)], none)
  else if 0xC2 ≤ n ∧ n ≤ 0xDF then ([], some ⟨n - 0xC0, 1, 0x80, 0xBF⟩)
  else if n = 0xE0 then ([], some ⟨n - 0xE0, 2, 0xA0, 0xBF⟩)
  else if n = 0xED then ([], some ⟨n - 0xE0, 2, 0x80, 0x9F⟩)
  else if 0xE1 ≤ n ∧ n ≤ 0xEF then ([], some ⟨n - 0xE0, 2, 0x80, 0xBF⟩)
  else if n = 0xF0 then ([], some ⟨n - 0xF0, 3, 0x90, 0xBF⟩)
  else if 0xF1 ≤ n ∧ n ≤ 0xF3 then ([], some ⟨n - 0xF0, 3, 0x80, 0xBF⟩)
  else if n = 0xF4 then ([], some ⟨n - 0xF0, 3, 0x80, 0x8F⟩)
  else ([none], none)

/-- One byte. A byte that does not continue the character ends it as a failure and is then taken
as a first byte itself. -/
def step (inside : Option Pending) (b : UInt8) : List (Option Char) × Option Pending :=
  match inside with
  | none => first b
  | some p =>
    if p.low ≤ b.toNat ∧ b.toNat ≤ p.high then
      let bits := p.bits * 64 + b.toNat % 64
      if p.owed ≤ 1 then ([some (Char.ofNat bits)], none)
      else ([], some ⟨bits, p.owed - 1, 0x80, 0xBF⟩)
    else (none :: (first b).1, (first b).2)

def scan (inside : Option Pending) : List UInt8 → List (Option Char)
  | [] => if inside.isSome then [none] else []
  | b :: bs => (step inside b).1 ++ scan (step inside b).2 bs

def decode? (bytes : List UInt8) : Option String :=
  ((scan none bytes).mapM id).map String.ofList

def decodeLossy (bytes : List UInt8) : String :=
  String.ofList ((scan none bytes).map (·.getD (Char.ofNat 0xFFFD)))

def encode (text : String) : List UInt8 :=
  text.toList.flatMap String.utf8EncodeChar

end StackBackend.Text.Utf8
