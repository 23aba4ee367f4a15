/-! Byte ranges of a source text, and values tied to one.

A span holds the first byte and the byte after the last. Both are 32-bit, so positions in a text
of 4 GiB or more wrap. -/
namespace StackBackend

structure Span where
  start : UInt32
  stop : UInt32
  deriving DecidableEq, Repr, Inhabited

namespace Span

/-- The span of what has no place in a source. -/
def nowhere : Span := ⟨0, 0⟩

def ofBytes (start stop : Nat) : Span := ⟨.ofNat start, .ofNat stop⟩

/-- The least span that covers both. -/
def merge (a b : Span) : Span := ⟨min a.start b.start, max a.stop b.stop⟩

/-- Bytes covered; none when the span does not end after it starts. -/
def length (s : Span) : Nat := s.stop.toNat - s.start.toNat

def isEmpty (s : Span) : Bool := s.stop ≤ s.start

end Span

structure Located (α : Type) where
  val : α
  span : Span
  deriving DecidableEq, Repr

end StackBackend
