import PegMachine.Text.Decimal

namespace PegMachine

/-- The bytes from offset `start` up to `stop`, which is not included. -/
structure Span where
  start : Int
  stop : Int
  deriving Repr, DecidableEq, Inhabited

namespace Span

/-- The length, as a 64-bit integer. -/
def length (s : Span) : Int := Decimal.wrap (s.stop - s.start)

/-- An empty span is written as its offset. -/
def render (s : Span) : Bytes :=
  if s.start = s.stop then Bytes.ofInt s.start
  else Bytes.ofInt s.start ++ ".." ++ Bytes.ofInt s.stop

/-- The text that the span covers, when it lies inside of the source. -/
def text? (s : Span) (source : Bytes) : Option Bytes := Bytes.slice? source s.start s.stop

def contains (s other : Span) : Bool := decide (s.start ≤ other.start) && decide (other.stop ≤ s.stop)

end Span

end PegMachine
