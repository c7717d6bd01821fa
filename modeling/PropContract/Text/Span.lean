import PropContract.Text.Offset

namespace PropContract

structure Span where
  start : Nat
  stop : Nat
  deriving DecidableEq, Repr, Inhabited

namespace Span

def offsetLimit : Nat :=
  4294967296

/-- Offsets are stored in 32 bits, so larger ones wrap around. -/
def ofOffsets (start stop : Nat) : Span :=
  ⟨start % offsetLimit, stop % offsetLimit⟩

def slice? (span : Span) (text : String) : Option String :=
  Text.slice? text span.start span.stop

end Span

end PropContract
