/-! # Spans

Stretches of a source text, as byte offsets into its UTF-8 form.
-/

namespace ActorScript

/-- The bytes from `start` up to, and not including, `stop`. -/
structure Span where
  start : Nat
  stop : Nat
  deriving DecidableEq, Repr, Inhabited

namespace Span

def zero : Span := ⟨0, 0⟩

/-- Least span that covers both. -/
def merge (a b : Span) : Span :=
  ⟨min a.start b.start, max a.stop b.stop⟩

end Span

end ActorScript
