/-!
# Positions and spans

Where something stands in a source text. A position knows its offset from the
start of the text as well as its line and its column, and only the last two are
printed, so positions that print alike may differ. A span runs from one position
to another and is never asked to be in order.
-/

namespace DefiniteAssignment

structure Position where
  offset : Nat
  line : Nat
  column : Nat
deriving DecidableEq, Repr

/-- Reads `line:column`. -/
def Position.text (p : Position) : String := toString p.line ++ ":" ++ toString p.column

structure Span where
  start : Position
  stop : Position
deriving DecidableEq, Repr

namespace Span

/-- The empty span at one position. -/
def point (p : Position) : Span := ⟨p, p⟩

@[simp] theorem start_point (p : Position) : (point p).start = p := rfl
@[simp] theorem stop_point (p : Position) : (point p).stop = p := rfl

/-- Lines and columns count from one, so a report without a place of its own
points at the first character. -/
instance : Inhabited Span := ⟨point ⟨0, 1, 1⟩⟩

/-- Reads `start..stop`. -/
def text (s : Span) : String := s.start.text ++ ".." ++ s.stop.text

end Span

end DefiniteAssignment
