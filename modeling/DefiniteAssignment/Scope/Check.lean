import DefiniteAssignment.Report.Sink
import DefiniteAssignment.Scope.Basic

/-!
# Checks of a scope

Two questions asked of all bindings at once, each answered by reports in
declaration order: which of them lack a value they need, and which of them could
be frozen and are not.
-/

namespace DefiniteAssignment

variable {τ ω : Type}

namespace Variable

/-- A variable needs a value unless its type has "nothing" for one, or the enclosing
declaration answers for it. -/
def lacksValue [Storable τ] (v : Variable τ) : Bool :=
  !v.initialized && !Storable.isOptional v.ty && !v.inherited

def couldBeFrozen (v : Variable τ) : Bool := !v.frozen && !v.mutated

end Variable

namespace Scope

/-- The bindings without a value they need, one error each. -/
def uninitialized [Storable τ] (s : Scope τ) (span : Span) (kindOf : String → ErrorKind) :
    List Error :=
  (s.bindings.filter Variable.lacksValue).map fun v ↦ ⟨kindOf v.name, span⟩

/-- The bindings that could be frozen and are not, each where it was declared. -/
def unmutated (s : Scope τ) : List Warning :=
  (s.bindings.filter Variable.couldBeFrozen).map fun v ↦ ⟨.neverMutated v.name, v.span⟩

/-- Reports the bindings without a value they need, and counts them. -/
def checkAll [Storable τ] [Sink ω] (s : Scope τ) (span : Span) (kindOf : String → ErrorKind)
    (sink : ω) : Nat × ω :=
  let errors := s.uninitialized span kindOf
  (errors.length, emitAll sink (errors.map .error))

/-- Reports the bindings that could be frozen. -/
def recommend [Sink ω] (s : Scope τ) (sink : ω) : ω := emitAll sink (s.unmutated.map .warning)

end Scope

end DefiniteAssignment
