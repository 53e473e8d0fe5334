import DefiniteAssignment.Flow.Walk

/-!
# Programs with blocks

Programs in which every arm of a branch is a block, so that what an arm declares is
gone at its end. They are flows of moves: a block opens a scope, runs, and closes
it again.
-/

namespace DefiniteAssignment

inductive Program (τ : Type) where
  | skip
  | mark (point : Nat)
  | declare (d : Declaration τ)
  | assign (name : String) (order : Order) (span : Span)
  | seq (first second : Program τ)
  | block (body : Program τ)
  | region (body : Program τ)
  | branch (arms : List (Program τ)) (exhaustive : Bool)

/-- A flow in a scope of its own. -/
def Flow.block {τ : Type} (body : Flow (Move τ)) : Flow (Move τ) :=
  .seq (.act .openScope) (.seq body (.act .closeScope))

namespace Program

variable {τ : Type}

mutual

def flow : Program τ → Flow (Move τ)
  | skip => .skip
  | mark point => .act (.mark point)
  | declare d => .act (.declare d)
  | assign name order span => .act (.assign name order span)
  | seq first second => .seq first.flow second.flow
  | block body => body.flow.block
  | region body => .region body.flow
  | branch arms exhaustive => .branch (armFlows arms) exhaustive

def armFlows : List (Program τ) → List (Flow (Move τ))
  | [] => []
  | arm :: arms => arm.flow.block :: armFlows arms

end

theorem armFlows_eq_map (arms : List (Program τ)) :
    armFlows arms = arms.map fun arm ↦ arm.flow.block := by
  induction arms with
  | nil => simp [armFlows]
  | cons arm arms ih => simp [armFlows, ih]

mutual

/-- The marks of a program, from its beginning to its end. -/
def marks : Program τ → List Nat
  | skip | declare _ | assign _ _ _ => []
  | mark point => [point]
  | seq first second => first.marks ++ second.marks
  | block body | region body => body.marks
  | branch arms _ => armMarks arms

def armMarks : List (Program τ) → List Nat
  | [] => []
  | arm :: arms => arm.marks ++ armMarks arms

end

variable [Storable τ]

/-- The analysis of a whole program, from an empty stack. -/
def analyse (mode : Mode) (config : Config) (p : Program τ) : Except Violation (Walk τ) :=
  p.flow.walk mode (Move.perform mode) (.start config)

/-- The runs of a whole program, one for each path, from an empty stack. -/
def runs (mode : Mode) (config : Config) (p : Program τ) : List (Except Violation (Walk τ)) :=
  p.flow.paths.map fun path ↦ Flow.follow (Move.perform mode) path (.start config)

end Program

end DefiniteAssignment
