import DefiniteAssignment.Flow.Touch

/-!
# Declaring and assigning

Flows that declare the variables of one scope and assign to them. Of every assignment it
is recorded what it was answered, so that an analysis can be asked afterwards whether it
refused any.
-/

namespace DefiniteAssignment

inductive Deed (τ : Type) where
  | declare (d : Declaration τ)
  | declareAt (d : Declaration τ) (slot : SlotId) (inherited : Bool)
  | assign (name : String) (order : Order) (span : Span)
deriving DecidableEq, Repr

/-- A scope, where its slots come from, and what assignments were answered so far. -/
structure Account (τ α : Type) where
  scope : Scope τ
  slots : α
  /-- The name of each assignment with its answer, if the name was bound. -/
  answers : List (String × Option (Variable.Reply τ)) := []
deriving DecidableEq, Repr

instance {τ α : Type} : Regional (Account τ α) Arm where
  pushLevel x := { x with scope := x.scope.pushLevel }
  foldLevel mode x := (x.scope.foldLevel mode).map fun scope ↦ { x with scope := scope }
  takeArm mode x :=
    (x.scope.takeArm mode).map fun (arm, scope) ↦ (arm, { x with scope := scope })
  joinArms arms exhaustive x := { x with scope := x.scope.joinArms arms exhaustive }

namespace Deed

variable {τ α : Type}

/-- Performs a deed. A declaration that is refused changes nothing. -/
def perform [Storable τ] [Allocator α] (mode : Mode) :
    Deed τ → Account τ α → Except Violation (Account τ α)
  | declare d, x => do
    match ← x.scope.declare mode x.slots d with
    | .ok (scope, slots) => .ok { x with scope := scope, slots := slots }
    | .error _ => .ok x
  | declareAt d slot inherited, x =>
    match x.scope.declareAt d slot inherited with
    | .ok scope => .ok { x with scope := scope }
    | .error _ => .ok x
  | assign name order span, x => do
    let (r, scope) ← x.scope.call mode name (.assign order span)
    .ok { x with scope := scope, answers := x.answers ++ [(name, r)] }

/-- Whether a deed assigns to `x`. -/
def assigns (x : String) : Deed τ → Bool
  | assign name _ _ => name = x
  | _ => false

end Deed

end DefiniteAssignment
