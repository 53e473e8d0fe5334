import DefiniteAssignment.Flow.Basic
import DefiniteAssignment.Stack.Levels

/-!
# Walks over a stack

The moves of an analysis that keeps the scopes of a whole unit. A walk carries a
log of what was refused or recommended on the way, and notes the stack as it is
found wherever the program has a mark.
-/

namespace DefiniteAssignment

inductive Move (τ : Type) where
  | openScope
  | closeScope
  | declare (d : Declaration τ)
  | assign (name : String) (order : Order) (span : Span)
  /-- A point of the program that is watched. -/
  | mark (point : Nat)
deriving DecidableEq, Repr

structure Walk (τ : Type) where
  stack : Stack τ := {}
  log : Log := {}
  /-- The stack at each mark that was passed, in passing order. -/
  notes : List (Nat × Stack τ) := []
deriving DecidableEq, Repr

namespace Walk

variable {τ : Type}

def start (config : Config) : Walk τ := { stack := .start config }

instance : Regional (Walk τ) (List Arm) where
  pushLevel x := { x with stack := x.stack.pushLevel }
  foldLevel mode x := (x.stack.foldLevel mode).map fun stack ↦ { x with stack := stack }
  takeArm mode x :=
    (x.stack.takeArms mode).map fun (arms, stack) ↦ (arms, { x with stack := stack })
  joinArms arms exhaustive x := { x with stack := x.stack.joinArms arms exhaustive }

def refuse (e : Error) (x : Walk τ) : Walk τ := { x with log := emit x.log (.error e) }

end Walk

/-- Performs a move. Names that are not bound are passed over, as is the end of a
scope that was never opened. -/
def Move.perform {τ : Type} [Storable τ] (mode : Mode) :
    Move τ → Walk τ → Except Violation (Walk τ)
  | openScope, x => .ok { x with stack := x.stack.openScope }
  | closeScope, x =>
    match x.stack.closeScope? x.log with
    | some (_, stack, log) => .ok { x with stack := stack, log := log }
    | none => .ok x
  | declare d, x => do
    match ← x.stack.declare mode d with
    | .ok stack => .ok { x with stack := stack }
    | .error e => .ok (x.refuse e)
  | assign name order span, x => do
    let (r, stack) ← x.stack.call mode name (.assign order span)
    match r with
    | some (.refused e) => .ok ({ x with stack := stack }.refuse e)
    | _ => .ok { x with stack := stack }
  | mark point, x => .ok { x with notes := x.notes ++ [(point, x.stack)] }

end DefiniteAssignment
