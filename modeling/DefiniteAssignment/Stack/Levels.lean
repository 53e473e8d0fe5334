import DefiniteAssignment.Scope.Levels
import DefiniteAssignment.Stack.Basic

/-!
# Levels of a stack

A region of control flow can give a value to a variable of any open scope, so its
level is pushed on all of them, and popped from all of them, the root first. An
arm taken from a stack is therefore a list of arms, one for each scope, and a
scope is joined with the arms that stand at its own place.
-/

namespace DefiniteAssignment.Stack

variable {τ : Type}

def pushLevel (s : Stack τ) : Stack τ :=
  { s with
    current := s.current.pushLevel
    enclosing := s.enclosing.map .pushLevel
    depth := s.depth + 1 }

/-- Ends a region that always runs. The stack itself never counts below zero. -/
def foldLevel (mode : Mode) (s : Stack τ) : Except Violation (Stack τ) := do
  let enclosing ← s.enclosing.mapM (·.foldLevel mode)
  let current ← s.current.foldLevel mode
  .ok { s with current := current, enclosing := enclosing, depth := s.depth - 1 }

/-- Ends an arm, and says what was known at its end, scope by scope. -/
def takeArms (mode : Mode) (s : Stack τ) : Except Violation (List Arm × Stack τ) := do
  let enclosing ← s.enclosing.mapM (·.takeArm mode)
  let (arm, current) ← s.current.takeArm mode
  .ok (enclosing.map Prod.fst ++ [arm],
    { s with current := current, enclosing := enclosing.map Prod.snd, depth := s.depth - 1 })

/-- The arms that concern the scope at a place. Arms that ended with fewer scopes
open have nothing to say about it, and are left out. -/
def armsAt (arms : List (List Arm)) (place : Nat) : List Arm := arms.filterMap (·[place]?)

/-- Joins arms that exclude each other. -/
def joinArms (arms : List (List Arm)) (exhaustive : Bool) (s : Stack τ) : Stack τ :=
  { s with
    current := s.current.joinArms (armsAt arms s.enclosing.length) exhaustive
    enclosing := s.enclosing.mapIdx fun place scope ↦
      scope.joinArms (armsAt arms place) exhaustive }

@[simp] theorem scopes_pushLevel (s : Stack τ) :
    s.pushLevel.scopes = s.scopes.map .pushLevel := by
  simp [scopes, pushLevel]

@[simp] theorem scopes_joinArms (arms : List (List Arm)) (exhaustive : Bool) (s : Stack τ) :
    (s.joinArms arms exhaustive).scopes =
      s.scopes.mapIdx fun place scope ↦ scope.joinArms (armsAt arms place) exhaustive := by
  simp [scopes, joinArms, List.mapIdx_append]

@[simp] theorem depth_pushLevel (s : Stack τ) : s.pushLevel.depth = s.depth + 1 := rfl

@[simp] theorem depth_joinArms (arms : List (List Arm)) (exhaustive : Bool) (s : Stack τ) :
    (s.joinArms arms exhaustive).depth = s.depth := rfl

end DefiniteAssignment.Stack
