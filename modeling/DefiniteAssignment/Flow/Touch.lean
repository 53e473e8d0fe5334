import DefiniteAssignment.Flow.Basic
import DefiniteAssignment.Scope.Levels

/-!
# Touching the variables of a scope

Flows that give values to the variables of one scope, or take them away, and what
they mean for a single variable. The meaning is a function on one level: it knows
nothing of stacks of levels, of arms or of other variables.
-/

namespace DefiniteAssignment

instance {τ : Type} : Regional (Scope τ) Arm where
  pushLevel := Scope.pushLevel
  foldLevel := Scope.foldLevel
  takeArm := Scope.takeArm
  joinArms := Scope.joinArms

inductive Touch where
  | define (name : String) (order : Order)
  | assign (name : String) (order : Order) (span : Span)
  | undefine (name : String)
  | setAll (initial : Bool)
deriving DecidableEq, Repr

namespace Touch

/-- Touches a scope. A name that is not bound is passed over. -/
def perform {τ : Type} (mode : Mode) : Touch → Scope τ → Except Violation (Scope τ)
  | define name order, s => (s.call mode name (.define order)).map Prod.snd
  | assign name order span, s => (s.call mode name (.assign order span)).map Prod.snd
  | undefine name, s => (s.call mode name .undefine).map Prod.snd
  | setAll initial, s => .ok (s.setAll initial)

/-- What a touch means for the variable `x`. -/
def level (x : String) (frozen : Bool) : Touch → Level → Level
  | define name order, l => if name = x then some order else l
  | assign name order _, l =>
    if name = x then
      if frozen && l.isSome then l else some order
    else l
  | undefine name, l => if name = x then none else l
  | setAll initial, _ => if initial then some 0 else none

end Touch

namespace Flow

mutual

/-- What a flow means for the variable `x`, from the level before it to the level
after it. -/
def level (x : String) (frozen : Bool) : Flow Touch → Level → Level
  | skip, l => l
  | act t, l => t.level x frozen l
  | seq first second, l => second.level x frozen (first.level x frozen l)
  | region _, some order => some order
  | region body, none => body.level x frozen none
  | branch _ _, some order => some order
  | branch arms exhaustive, none =>
    if exhaustive then Level.meet (armLevels x frozen arms) else none

/-- What each arm makes of a variable that nothing is known about. -/
def armLevels (x : String) (frozen : Bool) : List (Flow Touch) → List Level
  | [] => []
  | arm :: arms => arm.level x frozen none :: armLevels x frozen arms

end

theorem armLevels_eq_map (x : String) (frozen : Bool) (arms : List (Flow Touch)) :
    armLevels x frozen arms = arms.map fun arm ↦ arm.level x frozen none := by
  induction arms with
  | nil => simp [armLevels]
  | cons arm arms ih => simp [armLevels, ih]

end Flow

end DefiniteAssignment
