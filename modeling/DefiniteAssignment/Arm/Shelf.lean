import DefiniteAssignment.Arm.Basic

/-!
# The shelf

Arms are popped one after the other and joined when all of them are there. In
between they lie on a shelf, under labels. A label holds a list of arms, one for
each scope that was open when the arm ended; a lone scope leaves a list of one.
-/

namespace DefiniteAssignment

/-- Says which arm is meant. -/
inductive ArmRef where
  /-- The arm that initializes nothing. -/
  | nothing
  /-- One of the arms kept under a label. -/
  | kept (label : String) (index : Nat)
deriving DecidableEq, Repr

structure Shelf where
  /-- The arms put away last stand first. -/
  stock : List (String × List Arm) := []
deriving DecidableEq, Repr

namespace Shelf

def empty : Shelf := {}

/-- A label stands for what was put under it last. -/
def keep (label : String) (arms : List Arm) (s : Shelf) : Shelf := ⟨(label, arms) :: s.stock⟩

def arms (s : Shelf) (label : String) : List Arm := (s.stock.lookup label).getD []

def arm (s : Shelf) : ArmRef → Arm
  | .nothing => .empty
  | .kept label index => (s.arms label)[index]?.getD .empty

@[simp] theorem arms_empty (label : String) : empty.arms label = [] := rfl

@[simp] theorem arms_keep_self (s : Shelf) (label : String) (arms : List Arm) :
    (s.keep label arms).arms label = arms := by
  simp [Shelf.arms, keep]

theorem arms_keep_of_ne (s : Shelf) {label other : String} (arms : List Arm) (h : other ≠ label) :
    (s.keep label arms).arms other = s.arms other := by
  simp [Shelf.arms, keep, List.lookup_cons, beq_eq_false_iff_ne.mpr h]

@[simp] theorem arm_nothing (s : Shelf) : s.arm .nothing = .empty := rfl

end Shelf

end DefiniteAssignment
