import DefiniteAssignment.Arm.Basic
import DefiniteAssignment.Scope.Basic

/-!
# Levels of a scope

A region of control flow concerns every variable of a scope at once, so pushing
and popping are done to all of them, in declaration order. A scope that has no
level pushed is not popped, and its variables are then not looked at.
-/

namespace DefiniteAssignment

variable {τ : Type}

/-- What variables say about an arm, each with the level it ended the arm with. -/
def Arm.ofLevels (taken : List (Level × Variable τ)) : Arm :=
  ⟨taken.filterMap fun (l, v) ↦ l.map (v.name, ·)⟩

namespace Variable

/-- What an arm says about a variable is news only where nothing was known. -/
def settle (a : Arm) (v : Variable τ) : Variable τ :=
  if v.initialized then v
  else
    match a.order? v.name with
    | some order => v.define order
    | none => v

@[simp] theorem settle_empty (v : Variable τ) : settle .empty v = v := by simp [settle]

theorem settle_of_initialized {v : Variable τ} (a : Arm) (h : v.initialized) : settle a v = v :=
  if_pos h

@[simp] theorem toDeclaration_settle (a : Arm) (v : Variable τ) :
    (settle a v).toDeclaration = v.toDeclaration := by
  unfold settle
  split
  · rfl
  · split <;> simp

@[simp] theorem enclosing_settle (a : Arm) (v : Variable τ) :
    (settle a v).enclosing = v.enclosing := by
  unfold settle
  split
  · rfl
  · split <;> simp

end Variable

namespace Scope

/-- Gives every variable a value, or takes it from every variable. -/
def setAll (initial : Bool) (s : Scope τ) : Scope τ :=
  { s with bindings := s.bindings.map fun v ↦ if initial then v.define 0 else v.undefine }

def pushLevel (s : Scope τ) : Scope τ :=
  { s with bindings := s.bindings.map .pushLevel, depth := s.depth + 1 }

/-- Ends a region that always runs. -/
def foldLevel (mode : Mode) (s : Scope τ) : Except Violation (Scope τ) :=
  match s.depth with
  | 0 => mode.breach .unbalancedPop s
  | depth + 1 => do
    let bindings ← s.bindings.mapM (·.foldLevel mode)
    .ok { s with bindings := bindings, depth := depth }

/-- Ends an arm, and says what was known at its end. -/
def takeArm (mode : Mode) (s : Scope τ) : Except Violation (Arm × Scope τ) :=
  match s.depth with
  | 0 => mode.breach .unbalancedPop (.empty, s)
  | depth + 1 => do
    let taken ← s.bindings.mapM (·.takeLevel mode)
    .ok (.ofLevels taken, { s with bindings := taken.map Prod.snd, depth := depth })

/-- Joins arms that exclude each other. Arms that are not exhaustive leave room for
one more, which initializes nothing, so that nothing is learned from them. -/
def joinArms (arms : List Arm) (exhaustive : Bool) (s : Scope τ) : Scope τ :=
  if exhaustive then { s with bindings := s.bindings.map (.settle (.meet arms)) } else s

@[simp] theorem size_setAll (b : Bool) (s : Scope τ) : (s.setAll b).size = s.size := rfl
@[simp] theorem depth_setAll (b : Bool) (s : Scope τ) : (s.setAll b).depth = s.depth := rfl
@[simp] theorem size_pushLevel (s : Scope τ) : s.pushLevel.size = s.size := rfl
@[simp] theorem depth_pushLevel (s : Scope τ) : s.pushLevel.depth = s.depth + 1 := rfl

@[simp] theorem joinArms_false (arms : List Arm) (s : Scope τ) : s.joinArms arms false = s := rfl

@[simp] theorem joinArms_nil (exhaustive : Bool) (s : Scope τ) : s.joinArms [] exhaustive = s := by
  have h : (Variable.settle .empty : Variable τ → Variable τ) = id := funext Variable.settle_empty
  cases exhaustive <;> simp [joinArms, h]

@[simp] theorem size_joinArms (arms : List Arm) (exhaustive : Bool) (s : Scope τ) :
    (s.joinArms arms exhaustive).size = s.size := by
  cases exhaustive <;> rfl

@[simp] theorem depth_joinArms (arms : List Arm) (exhaustive : Bool) (s : Scope τ) :
    (s.joinArms arms exhaustive).depth = s.depth := by
  cases exhaustive <;> rfl

end Scope

end DefiniteAssignment
