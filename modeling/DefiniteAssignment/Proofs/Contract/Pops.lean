import DefiniteAssignment.Proofs.Contract.Basic
import DefiniteAssignment.Stack.Levels

/-!
# Giving up a level

The operations that end a region, as functions that always give a result, beside what
each of them breaches. A variable breaches the contract at its base level. A scope does
where it has no level pushed, and else where the first of its variables does; a stack
where the outermost of its scopes does. Each operation then has one equation that holds
in both modes.
-/

namespace DefiniteAssignment

variable {τ : Type}

namespace Variable

/-- The end of a region that always runs. The base level stays. -/
def folded (v : Variable τ) : Variable τ :=
  match v.enclosing with
  | [] => v
  | l :: outer => v.leave (Level.fold l v.current) outer

/-- The end of an arm. The base level stays. -/
def shed (v : Variable τ) : Variable τ :=
  match v.enclosing with
  | [] => v
  | l :: outer => v.leave l outer

/-- What is breached where a level of the variable ends. -/
def popBreach? (v : Variable τ) : Option Violation :=
  if v.depth = 1 then some (.basePop v.name) else none

theorem popBreach?_of_nil {v : Variable τ} (h : v.enclosing = []) :
    v.popBreach? = some (.basePop v.name) := if_pos (by rw [depth, h]; rfl)

theorem popBreach?_of_ne_nil {v : Variable τ} (h : v.enclosing ≠ []) : v.popBreach? = none := by
  refine if_neg fun hd ↦ h (List.eq_nil_of_length_eq_zero ?_)
  simpa [depth] using hd

theorem foldLevel_eq_stop (mode : Mode) (v : Variable τ) :
    v.foldLevel mode = mode.stop v.popBreach? (.ok v.folded) := by
  cases h : v.enclosing with
  | nil => rw [popBreach?_of_nil h, ← Mode.breach_eq_stop]; simp only [foldLevel, folded, h]
  | cons l outer =>
    rw [popBreach?_of_ne_nil (by simp [h]), Mode.stop_none]
    simp only [foldLevel, folded, h]

theorem takeLevel_eq_stop (mode : Mode) (v : Variable τ) :
    v.takeLevel mode = mode.stop v.popBreach? (.ok (v.current, v.shed)) := by
  cases h : v.enclosing with
  | nil => rw [popBreach?_of_nil h, ← Mode.breach_eq_stop]; simp only [takeLevel, shed, h]
  | cons l outer =>
    rw [popBreach?_of_ne_nil (by simp [h]), Mode.stop_none]
    simp only [takeLevel, shed, h]

@[simp] theorem toDeclaration_shed (v : Variable τ) :
    v.shed.toDeclaration = v.toDeclaration := by
  unfold shed
  split <;> rfl

end Variable

namespace Scope

/-- The end of a region that always runs. A scope with no level pushed stays. -/
def folded (s : Scope τ) : Scope τ :=
  if s.depth = 0 then s
  else { s with bindings := s.bindings.map .folded, depth := s.depth - 1 }

/-- The end of an arm. A scope with no level pushed stays. -/
def shed (s : Scope τ) : Scope τ :=
  if s.depth = 0 then s
  else { s with bindings := s.bindings.map .shed, depth := s.depth - 1 }

/-- What the variables know at their current levels. -/
def knowledge (s : Scope τ) : Arm := .ofLevels (s.bindings.map fun v ↦ (v.current, v))

/-- What an arm says that ends here. -/
def lastArm (s : Scope τ) : Arm := if s.depth = 0 then .empty else s.knowledge

/-- What is breached where a level of the scope ends. -/
def popBreach? (s : Scope τ) : Option Violation :=
  if s.depth = 0 then some .unbalancedPop else s.bindings.findSome? Variable.popBreach?

theorem foldLevel_eq_stop (mode : Mode) (s : Scope τ) :
    s.foldLevel mode = mode.stop s.popBreach? (.ok s.folded) := by
  unfold foldLevel folded popBreach?
  split
  · next h => rw [if_pos h, if_pos h, Mode.breach_eq_stop]
  · next d h =>
    have hd : s.depth ≠ 0 := by omega
    rw [if_neg hd, if_neg hd, h,
      Mode.mapM_eq_stop fun v _ ↦ Variable.foldLevel_eq_stop mode v, Mode.bind_stop]
    rfl

theorem knowledge_eq_ofLevels_shed (s : Scope τ) :
    .ofLevels (s.bindings.map fun v ↦ (v.current, v.shed)) = s.knowledge := by
  simp only [knowledge, Arm.ofLevels, List.filterMap_map, Function.comp_def,
    Variable.toDeclaration_shed]

theorem takeArm_eq_stop (mode : Mode) (s : Scope τ) :
    s.takeArm mode = mode.stop s.popBreach? (.ok (s.lastArm, s.shed)) := by
  unfold takeArm lastArm shed popBreach?
  split
  · next h => rw [if_pos h, if_pos h, if_pos h, Mode.breach_eq_stop]
  · next d h =>
    have hd : s.depth ≠ 0 := by omega
    rw [if_neg hd, if_neg hd, if_neg hd, h,
      Mode.mapM_eq_stop fun v _ ↦ Variable.takeLevel_eq_stop mode v, Mode.bind_stop,
      Violation.ok_bind, knowledge_eq_ofLevels_shed, List.map_map]
    rfl

end Scope

namespace Stack

/-- The end of a region that always runs. -/
def folded (s : Stack τ) : Stack τ :=
  { s with
    current := s.current.folded
    enclosing := s.enclosing.map .folded
    depth := s.depth - 1 }

/-- The end of an arm. -/
def shed (s : Stack τ) : Stack τ :=
  { s with
    current := s.current.shed
    enclosing := s.enclosing.map .shed
    depth := s.depth - 1 }

/-- What the scopes say about an arm that ends here, the root first. -/
def lastArms (s : Stack τ) : List Arm := s.scopes.map Scope.lastArm

/-- What is breached where a level of the stack ends. -/
def popBreach? (s : Stack τ) : Option Violation := s.scopes.findSome? Scope.popBreach?

@[simp] theorem scopes_folded (s : Stack τ) : s.folded.scopes = s.scopes.map .folded := by
  simp [scopes, folded]

@[simp] theorem scopes_shed (s : Stack τ) : s.shed.scopes = s.scopes.map .shed := by
  simp [scopes, shed]

theorem popBreach?_eq_or (s : Stack τ) :
    s.popBreach? = (s.enclosing.findSome? Scope.popBreach? <|> s.current.popBreach?) := by
  simp [popBreach?, scopes, List.findSome?_append]

theorem foldLevel_eq_stop (mode : Mode) (s : Stack τ) :
    s.foldLevel mode = mode.stop s.popBreach? (.ok s.folded) := by
  unfold foldLevel
  rw [Mode.mapM_eq_stop fun t _ ↦ Scope.foldLevel_eq_stop mode t, Mode.bind_stop,
    Scope.foldLevel_eq_stop, popBreach?_eq_or, ← Mode.stop_stop]
  simp only [Violation.ok_bind, Mode.bind_stop]
  rfl

theorem takeArms_eq_stop (mode : Mode) (s : Stack τ) :
    s.takeArms mode = mode.stop s.popBreach? (.ok (s.lastArms, s.shed)) := by
  unfold takeArms
  rw [Mode.mapM_eq_stop fun t _ ↦ Scope.takeArm_eq_stop mode t, Mode.bind_stop,
    Scope.takeArm_eq_stop, popBreach?_eq_or, ← Mode.stop_stop]
  simp only [Violation.ok_bind, Mode.bind_stop]
  simp [lastArms, scopes, shed, Function.comp_def]

end Stack

end DefiniteAssignment
