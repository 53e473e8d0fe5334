import DefiniteAssignment.Flow.Program

/-!
# Induction on control flow

The arms of a branch stand in a list, so an induction on flows or programs has for its
last case a hypothesis about every arm of that list. The walk through a flow is put
together from the walks through its parts in the same order.
-/

namespace DefiniteAssignment

/-- A statement about flows holds of all of them if it passes from the parts to the whole. -/
@[elab_as_elim, induction_eliminator]
theorem Flow.inductionOn {A : Type} {motive : Flow A → Prop} (flow : Flow A)
    (skip : motive .skip) (act : ∀ a, motive (.act a))
    (seq : ∀ first second, motive first → motive second → motive (.seq first second))
    (region : ∀ body, motive body → motive (.region body))
    (branch : ∀ arms exhaustive, (∀ arm ∈ arms, motive arm) → motive (.branch arms exhaustive)) :
    motive flow :=
  match flow with
  | .skip => skip
  | .act a => act a
  | .seq first second =>
    seq first second (inductionOn first skip act seq region branch)
      (inductionOn second skip act seq region branch)
  | .region body => region body (inductionOn body skip act seq region branch)
  | .branch arms exhaustive =>
    branch arms exhaustive fun arm harm ↦
      have := List.sizeOf_lt_of_mem harm
      inductionOn arm skip act seq region branch

namespace Flow

variable {A σ ρ : Type} [Regional σ ρ] {mode : Mode} {perform : A → σ → Except Violation σ}
  {s t u v : σ}

theorem walk_region_of_ok {body : Flow A}
    (hbody : body.walk mode perform (Regional.pushLevel s) = .ok t)
    (hfold : Regional.foldLevel mode t = .ok u) : (region body).walk mode perform s = .ok u := by
  rw [walk, hbody, Violation.ok_bind, hfold]

theorem walkArms_cons_of_ok {arm : Flow A} {arms : List (Flow A)} {taken : ρ} {rest : List ρ}
    (harm : arm.walk mode perform (Regional.pushLevel s) = .ok t)
    (htake : Regional.takeArm mode t = .ok (taken, u))
    (hrest : walkArms mode perform arms u = .ok (rest, v)) :
    walkArms mode perform (arm :: arms) s = .ok (taken :: rest, v) := by
  rw [walkArms, harm, Violation.ok_bind, htake, Violation.ok_bind]
  change (walkArms mode perform arms u >>= _) = _
  rw [hrest]
  rfl

end Flow

/-- A statement about programs holds of all of them if it passes from the parts to the
whole. -/
@[elab_as_elim, induction_eliminator]
theorem Program.inductionOn {τ : Type} {motive : Program τ → Prop} (program : Program τ)
    (skip : motive .skip) (mark : ∀ point, motive (.mark point))
    (declare : ∀ d, motive (.declare d))
    (assign : ∀ name order span, motive (.assign name order span))
    (seq : ∀ first second, motive first → motive second → motive (.seq first second))
    (block : ∀ body, motive body → motive (.block body))
    (region : ∀ body, motive body → motive (.region body))
    (branch : ∀ arms exhaustive, (∀ arm ∈ arms, motive arm) → motive (.branch arms exhaustive)) :
    motive program :=
  match program with
  | .skip => skip
  | .mark point => mark point
  | .declare d => declare d
  | .assign name order span => assign name order span
  | .seq first second =>
    seq first second (inductionOn first skip mark declare assign seq block region branch)
      (inductionOn second skip mark declare assign seq block region branch)
  | .block body => block body (inductionOn body skip mark declare assign seq block region branch)
  | .region body =>
    region body (inductionOn body skip mark declare assign seq block region branch)
  | .branch arms exhaustive =>
    branch arms exhaustive fun arm harm ↦
      have := List.sizeOf_lt_of_mem harm
      inductionOn arm skip mark declare assign seq block region branch

end DefiniteAssignment
