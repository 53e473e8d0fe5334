import DefiniteAssignment.Contract

/-!
# Structured control flow

A program whose parts are run one after the other, or one instead of the other. An
analysis walks through all of it once: each part that may be skipped or shared is
a region of its own, with a level pushed before it and popped after it. A machine
runs one path through it: of every branch it takes one arm, or none where the arms
leave that open. What the actions are is left to the state they act on.
-/

namespace DefiniteAssignment

/-- Control flow over the actions of `A`. -/
inductive Flow (A : Type) where
  | skip
  | act (a : A)
  | seq (first second : Flow A)
  /-- A part that always runs, as a region of its own. -/
  | region (body : Flow A)
  /-- Arms that exclude each other, of which one is run if they are exhaustive. -/
  | branch (arms : List (Flow A)) (exhaustive : Bool)

/-- A state in which regions can be entered and left. Leaving an arm yields what it
knew, for the join that follows. -/
class Regional (σ : Type) (ρ : outParam Type) where
  pushLevel : σ → σ
  foldLevel : Mode → σ → Except Violation σ
  takeArm : Mode → σ → Except Violation (ρ × σ)
  joinArms : List ρ → Bool → σ → σ

namespace Flow

variable {A σ ρ : Type}

/-! ## The walk of an analysis -/

section
variable [Regional σ ρ]

mutual

/-- Walks through the whole flow once, with all its arms one after the other. -/
def walk (mode : Mode) (perform : A → σ → Except Violation σ) :
    Flow A → σ → Except Violation σ
  | skip, s => .ok s
  | act a, s => perform a s
  | seq first second, s => do
    let s ← first.walk mode perform s
    second.walk mode perform s
  | region body, s => do
    let s ← body.walk mode perform (Regional.pushLevel s)
    Regional.foldLevel mode s
  | branch arms exhaustive, s => do
    let (taken, s) ← walkArms mode perform arms s
    .ok (Regional.joinArms taken exhaustive s)

/-- Walks through arms, each from the state before the branch, and collects what
each knew at its end. -/
def walkArms (mode : Mode) (perform : A → σ → Except Violation σ) :
    List (Flow A) → σ → Except Violation (List ρ × σ)
  | [], s => .ok ([], s)
  | arm :: arms, s => do
    let s ← arm.walk mode perform (Regional.pushLevel s)
    let (taken, s) ← Regional.takeArm mode s
    let (rest, s) ← walkArms mode perform arms s
    .ok (taken :: rest, s)

end

end

/-! ## The paths of a machine -/

mutual

/-- The straight-line codes a machine may run. Where arms are not exhaustive it may
run none of them. -/
def paths : Flow A → List (List A)
  | skip => [[]]
  | act a => [[a]]
  | seq first second => first.paths.flatMap fun p ↦ second.paths.map (p ++ ·)
  | region body => body.paths
  | branch arms exhaustive => if exhaustive then armPaths arms else [] :: armPaths arms

def armPaths : List (Flow A) → List (List A)
  | [] => []
  | arm :: arms => arm.paths ++ armPaths arms

end

/-- Runs straight-line code. -/
def follow (perform : A → σ → Except Violation σ) : List A → σ → Except Violation σ
  | [], s => .ok s
  | a :: path, s => do
    let s ← perform a s
    follow perform path s

/-- An else-if chain taken apart: each arm beside a branch that holds the arms after
it, so that every branch has two arms and only the last may have none to run. -/
def nest : List (Flow A) → Bool → Flow A
  | [], exhaustive => branch [] exhaustive
  | [arm], exhaustive => branch [arm] exhaustive
  | arm :: arms, exhaustive => branch [arm, nest arms exhaustive] true

theorem armPaths_eq_flatMap (arms : List (Flow A)) : armPaths arms = arms.flatMap paths := by
  induction arms with
  | nil => simp [armPaths]
  | cons arm arms ih => simp [armPaths, ih]

@[simp] theorem follow_nil (perform : A → σ → Except Violation σ) (s : σ) :
    follow perform [] s = .ok s := rfl

theorem follow_append (perform : A → σ → Except Violation σ) (p q : List A) (s : σ) :
    follow perform (p ++ q) s = follow perform p s >>= follow perform q := by
  induction p generalizing s with
  | nil => rfl
  | cons a p ih =>
    simp only [List.cons_append, follow]
    cases perform a s with
    | error v => rfl
    | ok t => exact ih t

end Flow

end DefiniteAssignment
