import DefiniteAssignment.Scope.Session
import DefiniteAssignment.Stack.Levels

/-!
# Sessions on a stack

What an analysis does to a stack of scopes, as data, in the manner of the sessions
on one scope. The innermost scope can also be worked on directly. What is then
done to it is no concern of the other scopes, and the slots it reserves come from
an allocator beside the stack's own.
-/

namespace DefiniteAssignment.Stack

inductive Op (τ : Type) where
  | openScope
  | closeScope
  | declare (d : Declaration τ)
  | reserveInternal (ty : τ)
  /-- A slot outside of any scope. -/
  | reserve (size : UInt64)
  | call (name : String) (c : Variable.Call)
  | pushLevel
  | foldLevel
  /-- Ends an arm and keeps it under a label. -/
  | takeArms (label : String)
  /-- Joins arms by their labels; no label stands for an arm with no scopes. -/
  | joinArms (labels : List (Option String)) (exhaustive : Bool)
  /-- Works on the innermost scope alone. -/
  | current (op : Scope.Op τ)
  | report (r : Report)

inductive Reply (τ : Type) where
  | done
  | refused (e : Error)
  | slot (id : SlotId)
  | absent
  | variable (r : Variable.Reply τ)
  /-- The scope that was closed. -/
  | closed (s : Scope τ)
  /-- The root was asked to close, and stays. -/
  | atRoot
  | arms (as : List Arm)
  | current (r : Scope.Reply τ)
deriving DecidableEq, Repr

/-- A stack at work. -/
structure Session (τ α ω : Type) where
  stack : Stack τ
  /-- Where slots come from in direct work on the innermost scope. -/
  slots : α
  shelf : Shelf
  sink : ω
deriving DecidableEq, Repr

namespace Session

variable {τ α ω : Type}

def start (config : Config) (slots : α) (sink : ω) : Session τ α ω :=
  ⟨.start config, slots, .empty, sink⟩

/-- The session on the innermost scope alone. -/
def innermost (x : Session τ α ω) : Scope.Session τ α ω :=
  ⟨x.stack.current, x.slots, x.shelf, x.sink⟩

/-- Takes over what was done to the innermost scope. -/
def resume (x : Session τ α ω) (y : Scope.Session τ α ω) : Session τ α ω where
  stack := { x.stack with current := y.scope }
  slots := y.slots
  shelf := y.shelf
  sink := y.sink

variable [Storable τ] [Allocator α] [Sink ω]

def step (mode : Mode) (x : Session τ α ω) :
    Op τ → Except Violation (Reply τ × Session τ α ω)
  | .openScope => .ok (.done, { x with stack := x.stack.openScope })
  | .closeScope =>
    match x.stack.closeScope? x.sink with
    | some (closed, stack, sink) => .ok (.closed closed, { x with stack := stack, sink := sink })
    | none => .ok (.atRoot, x)
  | .declare d => do
    match ← x.stack.declare mode d with
    | .ok stack => .ok (.done, { x with stack := stack })
    | .error e => .ok (.refused e, x)
  | .reserveInternal ty => do
    let (slot, stack) ← x.stack.reserveInternal mode ty
    .ok (.slot slot, { x with stack := stack })
  | .reserve size => do
    let (slot, stack) ← x.stack.reserve mode size
    .ok (.slot slot, { x with stack := stack })
  | .call name c => do
    let (r, stack) ← x.stack.call mode name c
    .ok (r.elim .absent .variable, { x with stack := stack })
  | .pushLevel => .ok (.done, { x with stack := x.stack.pushLevel })
  | .foldLevel => do
    let stack ← x.stack.foldLevel mode
    .ok (.done, { x with stack := stack })
  | .takeArms label => do
    let (arms, stack) ← x.stack.takeArms mode
    .ok (.arms arms, { x with stack := stack, shelf := x.shelf.keep label arms })
  | .joinArms labels exhaustive =>
    let arms := labels.map fun label ↦ label.elim [] x.shelf.arms
    .ok (.done, { x with stack := x.stack.joinArms arms exhaustive })
  | .current op => do
    let (r, y) ← x.innermost.step mode op
    .ok (.current r, x.resume y)
  | .report r => .ok (.done, { x with sink := emit x.sink r })

/-- Performs operations in order, and collects what they answer. -/
def run (mode : Mode) : Session τ α ω → List (Op τ) →
    Except Violation (List (Reply τ) × Session τ α ω) :=
  runBy (step mode)

section
variable {mode : Mode} {x z : Session τ α ω} {op : Op τ} {ops : List (Op τ)}
  {rs : List (Reply τ)} {v : Violation}

@[simp] theorem run_nil : x.run mode [] = .ok ([], x) := rfl

theorem run_cons_eq_ok_iff :
    x.run mode (op :: ops) = .ok (rs, z) ↔
      ∃ r y qs, x.step mode op = .ok (r, y) ∧ y.run mode ops = .ok (qs, z) ∧ rs = r :: qs :=
  runBy_cons_eq_ok_iff

theorem run_cons_eq_error_iff :
    x.run mode (op :: ops) = .error v ↔
      x.step mode op = .error v ∨
        ∃ r y, x.step mode op = .ok (r, y) ∧ y.run mode ops = .error v :=
  runBy_cons_eq_error_iff

theorem run_concat_eq_ok_iff :
    x.run mode (ops ++ [op]) = .ok (rs, z) ↔
      ∃ qs y r, x.run mode ops = .ok (qs, y) ∧ y.step mode op = .ok (r, z) ∧ rs = qs ++ [r] :=
  runBy_concat_eq_ok_iff

end

end Session

end DefiniteAssignment.Stack
