import DefiniteAssignment.Arm.Shelf
import DefiniteAssignment.Run
import DefiniteAssignment.Scope.Check
import DefiniteAssignment.Scope.Levels

/-!
# Sessions on a scope

What an analysis does to a scope, as data. A session is a scope together with all
that its operations work on: the allocator slots come from, the arms that wait to
be joined, and the sink reports go to. A step performs one operation and answers
it, and a run is a list of steps that ends early only where the contract is
broken.
-/

namespace DefiniteAssignment.Scope

inductive Op (τ : Type) where
  | declare (d : Declaration τ)
  | declareAt (d : Declaration τ) (slot : SlotId) (inherited : Bool)
  | reserveInternal (ty : τ)
  | contains (name : String)
  /-- A call on a variable that may be absent. -/
  | call (name : String) (c : Variable.Call)
  /-- A call on a variable that has to be there. -/
  | demand (name : String) (c : Variable.Call)
  | setAll (initial : Bool)
  | pushLevel
  | foldLevel
  /-- Ends an arm and keeps it under a label. -/
  | takeArm (label : String)
  | joinArms (arms : List ArmRef) (exhaustive : Bool)
  | checkAll (span : Span) (kindOf : String → ErrorKind)
  | recommend
  /-- Something the analysis has to say for itself. -/
  | report (r : Report)

inductive Reply (τ : Type) where
  | done
  | refused (e : Error)
  | slot (id : SlotId)
  | bound (b : Bool)
  | absent
  | variable (r : Variable.Reply τ)
  | arm (a : Arm)
  | counted (n : Nat)
deriving DecidableEq, Repr

/-- A scope at work. -/
structure Session (τ α ω : Type) where
  scope : Scope τ
  slots : α
  shelf : Shelf
  sink : ω
deriving DecidableEq, Repr

namespace Session

variable {τ α ω : Type}

/-- An empty scope, with no arms kept. -/
def start (slots : α) (sink : ω) : Session τ α ω := ⟨.empty, slots, .empty, sink⟩

variable [Storable τ] [Allocator α] [Sink ω]

def step (mode : Mode) (x : Session τ α ω) :
    Op τ → Except Violation (Reply τ × Session τ α ω)
  | .declare d => do
    match ← x.scope.declare mode x.slots d with
    | .ok (scope, slots) => .ok (.done, { x with scope := scope, slots := slots })
    | .error e => .ok (.refused e, x)
  | .declareAt d slot inherited =>
    match x.scope.declareAt d slot inherited with
    | .ok scope => .ok (.done, { x with scope := scope })
    | .error e => .ok (.refused e, x)
  | .reserveInternal ty => do
    let (slot, scope, slots) ← x.scope.reserveInternal mode x.slots ty
    .ok (.slot slot, { x with scope := scope, slots := slots })
  | .contains name => .ok (.bound (x.scope.contains name), x)
  | .call name c => do
    let (r, scope) ← x.scope.call mode name c
    .ok (r.elim .absent .variable, { x with scope := scope })
  | .demand name c => do
    let (r, scope) ← x.scope.demand mode name c
    .ok (.variable r, { x with scope := scope })
  | .setAll initial => .ok (.done, { x with scope := x.scope.setAll initial })
  | .pushLevel => .ok (.done, { x with scope := x.scope.pushLevel })
  | .foldLevel => do
    let scope ← x.scope.foldLevel mode
    .ok (.done, { x with scope := scope })
  | .takeArm label => do
    let (arm, scope) ← x.scope.takeArm mode
    .ok (.arm arm, { x with scope := scope, shelf := x.shelf.keep label [arm] })
  | .joinArms arms exhaustive =>
    .ok (.done, { x with scope := x.scope.joinArms (arms.map x.shelf.arm) exhaustive })
  | .checkAll span kindOf =>
    let (n, sink) := x.scope.checkAll span kindOf x.sink
    .ok (.counted n, { x with sink := sink })
  | .recommend => .ok (.done, { x with sink := x.scope.recommend x.sink })
  | .report r => .ok (.done, { x with sink := emit x.sink r })

/-- Performs operations in order, and collects what they answer. -/
def run (mode : Mode) : Session τ α ω → List (Op τ) →
    Except Violation (List (Reply τ) × Session τ α ω) :=
  runBy (step mode)

section
variable {mode : Mode} {x z : Session τ α ω} {op : Op τ} {ops ops' : List (Op τ)}
  {rs : List (Reply τ)}

@[simp] theorem run_nil : x.run mode [] = .ok ([], x) := rfl

theorem run_cons : x.run mode (op :: ops) = (do
    let (r, y) ← x.step mode op
    let (rs, z) ← y.run mode ops
    .ok (r :: rs, z)) := runBy_cons

theorem run_cons_eq_ok_iff :
    x.run mode (op :: ops) = .ok (rs, z) ↔
      ∃ r y qs, x.step mode op = .ok (r, y) ∧ y.run mode ops = .ok (qs, z) ∧ rs = r :: qs :=
  runBy_cons_eq_ok_iff

theorem run_append : x.run mode (ops ++ ops') = (do
    let (rs, y) ← x.run mode ops
    let (rs', z) ← y.run mode ops'
    .ok (rs ++ rs', z)) := runBy_append

theorem run_concat_eq_ok_iff :
    x.run mode (ops ++ [op]) = .ok (rs, z) ↔
      ∃ qs y r, x.run mode ops = .ok (qs, y) ∧ y.step mode op = .ok (r, z) ∧ rs = qs ++ [r] :=
  runBy_concat_eq_ok_iff

end

end Session

end DefiniteAssignment.Scope
