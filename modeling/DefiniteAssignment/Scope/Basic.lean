import DefiniteAssignment.Variable.Call

/-!
# Scopes

The bindings of one lexical block, in the order they were declared. A scope binds
each name once. It knows how many regions are open around it, since a variable
declared late has to have as many levels as one declared early, and it totals the
storage it asked for itself.
-/

namespace DefiniteAssignment

structure Scope (τ : Type) where
  bindings : List (Variable τ) := []
  /-- The storage of the slots reserved through this scope. -/
  size : UInt64 := 0
  /-- How many levels are pushed and not yet popped. -/
  depth : Nat := 0
deriving DecidableEq, Repr

namespace Scope

variable {τ α : Type}

/-- A scope opened with `depth` regions open. -/
def opened (depth : Nat) : Scope τ := { depth := depth }

def empty : Scope τ := opened 0

/-! ## Looking up -/

def find? (s : Scope τ) (name : String) : Option (Variable τ) :=
  s.bindings.find? fun v ↦ v.name = name

def contains (s : Scope τ) (name : String) : Bool := (s.find? name).isSome

/-- For a caller who knows that the name is bound. -/
def lookup (s : Scope τ) (name : String) : Except Violation (Variable τ) :=
  match s.find? name with
  | some v => .ok v
  | none => .error .unboundName

/-- Puts `v` in the place of the variable called `name`. -/
def set (s : Scope τ) (name : String) (v : Variable τ) : Scope τ :=
  { s with bindings := s.bindings.map fun w ↦ if w.name = name then v else w }

/-! ## Calls on one variable -/

/-- Calls the variable of a name, and says so if there is none. -/
def call (mode : Mode) (name : String) (c : Variable.Call) (s : Scope τ) :
    Except Violation (Option (Variable.Reply τ) × Scope τ) :=
  match s.find? name with
  | none => .ok (none, s)
  | some v => (v.call mode c).map fun (r, w) ↦ (some r, s.set name w)

/-- Calls the variable of a name that has to be bound. -/
def demand (mode : Mode) (name : String) (c : Variable.Call) (s : Scope τ) :
    Except Violation (Variable.Reply τ × Scope τ) := do
  let v ← s.lookup name
  (v.call mode c).map fun (r, w) ↦ (r, s.set name w)

theorem name_of_find? {s : Scope τ} {name : String} {v : Variable τ}
    (h : s.find? name = some v) : v.name = name := by
  simpa using List.find?_some h

theorem contains_iff {s : Scope τ} {name : String} :
    s.contains name ↔ name ∈ s.bindings.map (·.name) := by
  simp [contains, find?, List.find?_isSome]

/-! ## Declaring -/

/-- Adds a variable after all others. -/
def bind (s : Scope τ) (d : Declaration τ) (slot : SlotId) (inherited : Bool) : Scope τ :=
  { s with bindings := s.bindings ++ [.fresh d slot inherited s.depth] }

/-- The error a declaration is refused with. -/
def redeclaration (d : Declaration τ) : Error := ⟨.redeclared d.name, d.span⟩

/-- Declares a variable in a slot reserved elsewhere, whose storage is not counted
here. An inherited variable is one that the enclosing declaration introduces: a
parameter or a field. -/
def declareAt (s : Scope τ) (d : Declaration τ) (slot : SlotId) (inherited : Bool) :
    Except Error (Scope τ) :=
  if s.contains d.name then .error (redeclaration d) else .ok (s.bind d slot inherited)

/-- Adds to the storage of a scope. -/
def grow (mode : Mode) (size : UInt64) (s : Scope τ) : Except Violation (Scope τ) :=
  (mode.addSize s.size size).map fun total ↦ { s with size := total }

variable [Storable τ] [Allocator α]

/-- Declares a variable in a slot of its own. A refused declaration reserves
nothing. -/
def declare (mode : Mode) (s : Scope τ) (slots : α) (d : Declaration τ) :
    Except Violation (Except Error (Scope τ × α)) :=
  if s.contains d.name then .ok (.error (redeclaration d))
  else do
    let size := Storable.storageSize d.ty
    let (slot, slots) ← Allocator.reserve mode slots size
    let s ← s.grow mode size
    .ok (.ok (s.bind d slot false, slots))

/-- Reserves a slot that no name stands for. -/
def reserveInternal (mode : Mode) (s : Scope τ) (slots : α) (ty : τ) :
    Except Violation (SlotId × Scope τ × α) := do
  let size := Storable.storageSize ty
  let s ← s.grow mode size
  let (slot, slots) ← Allocator.reserve mode slots size
  .ok (slot, s, slots)

end Scope

end DefiniteAssignment
