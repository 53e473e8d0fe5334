import DefiniteAssignment.Level
import DefiniteAssignment.Report.Basic
import DefiniteAssignment.Slot

/-!
# Variables

One binding and what is known about it. A variable carries a stack of levels, one
for each region the analysis is in, and there is always a level at the base. A
region is entered with a copy of the current level. It is left in one of two
ways. A region that always runs is folded into the level around it. One of
several arms that exclude each other is taken off as it is, since folding such
arms one after the other would turn "in some arm" into "in every arm".
-/

namespace DefiniteAssignment

/-- What the program says about a binding where it introduces it. -/
structure Declaration (τ : Type) where
  name : String
  ty : τ
  /-- A frozen variable is given a value at most once. -/
  frozen : Bool
  span : Span
deriving DecidableEq, Repr

/-- A binding and its levels. The current level is kept apart from those around
it, so that no variable is without a level. -/
structure Variable (τ : Type) extends Declaration τ where
  slot : SlotId
  /-- Introduced by an enclosing declaration, which answers for its value. -/
  inherited : Bool := false
  /-- Given a value while it had one. -/
  mutated : Bool := false
  current : Level := none
  /-- The levels around the current one, the nearest first. -/
  enclosing : List Level := []
  /-- The order of the first initialization of all, at whatever level. -/
  firstOrder : Option Order := none
deriving DecidableEq, Repr

namespace Variable

variable {τ : Type}

/-- A variable as it is when declared with `depth` regions open. -/
def fresh (d : Declaration τ) (slot : SlotId) (inherited : Bool) (depth : Nat) : Variable τ where
  toDeclaration := d
  slot := slot
  inherited := inherited
  enclosing := List.replicate depth none

/-- The levels from the base to the current one. -/
def levels (v : Variable τ) : List Level := v.enclosing.reverse ++ [v.current]

/-- The number of levels, the base included. -/
def depth (v : Variable τ) : Nat := v.enclosing.length + 1

def initialized (v : Variable τ) : Bool := v.current.isSome

/-! ## Giving and taking a value -/

/-- A value given at a step. Being given one for the first time is not a mutation. -/
def define (order : Order) (v : Variable τ) : Variable τ :=
  { v with current := some order, firstOrder := v.firstOrder.or (some order) }

def undefine (v : Variable τ) : Variable τ := { v with current := none }

def markMutated (v : Variable τ) : Variable τ := { v with mutated := true }

/-- An assignment gives a variable its value, or mutates it where it has one. A
frozen variable refuses the second, and then stays as it is. -/
def assign (order : Order) (span : Span) (v : Variable τ) : Except Error (Variable τ) :=
  if v.initialized then
    if v.frozen then .error ⟨.frozenMutation v.name, span⟩
    else .ok (v.markMutated.define order)
  else .ok (v.define order)

/-- The check made where a variable is used. -/
def ensureInitialized (span : Span) (v : Variable τ) : Except Error Unit :=
  if v.initialized then .ok () else .error ⟨.possiblyUninitialized v.name, span⟩

/-! ## Regions -/

def pushLevel (v : Variable τ) : Variable τ := { v with enclosing := v.current :: v.enclosing }

/-- Drops the current level. The one around it becomes current, as `l`. -/
def leave (l : Level) (outer : List Level) (v : Variable τ) : Variable τ :=
  { v with current := l, enclosing := outer }

/-- Ends a region that always runs. -/
def foldLevel (mode : Mode) (v : Variable τ) : Except Violation (Variable τ) :=
  match v.enclosing with
  | [] => mode.breach (.basePop v.name) v
  | l :: outer => .ok (v.leave (Level.fold l v.current) outer)

/-- Ends an arm, and says what was known at its end. The base level is never
given up: where that is let pass, it is only read. -/
def takeLevel (mode : Mode) (v : Variable τ) : Except Violation (Level × Variable τ) :=
  match v.enclosing with
  | [] => mode.breach (.basePop v.name) (v.current, v)
  | l :: outer => .ok (v.current, v.leave l outer)

/-! ## What each step leaves alone -/

@[simp] theorem toDeclaration_fresh (d : Declaration τ) (slot : SlotId) (inh : Bool) (n : Nat) :
    (fresh d slot inh n).toDeclaration = d := rfl
@[simp] theorem current_fresh (d : Declaration τ) (slot : SlotId) (inh : Bool) (n : Nat) :
    (fresh d slot inh n).current = none := rfl
@[simp] theorem depth_fresh (d : Declaration τ) (slot : SlotId) (inh : Bool) (n : Nat) :
    (fresh d slot inh n).depth = n + 1 := by simp [depth, fresh]

@[simp] theorem toDeclaration_define (o : Order) (v : Variable τ) :
    (v.define o).toDeclaration = v.toDeclaration := rfl
@[simp] theorem current_define (o : Order) (v : Variable τ) :
    (v.define o).current = some o := rfl
@[simp] theorem enclosing_define (o : Order) (v : Variable τ) :
    (v.define o).enclosing = v.enclosing := rfl
@[simp] theorem initialized_define (o : Order) (v : Variable τ) :
    (v.define o).initialized = true := rfl

@[simp] theorem toDeclaration_undefine (v : Variable τ) :
    v.undefine.toDeclaration = v.toDeclaration := rfl
@[simp] theorem current_undefine (v : Variable τ) : v.undefine.current = none := rfl
@[simp] theorem enclosing_undefine (v : Variable τ) :
    v.undefine.enclosing = v.enclosing := rfl

@[simp] theorem toDeclaration_markMutated (v : Variable τ) :
    v.markMutated.toDeclaration = v.toDeclaration := rfl
@[simp] theorem current_markMutated (v : Variable τ) : v.markMutated.current = v.current := rfl
@[simp] theorem enclosing_markMutated (v : Variable τ) :
    v.markMutated.enclosing = v.enclosing := rfl

@[simp] theorem toDeclaration_pushLevel (v : Variable τ) :
    v.pushLevel.toDeclaration = v.toDeclaration := rfl
@[simp] theorem current_pushLevel (v : Variable τ) : v.pushLevel.current = v.current := rfl
@[simp] theorem enclosing_pushLevel (v : Variable τ) :
    v.pushLevel.enclosing = v.current :: v.enclosing := rfl
@[simp] theorem depth_pushLevel (v : Variable τ) : v.pushLevel.depth = v.depth + 1 := rfl

@[simp] theorem toDeclaration_leave (l : Level) (outer : List Level) (v : Variable τ) :
    (v.leave l outer).toDeclaration = v.toDeclaration := rfl
@[simp] theorem current_leave (l : Level) (outer : List Level) (v : Variable τ) :
    (v.leave l outer).current = l := rfl
@[simp] theorem enclosing_leave (l : Level) (outer : List Level) (v : Variable τ) :
    (v.leave l outer).enclosing = outer := rfl

theorem leave_pushLevel (v : Variable τ) : v.pushLevel.leave v.current v.enclosing = v := rfl

end Variable

end DefiniteAssignment
