import DefiniteAssignment.Scope.Check

/-!
# Stacks of scopes

The scopes open at one point of a program, from the root of the unit to the
innermost block. A name means its innermost binding. One counter gives out the
slots of all scopes, so that no two variables of a unit share one.

A scope is judged when it closes: unless the configuration says otherwise, its
bindings that could be frozen are reported. The root is never popped; it is
closed by finishing the unit, which closes everything else first.
-/

namespace DefiniteAssignment

structure Config where
  /-- Whether a closing scope reports the bindings that could be frozen. -/
  recommendFrozen : Bool := true
deriving DecidableEq, Repr

structure Stack (τ : Type) where
  config : Config := {}
  current : Scope τ := .empty
  /-- The scopes around the current one, the root first. -/
  enclosing : List (Scope τ) := []
  counter : SlotCounter := {}
  /-- How many levels are pushed on the whole stack. -/
  depth : Nat := 0
deriving DecidableEq, Repr

namespace Stack

variable {τ ω : Type}

/-- The stack of a unit that begins: one empty scope. -/
def start (config : Config) : Stack τ := { config := config }

/-- The open scopes, the root first. -/
def scopes (s : Stack τ) : List (Scope τ) := s.enclosing ++ [s.current]

@[simp] theorem length_scopes (s : Stack τ) : s.scopes.length = s.enclosing.length + 1 := by
  simp [scopes]

/-! ## Opening and closing scopes -/

/-- Opens a scope. The levels already pushed on the stack concern it too. -/
def openScope (s : Stack τ) : Stack τ :=
  { s with current := .opened s.depth, enclosing := s.scopes }

/-- What is said about a scope that closes. -/
def judge [Sink ω] (config : Config) (sink : ω) (closing : Scope τ) : ω :=
  if config.recommendFrozen then closing.recommend sink else sink

/-- Closes the innermost scope and hands it back, unless it is the root. -/
def closeScope? [Sink ω] (s : Stack τ) (sink : ω) : Option (Scope τ × Stack τ × ω) :=
  s.enclosing.getLast?.map fun outer ↦
    (s.current, { s with current := outer, enclosing := s.enclosing.dropLast },
      judge s.config sink s.current)

/-- The scope every other one was opened in. -/
def root (s : Stack τ) : Scope τ := s.enclosing.head?.getD s.current

/-- Closes all scopes from the innermost to the root, and hands back the root. -/
def finish [Sink ω] (s : Stack τ) (sink : ω) : Scope τ × ω :=
  (s.root, s.scopes.reverse.foldl (judge s.config) sink)

@[simp] theorem scopes_start (config : Config) : (start config : Stack τ).scopes = [.empty] := rfl

@[simp] theorem scopes_openScope (s : Stack τ) :
    s.openScope.scopes = s.scopes ++ [.opened s.depth] := rfl

theorem closeScope?_eq_none_iff [Sink ω] (s : Stack τ) (sink : ω) :
    s.closeScope? sink = none ↔ s.enclosing = [] := by
  simp [closeScope?]

theorem finish_of_closeScope?_eq_none [Sink ω] {s : Stack τ} {sink : ω}
    (h : s.closeScope? sink = none) :
    s.finish sink = (s.current, judge s.config sink s.current) := by
  have h := (closeScope?_eq_none_iff s sink).mp h
  simp [finish, root, scopes, h]

/-- Finishing a unit is closing its scopes one by one. -/
theorem finish_of_closeScope? [Sink ω] {s t : Stack τ} {sink out : ω} {closed : Scope τ}
    (h : s.closeScope? sink = some (closed, t, out)) : s.finish sink = t.finish out := by
  obtain ⟨outer, hl, h⟩ := Option.map_eq_some_iff.mp h
  cases h
  obtain ⟨before, he⟩ := List.getLast?_eq_some_iff.mp hl
  have hd : s.enclosing.dropLast = before := by rw [he, List.dropLast_concat]
  simp only [finish, root, scopes, hd]
  cases before <;> simp [he]

/-! ## Names -/

/-- The binding of a name in the last scope of a list that binds it. -/
def findInnermost (name : String) : List (Scope τ) → Option (Variable τ)
  | [] => none
  | s :: inner => findInnermost name inner <|> s.find? name

/-- Puts a variable in the place of the one `findInnermost` finds. -/
def setInnermost (name : String) (v : Variable τ) : List (Scope τ) → List (Scope τ)
  | [] => []
  | s :: inner =>
    if (findInnermost name inner).isSome then s :: setInnermost name v inner
    else s.set name v :: inner

/-- The place of the scope in which `findInnermost` finds a name. -/
def placeInnermost (name : String) : List (Scope τ) → Option Nat
  | [] => none
  | s :: inner =>
    match placeInnermost name inner with
    | some place => some (place + 1)
    | none => if s.contains name then some 0 else none

/-- What a name means at this point of the program. -/
def find? (s : Stack τ) (name : String) : Option (Variable τ) :=
  s.current.find? name <|> findInnermost name s.enclosing

/-- The place of the scope that gives a name its meaning, the root being at zero. -/
def place? (s : Stack τ) (name : String) : Option Nat := placeInnermost name s.scopes

/-- Puts `v` in the place of the variable the name means. -/
def set (s : Stack τ) (name : String) (v : Variable τ) : Stack τ :=
  if s.current.contains name then { s with current := s.current.set name v }
  else { s with enclosing := setInnermost name v s.enclosing }

/-- Calls the variable a name means, and says so if there is none. -/
def call (mode : Mode) (name : String) (c : Variable.Call) (s : Stack τ) :
    Except Violation (Option (Variable.Reply τ) × Stack τ) :=
  match s.find? name with
  | none => .ok (none, s)
  | some v => (v.call mode c).map fun (r, w) ↦ (some r, s.set name w)

theorem findInnermost_append (name : String) (outer inner : List (Scope τ)) :
    findInnermost name (outer ++ inner) =
      (findInnermost name inner <|> findInnermost name outer) := by
  induction outer with
  | nil => simp [findInnermost]
  | cons s outer ih => simp [findInnermost, ih, Option.or_assoc]

theorem find?_eq_findInnermost (s : Stack τ) (name : String) :
    s.find? name = findInnermost name s.scopes := by
  simp [find?, scopes, findInnermost_append, findInnermost]

theorem isSome_placeInnermost (name : String) (scopes : List (Scope τ)) :
    (placeInnermost name scopes).isSome = (findInnermost name scopes).isSome := by
  induction scopes with
  | nil => rfl
  | cons s inner ih =>
    simp only [placeInnermost, findInnermost, Scope.contains]
    cases hp : placeInnermost name inner <;> cases hf : findInnermost name inner <;> simp_all
    by_cases h : (s.find? name).isSome <;> simp [h]

/-- A name has a place exactly where it has a meaning. -/
theorem isSome_place? (s : Stack τ) (name : String) :
    (s.place? name).isSome = (s.find? name).isSome := by
  rw [place?, isSome_placeInnermost, find?_eq_findInnermost]

/-! ## Slots -/

section
variable [Storable τ]

/-- Declares a variable in the innermost scope. -/
def declare (mode : Mode) (s : Stack τ) (d : Declaration τ) :
    Except Violation (Except Error (Stack τ)) := do
  match ← s.current.declare mode s.counter d with
  | .ok (current, counter) => .ok (.ok { s with current := current, counter := counter })
  | .error e => .ok (.error e)

/-- Reserves a slot that no name stands for, in the innermost scope. -/
def reserveInternal (mode : Mode) (s : Stack τ) (ty : τ) :
    Except Violation (SlotId × Stack τ) := do
  let (slot, current, counter) ← s.current.reserveInternal mode s.counter ty
  .ok (slot, { s with current := current, counter := counter })

end

/-- Reserves a slot that belongs to no scope. -/
def reserve (mode : Mode) (s : Stack τ) (size : UInt64) : Except Violation (SlotId × Stack τ) :=
  (s.counter.reserve mode size).map fun (slot, counter) ↦ (slot, { s with counter := counter })

end Stack

end DefiniteAssignment
