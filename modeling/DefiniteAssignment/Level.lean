/-!
# Initialization levels

What is known about one variable in one region of control flow: nothing, or that
it has been given a value, and then by which step of the program. A region that
is always run adds what it learns to what was known before it, so folding its
level into the enclosing one is a union in which the older knowledge wins.
-/

namespace DefiniteAssignment

/-- The step that gave a variable its value, as the analysis counts steps. -/
abbrev Order := Nat

/-- `none` where a variable may be without a value. -/
abbrev Level := Option Order

namespace Level

/-- The enclosing level after the region inside it has ended. -/
def fold (outer inner : Level) : Level := outer.or inner

@[simp] theorem fold_none (inner : Level) : fold none inner = inner := rfl
@[simp] theorem fold_some (o : Order) (inner : Level) : fold (some o) inner = some o := rfl
@[simp] theorem fold_none_right (outer : Level) : fold outer none = outer := by cases outer <;> rfl
@[simp] theorem fold_self (l : Level) : fold l l = l := by cases l <;> rfl

/-- What is known after several regions of which one is run: what all of them know,
as the first puts it. -/
def meet : List Level → Level
  | [] => none
  | l :: ls => if ls.all Option.isSome then l else none

@[simp] theorem meet_nil : meet [] = none := rfl
@[simp] theorem meet_singleton (l : Level) : meet [l] = l := rfl

theorem isSome_meet (ls : List Level) (h : ls ≠ []) :
    (meet ls).isSome = ls.all Option.isSome := by
  cases ls with
  | nil => exact absurd rfl h
  | cons l ls => cases hl : ls.all Option.isSome <;> simp [meet, hl]

theorem isSome_fold (outer inner : Level) :
    (fold outer inner).isSome = (outer.isSome || inner.isSome) := by
  cases outer <;> rfl

end Level

end DefiniteAssignment
