/-!
# The contract of a caller

Some calls make no sense: to pop a level that was never pushed, to name a
binding that must exist and does not, to ask for more storage than can be
counted. What then happens depends on the mode. A strict analysis stops with the
violation; a lenient one goes on where there is a sensible way to go on.
-/

namespace DefiniteAssignment

inductive Mode where
  | strict
  | lenient
deriving DecidableEq, Repr

inductive Violation where
  /-- A binding was said to exist, and does not. -/
  | unboundName
  /-- A level of a scope was popped with none pushed. -/
  | unbalancedPop
  /-- A variable was asked to give up its only level. -/
  | basePop (name : String)
  /-- A total of sizes went past the largest number a size can be. -/
  | overflow
deriving DecidableEq, Repr

def Violation.message : Violation → String
  | unboundName => "no entry found for key"
  | unbalancedPop => "unbalanced initialization level pop"
  | basePop name => "popping the base initialization level of `" ++ name ++ "`"
  | overflow => "attempt to add with overflow"

namespace Violation

variable {α β : Type}

@[simp] theorem ok_bind (a : α) (f : α → Except Violation β) : (.ok a >>= f) = f a := rfl

@[simp] theorem error_bind (v : Violation) (f : α → Except Violation β) :
    (.error v >>= f) = .error v := rfl

/-- What follows a step is run exactly if the step breaks nothing. -/
theorem bind_eq_ok_iff {x : Except Violation α} {f : α → Except Violation β} {b : β} :
    x >>= f = .ok b ↔ ∃ a, x = .ok a ∧ f a = .ok b := by
  cases x <;> simp

/-- What stops a sequence is the step, or what follows it. -/
theorem bind_eq_error_iff {x : Except Violation α} {f : α → Except Violation β} {v : Violation} :
    x >>= f = .error v ↔ x = .error v ∨ ∃ a, x = .ok a ∧ f a = .error v := by
  cases x <;> simp

end Violation

namespace Mode

/-- A strict analysis stops at a breach, a lenient one goes on with the value given. -/
def breach {α : Type} (mode : Mode) (v : Violation) (fallback : α) : Except Violation α :=
  match mode with
  | strict => .error v
  | lenient => .ok fallback

@[simp] theorem breach_strict {α : Type} (v : Violation) (a : α) :
    strict.breach v a = .error v := rfl
@[simp] theorem breach_lenient {α : Type} (v : Violation) (a : α) :
    lenient.breach v a = .ok a := rfl

/-- Sizes are counted in 64 bits. A sum that does not fit is a breach, and wraps
around where that is let pass. -/
def addSize (mode : Mode) (a b : UInt64) : Except Violation UInt64 :=
  if a.toNat + b.toNat < UInt64.size then .ok (a + b) else mode.breach .overflow (a + b)

theorem addSize_of_lt (mode : Mode) {a b : UInt64} (h : a.toNat + b.toNat < UInt64.size) :
    mode.addSize a b = .ok (a + b) := if_pos h

@[simp] theorem addSize_lenient (a b : UInt64) : lenient.addSize a b = .ok (a + b) := by
  simp [addSize]

end Mode

end DefiniteAssignment
