import DefiniteAssignment.Contract

/-!
# Stopping at a breach

Every operation that can break the contract is the same in both modes but for what a
breach does to it. `Mode.stop` says this once: what a lenient analysis makes of an
operation, and what the operation breaches, determine what a strict one makes of it.
The laws below carry the statement through sequences and loops, where the breach that
counts is the first.
-/

namespace DefiniteAssignment

namespace Mode

variable {α β : Type}

/-- The outcome of an operation that a lenient analysis carries out as `x`. -/
def stop (mode : Mode) (breach? : Option Violation) (x : Except Violation α) :
    Except Violation α :=
  match mode, breach? with
  | strict, some v => .error v
  | _, _ => x

@[simp] theorem stop_lenient (b : Option Violation) (x : Except Violation α) :
    lenient.stop b x = x := rfl

@[simp] theorem stop_none (mode : Mode) (x : Except Violation α) : mode.stop none x = x := by
  cases mode <;> rfl

@[simp] theorem stop_strict_some (v : Violation) (x : Except Violation α) :
    strict.stop (some v) x = .error v := rfl

/-- A breach in the given mode is a stop, and no breach is none. -/
theorem breach_eq_stop (mode : Mode) (v : Violation) (a : α) :
    mode.breach v a = mode.stop (some v) (.ok a) := by
  cases mode <;> rfl

theorem map_stop (mode : Mode) (b : Option Violation) (f : α → β) (x : Except Violation α) :
    (mode.stop b x).map f = mode.stop b (x.map f) := by
  cases mode with
  | lenient => rfl
  | strict => cases b <;> rfl

theorem bind_stop (mode : Mode) (b : Option Violation) (x : Except Violation α)
    (f : α → Except Violation β) : (mode.stop b x >>= f) = mode.stop b (x >>= f) := by
  cases mode with
  | lenient => rfl
  | strict => cases b <;> rfl

theorem stop_stop (mode : Mode) (b c : Option Violation) (x : Except Violation α) :
    mode.stop b (mode.stop c x) = mode.stop (b <|> c) x := by
  cases mode with
  | lenient => rfl
  | strict => cases b <;> rfl

/-- A strict analysis gets through exactly where nothing is breached. -/
theorem stop_strict_eq_ok_iff {b : Option Violation} {x : Except Violation α} {a : α} :
    strict.stop b x = .ok a ↔ b = none ∧ x = .ok a := by
  cases b <;> simp

theorem stop_strict_eq_error_iff {b : Option Violation} {a : α} {v : Violation} :
    strict.stop b (.ok a) = .error v ↔ b = some v := by
  cases b <;> simp

/-- What is given in either mode is what a lenient analysis gives. -/
theorem eq_of_stop_eq_ok {mode : Mode} {b : Option Violation} {a c : α}
    (h : mode.stop b (.ok a) = .ok c) : c = a := by
  cases mode with
  | lenient => cases h; rfl
  | strict => cases (stop_strict_eq_ok_iff.mp h).2; rfl

/-- Where nothing is breached that could be, nothing is breached by less. -/
theorem stop_eq_self {γ : Type} {mode : Mode} {b b' : Option Violation} {x : Except Violation α}
    {a : α} (h : mode.stop b x = .ok a) (hb : b = none → b' = none) (z : Except Violation γ) :
    mode.stop b' z = z := by
  cases mode with
  | lenient => rfl
  | strict => rw [hb (stop_strict_eq_ok_iff.mp h).1, stop_none]

/-- A loop stops where its first element that breaches the contract does. -/
theorem mapM_eq_stop {mode : Mode} {f : α → Except Violation β} {g : α → β}
    {b : α → Option Violation} {l : List α} (h : ∀ a ∈ l, f a = mode.stop (b a) (.ok (g a))) :
    l.mapM f = mode.stop (l.findSome? b) (.ok (l.map g)) := by
  induction l with
  | nil => rw [List.findSome?_nil, stop_none]; rfl
  | cons a l ih =>
    have hl : l.mapM f = mode.stop (l.findSome? b) (.ok (l.map g)) :=
      ih fun c hc ↦ h c (List.mem_cons_of_mem a hc)
    rw [List.mapM_cons, h a List.mem_cons_self, hl, bind_stop, List.findSome?_cons]
    cases hb : b a with
    | none => simp only [Violation.ok_bind, bind_stop, List.map_cons, stop_none]; rfl
    | some v => cases mode <;> rfl

end Mode

end DefiniteAssignment
