import DefiniteAssignment.Variable.Basic

/-!
# Calls on a variable

Everything that can be asked of one variable, as data, with what it answers. Most
calls cannot go wrong. The two that end a level can break the contract, and the
two that check can refuse, which is an answer like any other.
-/

namespace DefiniteAssignment.Variable

inductive Call where
  | read
  | define (order : Order)
  | undefine
  | markMutated
  | assign (order : Order) (span : Span)
  | ensureInitialized (span : Span)
  | pushLevel
  | foldLevel
  | takeLevel
deriving DecidableEq, Repr

/-- Calls that change how many levels a variable has. -/
def Call.movesLevel : Call → Bool
  | .pushLevel | .foldLevel | .takeLevel => true
  | _ => false

inductive Reply (τ : Type) where
  | done
  | seen (v : Variable τ)
  | accepted
  | refused (e : Error)
  | level (l : Level)
deriving DecidableEq, Repr

variable {τ : Type}

/-- What a call answers, and the variable after it. -/
def call (mode : Mode) : Call → Variable τ → Except Violation (Reply τ × Variable τ)
  | .read, v => .ok (.seen v, v)
  | .define order, v => .ok (.done, v.define order)
  | .undefine, v => .ok (.done, v.undefine)
  | .markMutated, v => .ok (.done, v.markMutated)
  | .assign order span, v =>
    match v.assign order span with
    | .ok w => .ok (.accepted, w)
    | .error e => .ok (.refused e, v)
  | .ensureInitialized span, v =>
    match v.ensureInitialized span with
    | .ok () => .ok (.accepted, v)
    | .error e => .ok (.refused e, v)
  | .pushLevel, v => .ok (.done, v.pushLevel)
  | .foldLevel, v => (v.foldLevel mode).map fun w ↦ (.done, w)
  | .takeLevel, v => (v.takeLevel mode).map fun (l, w) ↦ (.level l, w)

theorem toDeclaration_assign {order : Order} {span : Span} {v w : Variable τ}
    (h : v.assign order span = .ok w) : w.toDeclaration = v.toDeclaration := by
  unfold assign at h
  split at h
  · split at h
    · cases h
    · cases h; rfl
  · cases h; rfl

theorem toDeclaration_foldLevel {mode : Mode} {v w : Variable τ}
    (h : v.foldLevel mode = .ok w) : w.toDeclaration = v.toDeclaration := by
  unfold foldLevel at h
  cases mode <;> split at h <;> cases h <;> rfl

theorem toDeclaration_takeLevel {mode : Mode} {v w : Variable τ} {l : Level}
    (h : v.takeLevel mode = .ok (l, w)) : w.toDeclaration = v.toDeclaration := by
  unfold takeLevel at h
  cases mode <;> split at h <;> cases h <;> rfl

/-- No call touches what the program declared. -/
theorem toDeclaration_call {mode : Mode} {c : Call} {v w : Variable τ} {r : Reply τ}
    (h : v.call mode c = .ok (r, w)) : w.toDeclaration = v.toDeclaration := by
  cases c <;> simp only [call] at h
  case assign order span =>
    split at h
    · next hw => cases h; exact toDeclaration_assign hw
    · cases h; rfl
  case ensureInitialized =>
    split at h <;> cases h <;> rfl
  case foldLevel =>
    cases hw : v.foldLevel mode with
    | error e => simp [hw, Except.map] at h
    | ok x => simp [hw, Except.map] at h; exact h.2 ▸ toDeclaration_foldLevel hw
  case takeLevel =>
    cases hw : v.takeLevel mode with
    | error e => simp [hw, Except.map] at h
    | ok x => simp [hw, Except.map] at h; exact h.2 ▸ toDeclaration_takeLevel hw
  all_goals cases h; rfl

end DefiniteAssignment.Variable
