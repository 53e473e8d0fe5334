import DefiniteAssignment.Proofs.Contract.Basic
import DefiniteAssignment.Run

/-!
# Runs up to the first breach

A system that performs operations one after the other, in either mode. What is known
of one operation is that the strict step is the lenient one unless the operation
breaches the contract, and that a lenient step fails only where a binding is missing.
From this the same follows for runs: the two modes go together up to the first breach,
and there the strict run stops.

Slots are numbered, and the numbers are finite. A run is therefore followed only as
long as there is room for the slots it reserves.
-/

namespace DefiniteAssignment

/-- The steps of a system, beside what is said about them apart from performing them. -/
structure Conduct (σ O R : Type) where
  step : Mode → σ → O → Except Violation (R × σ)
  /-- What an operation breaches. -/
  breach? : σ → O → Option Violation
  /-- The operation names a binding that has to exist and does not. -/
  misses : σ → O → Prop
  /-- The number of slots an operation reserves. -/
  cost : σ → O → Nat
  /-- So many more slots can be numbered. -/
  RoomFor : σ → Nat → Prop

namespace Conduct

variable {σ O R : Type}

/-- What is said about the steps is true of them. -/
structure Lawful (C : Conduct σ O R) : Prop where
  lenient_eq_error_iff {x : σ} {op : O} {v : Violation} :
    C.step .lenient x op = .error v ↔ v = .unboundName ∧ C.misses x op
  breach?_of_misses {x : σ} {op : O} : C.misses x op → C.breach? x op = some .unboundName
  strict_eq_stop {x : σ} {op : O} : C.RoomFor x (C.cost x op) →
    C.step .strict x op = Mode.strict.stop (C.breach? x op) (C.step .lenient x op)
  roomFor_of_step {x y : σ} {op : O} {r : R} {n : Nat} : C.RoomFor x (C.cost x op + n) →
    C.step .lenient x op = .ok (r, y) → C.RoomFor y n
  roomFor_of_add {x : σ} {m n : Nat} : C.RoomFor x (m + n) → C.RoomFor x m

variable (C : Conduct σ O R)

def run (mode : Mode) : σ → List O → Except Violation (List R × σ) := runBy (C.step mode)

/-- The number of slots a lenient run reserves. -/
def spent : σ → List O → Nat
  | _, [] => 0
  | x, op :: ops =>
    C.cost x op +
      match C.step .lenient x op with
      | .ok (_, y) => spent y ops
      | .error _ => 0

/-- No operation breaches the contract in the state it finds. -/
def Keeps (x : σ) (ops : List O) : Prop :=
  ∀ before op after rs y, ops = before ++ op :: after →
    C.run .lenient x before = .ok (rs, y) → C.breach? y op = none

/-- The operation that is the first to breach the contract breaches it by `v`. -/
def FirstBreach (x : σ) (ops : List O) (v : Violation) : Prop :=
  ∃ before op after rs y, ops = before ++ op :: after ∧ C.Keeps x before ∧
    C.run .lenient x before = .ok (rs, y) ∧ C.breach? y op = some v

variable {C} {x y : σ} {op : O} {ops : List O} {r : R} {v : Violation}

theorem run_cons_of_ok {mode : Mode} (h : C.step mode x op = .ok (r, y)) :
    C.run mode x (op :: ops) = (C.run mode y ops).map fun (rs, z) ↦ (r :: rs, z) :=
  runBy_cons_of_ok h

theorem run_cons_of_error {mode : Mode} (h : C.step mode x op = .error v) :
    C.run mode x (op :: ops) = .error v := runBy_cons_of_error h

theorem run_cons_eq_error_iff_of_ok {mode : Mode} (h : C.step mode x op = .ok (r, y)) :
    C.run mode x (op :: ops) = .error v ↔ C.run mode y ops = .error v :=
  runBy_cons_eq_error_iff_of_ok h

theorem run_cons_eq_ok_iff {mode : Mode} {rs : List R} {z : σ} :
    C.run mode x (op :: ops) = .ok (rs, z) ↔
      ∃ r y qs, C.step mode x op = .ok (r, y) ∧ C.run mode y ops = .ok (qs, z) ∧
        rs = r :: qs := runBy_cons_eq_ok_iff

theorem Keeps.nil : C.Keeps x [] := by
  intro before op after rs y h
  simp at h

theorem Keeps.head (h : C.Keeps x (op :: ops)) : C.breach? x op = none :=
  h [] op ops [] x rfl rfl

theorem Keeps.tail (h : C.Keeps x (op :: ops)) (hs : C.step .lenient x op = .ok (r, y)) :
    C.Keeps y ops := by
  rintro before op' after rs z rfl hr
  exact h (op :: before) op' after (r :: rs) z rfl
    (run_cons_eq_ok_iff.mpr ⟨r, y, rs, hs, hr, rfl⟩)

theorem Keeps.cons (hb : C.breach? x op = none)
    (h : ∀ r y, C.step .lenient x op = .ok (r, y) → C.Keeps y ops) : C.Keeps x (op :: ops) := by
  intro before op' after rs z he hr
  cases before with
  | nil => cases he; cases hr; exact hb
  | cons op₁ before =>
    cases he
    obtain ⟨r, y, qs, hs, hq, rfl⟩ := run_cons_eq_ok_iff.mp hr
    exact h r y hs before op' after qs z rfl hq

theorem FirstBreach.head (hb : C.breach? x op = some v) : C.FirstBreach x (op :: ops) v :=
  ⟨[], op, ops, [], x, rfl, .nil, rfl, hb⟩

theorem firstBreach_cons_iff (hb : C.breach? x op = none)
    (hs : C.step .lenient x op = .ok (r, y)) :
    C.FirstBreach x (op :: ops) v ↔ C.FirstBreach y ops v := by
  constructor
  · rintro ⟨before, op', after, rs, z, he, hk, hr, hv⟩
    cases before with
    | nil => cases he; cases hr; rw [hb] at hv; cases hv
    | cons op₁ before =>
      cases he
      obtain ⟨r', y', qs, hs', hr, rfl⟩ := run_cons_eq_ok_iff.mp hr
      rw [hs] at hs'
      cases hs'
      exact ⟨before, op', after, qs, z, rfl, hk.tail hs, hr, hv⟩
  · rintro ⟨before, op', after, rs, z, rfl, hk, hr, hv⟩
    refine ⟨op :: before, op', after, r :: rs, z, rfl, .cons hb fun r' y' hs' ↦ ?_, ?_, hv⟩
    · rw [hs] at hs'
      cases hs'
      exact hk
    · exact run_cons_eq_ok_iff.mpr ⟨r, y, rs, hs, hr, rfl⟩

/-- A run reserves no less than its beginning. -/
theorem spent_le_spent_append (before after : List O) :
    C.spent x before ≤ C.spent x (before ++ after) := by
  induction before generalizing x with
  | nil => exact Nat.zero_le _
  | cons op before ih =>
    simp only [List.cons_append, spent]
    cases C.step .lenient x op with
    | error v => exact Nat.le_refl _
    | ok p => exact Nat.add_le_add_left ih _

namespace Lawful

variable (hC : C.Lawful)
include hC

/-- What there is room for in a run there is room for in its beginning. -/
theorem roomFor_spent_of_append {before after : List O}
    (h : C.RoomFor x (C.spent x (before ++ after))) : C.RoomFor x (C.spent x before) := by
  refine hC.roomFor_of_add (n := C.spent x (before ++ after) - C.spent x before) ?_
  rwa [Nat.add_sub_cancel' (spent_le_spent_append before after)]

/-- An operation that breaches nothing is carried out by a lenient analysis. -/
theorem exists_step_of_breach?_eq_none (hb : C.breach? x op = none) :
    ∃ r y, C.step .lenient x op = .ok (r, y) := by
  cases hs : C.step .lenient x op with
  | ok p => exact ⟨p.1, p.2, rfl⟩
  | error v =>
    have hm := hC.breach?_of_misses (hC.lenient_eq_error_iff.mp hs).2
    rw [hb] at hm
    cases hm

/-- A lenient run fails only at a binding that is missing. -/
theorem run_lenient_eq_error_iff :
    C.run .lenient x ops = .error v ↔ v = .unboundName ∧
      ∃ before op after rs y, ops = before ++ op :: after ∧
        C.run .lenient x before = .ok (rs, y) ∧ C.misses y op := by
  induction ops generalizing x with
  | nil => simp [run]
  | cons op ops ih =>
    cases hs : C.step .lenient x op with
    | error w =>
      obtain ⟨rfl, hm⟩ := hC.lenient_eq_error_iff.mp hs
      rw [run_cons_of_error hs]
      constructor
      · intro h
        cases h
        exact ⟨rfl, [], op, ops, [], x, rfl, rfl, hm⟩
      · rintro ⟨rfl, -⟩
        rfl
    | ok p =>
      obtain ⟨r, y⟩ := p
      rw [run_cons_eq_error_iff_of_ok hs, ih]
      refine and_congr_right fun _ ↦ ?_
      constructor
      · rintro ⟨before, op', after, rs, z, rfl, hr, hm⟩
        exact ⟨op :: before, op', after, r :: rs, z, rfl,
          run_cons_eq_ok_iff.mpr ⟨r, y, rs, hs, hr, rfl⟩, hm⟩
      · rintro ⟨before, op', after, rs, z, he, hr, hm⟩
        cases before with
        | nil =>
          cases he
          cases hr
          rw [hC.lenient_eq_error_iff.mpr ⟨rfl, hm⟩] at hs
          cases hs
        | cons op₁ before =>
          cases he
          obtain ⟨r', y', qs, hs', hr, rfl⟩ := run_cons_eq_ok_iff.mp hr
          rw [hs] at hs'
          cases hs'
          exact ⟨before, op', after, qs, z, rfl, hr, hm⟩

theorem roomFor_spent_of_step (h : C.RoomFor x (C.spent x (op :: ops)))
    (hs : C.step .lenient x op = .ok (r, y)) : C.RoomFor y (C.spent y ops) := by
  refine hC.roomFor_of_step ?_ hs
  rw [spent, hs] at h
  exact h

theorem strict_step (h : C.RoomFor x (C.spent x (op :: ops))) :
    C.step .strict x op = Mode.strict.stop (C.breach? x op) (C.step .lenient x op) :=
  hC.strict_eq_stop (hC.roomFor_of_add h)

/-- Where nothing is breached, both modes give the same, and they give it. -/
theorem run_strict_of_keeps (hroom : C.RoomFor x (C.spent x ops)) (hk : C.Keeps x ops) :
    ∃ p, C.run .strict x ops = .ok p ∧ C.run .lenient x ops = .ok p := by
  induction ops generalizing x with
  | nil => exact ⟨_, rfl, rfl⟩
  | cons op ops ih =>
    obtain ⟨r, y, hs⟩ := hC.exists_step_of_breach?_eq_none hk.head
    have ht : C.step .strict x op = .ok (r, y) := by
      rw [hC.strict_step hroom, hk.head, Mode.stop_none, hs]
    obtain ⟨p, hp, hq⟩ := ih (hC.roomFor_spent_of_step hroom hs) (hk.tail hs)
    rw [run_cons_of_ok hs, run_cons_of_ok ht, hp, hq]
    exact ⟨_, rfl, rfl⟩

/-- A strict run stops at the first breach, and nowhere else. -/
theorem run_strict_eq_error_iff (hroom : C.RoomFor x (C.spent x ops)) :
    C.run .strict x ops = .error v ↔ C.FirstBreach x ops v := by
  induction ops generalizing x with
  | nil => simp [run, FirstBreach]
  | cons op ops ih =>
    cases hb : C.breach? x op with
    | some w =>
      have ht : C.step .strict x op = .error w := by
        rw [hC.strict_step hroom, hb, Mode.stop_strict_some]
      rw [run_cons_of_error ht]
      constructor
      · intro h
        cases h
        exact .head hb
      · rintro ⟨before, op', after, rs, z, he, hk, hr, hv⟩
        cases before with
        | nil => cases he; cases hr; rw [hb] at hv; cases hv; rfl
        | cons op₁ before => cases he; rw [hk.head] at hb; cases hb
    | none =>
      obtain ⟨r, y, hs⟩ := hC.exists_step_of_breach?_eq_none hb
      have ht : C.step .strict x op = .ok (r, y) := by
        rw [hC.strict_step hroom, hb, Mode.stop_none, hs]
      rw [firstBreach_cons_iff hb hs, ← ih (hC.roomFor_spent_of_step hroom hs),
        run_cons_eq_error_iff_of_ok ht]

end Lawful

end Conduct

end DefiniteAssignment
