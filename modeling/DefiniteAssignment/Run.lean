import DefiniteAssignment.Contract

/-!
# Runs

Whatever is worked on, operations are performed one after the other, what each of them
answers is collected, and the first one that cannot be performed ends the run. This is said
here for any step. A session on a scope, a session on a stack and a scope that lives through
its share of a run differ in their steps alone.
-/

namespace DefiniteAssignment

variable {σ O R : Type}

/-- Performs operations in order, and collects what they answer. -/
def runBy (step : σ → O → Except Violation (R × σ)) :
    σ → List O → Except Violation (List R × σ)
  | x, [] => .ok ([], x)
  | x, op :: ops => do
    let (r, y) ← step x op
    let (rs, z) ← runBy step y ops
    .ok (r :: rs, z)

variable {step : σ → O → Except Violation (R × σ)} {x y z : σ} {op : O} {ops ops' : List O}
  {r : R} {rs : List R} {v : Violation}

@[simp] theorem runBy_nil : runBy step x [] = .ok ([], x) := rfl

theorem runBy_cons : runBy step x (op :: ops) = (do
    let (r, y) ← step x op
    let (rs, z) ← runBy step y ops
    .ok (r :: rs, z)) := rfl

theorem runBy_cons_of_ok (h : step x op = .ok (r, y)) :
    runBy step x (op :: ops) = (runBy step y ops).map fun (rs, z) ↦ (r :: rs, z) := by
  rw [runBy_cons, h, Violation.ok_bind]
  dsimp only
  cases runBy step y ops <;> rfl

theorem runBy_cons_of_error (h : step x op = .error v) :
    runBy step x (op :: ops) = .error v := by
  rw [runBy_cons, h, Violation.error_bind]

theorem runBy_cons_eq_error_iff_of_ok (h : step x op = .ok (r, y)) :
    runBy step x (op :: ops) = .error v ↔ runBy step y ops = .error v := by
  rw [runBy_cons_of_ok h]
  cases runBy step y ops <;> simp [Except.map]

theorem runBy_cons_eq_ok_iff :
    runBy step x (op :: ops) = .ok (rs, z) ↔
      ∃ r y qs, step x op = .ok (r, y) ∧ runBy step y ops = .ok (qs, z) ∧ rs = r :: qs := by
  constructor
  · intro h
    obtain ⟨⟨r, y⟩, hstep, h⟩ := Violation.bind_eq_ok_iff.mp h
    obtain ⟨⟨qs, w⟩, hrun, h⟩ := Violation.bind_eq_ok_iff.mp h
    cases h
    exact ⟨r, y, qs, hstep, hrun, rfl⟩
  · rintro ⟨r, y, qs, hstep, hrun, rfl⟩
    rw [runBy_cons_of_ok hstep, hrun]
    rfl

/-- A run is stopped by its first operation, or later. -/
theorem runBy_cons_eq_error_iff :
    runBy step x (op :: ops) = .error v ↔
      step x op = .error v ∨ ∃ r y, step x op = .ok (r, y) ∧ runBy step y ops = .error v := by
  constructor
  · intro h
    cases hstep : step x op with
    | error w =>
      rw [runBy_cons_of_error hstep] at h
      exact .inl (congrArg _ (Except.error.inj h))
    | ok p => exact .inr ⟨p.1, p.2, rfl, (runBy_cons_eq_error_iff_of_ok hstep).mp h⟩
  · rintro (h | ⟨r, y, hstep, hrun⟩)
    · exact runBy_cons_of_error h
    · exact (runBy_cons_eq_error_iff_of_ok hstep).mpr hrun

/-- A run of more operations goes on where the first of them have led. -/
theorem runBy_append : runBy step x (ops ++ ops') = (do
    let (rs, y) ← runBy step x ops
    let (rs', z) ← runBy step y ops'
    .ok (rs ++ rs', z)) := by
  induction ops generalizing x with
  | nil =>
    rw [List.nil_append, runBy_nil, Violation.ok_bind]
    dsimp only
    cases runBy step x ops' <;> rfl
  | cons op ops ih =>
    rw [List.cons_append]
    cases hstep : step x op with
    | error v => rw [runBy_cons_of_error hstep, runBy_cons_of_error hstep, Violation.error_bind]
    | ok p =>
      obtain ⟨r, y⟩ := p
      rw [runBy_cons_of_ok hstep, runBy_cons_of_ok hstep, ih]
      cases runBy step y ops with
      | error v => rfl
      | ok q =>
        simp only [Except.map, Violation.ok_bind]
        cases runBy step q.2 ops' <;> rfl

theorem runBy_concat_eq_ok_iff :
    runBy step x (ops ++ [op]) = .ok (rs, z) ↔
      ∃ qs y r, runBy step x ops = .ok (qs, y) ∧ step y op = .ok (r, z) ∧ rs = qs ++ [r] := by
  rw [runBy_append, Violation.bind_eq_ok_iff]
  constructor
  · rintro ⟨⟨qs, y⟩, hrun, h⟩
    obtain ⟨⟨ps, w⟩, hlast, h⟩ := Violation.bind_eq_ok_iff.mp h
    obtain ⟨r, u, os, hstep, hu, rfl⟩ := runBy_cons_eq_ok_iff.mp hlast
    cases hu
    cases h
    exact ⟨qs, y, r, hrun, hstep, rfl⟩
  · rintro ⟨qs, y, r, hrun, hstep, rfl⟩
    refine ⟨(qs, y), hrun, Violation.bind_eq_ok_iff.mpr ⟨([r], z), ?_, rfl⟩⟩
    exact runBy_cons_eq_ok_iff.mpr ⟨r, z, [], hstep, rfl, rfl⟩

/-! ## Invariants -/

/-- What every operation keeps, and answers in keeping with, a whole run keeps and answers in
keeping with. -/
theorem invariant_and_replies_of_runBy {P : σ → Prop} {Q : R → Prop}
    (h : runBy step x ops = .ok (rs, z)) (hx : P x)
    (hstep : ∀ op ∈ ops, ∀ x r y, P x → step x op = .ok (r, y) → P y ∧ Q r) :
    P z ∧ ∀ r ∈ rs, Q r := by
  induction ops generalizing x rs with
  | nil =>
    cases h
    exact ⟨hx, fun _ hr ↦ absurd hr List.not_mem_nil⟩
  | cons op ops ih =>
    obtain ⟨r, y, qs, hfirst, hrest, rfl⟩ := runBy_cons_eq_ok_iff.mp h
    obtain ⟨hy, hr⟩ := hstep op List.mem_cons_self x r y hx hfirst
    obtain ⟨hz, hqs⟩ := ih hrest hy fun o ho ↦ hstep o (List.mem_cons_of_mem op ho)
    exact ⟨hz, List.forall_mem_cons.mpr ⟨hr, hqs⟩⟩

theorem invariant_of_runBy (P : σ → Prop) (h : runBy step x ops = .ok (rs, z)) (hx : P x)
    (hstep : ∀ op ∈ ops, ∀ x r y, P x → step x op = .ok (r, y) → P y) : P z :=
  (invariant_and_replies_of_runBy (Q := fun _ ↦ True) h hx fun op hop x r y hx h ↦
    ⟨hstep op hop x r y hx h, trivial⟩).1

end DefiniteAssignment
