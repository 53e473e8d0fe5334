import DefiniteAssignment.Proofs.Scope.Arms
import DefiniteAssignment.Proofs.Scope.Calls
import DefiniteAssignment.Scope.Session

/-!
# Scopes that stay in step

Only an operation that moves the levels of one variable alone can bring a scope out of
step with its variables. Every scope that comes about without such operations is in
step: however many regions were open when it was opened, whatever allocator and arms it
was worked on with, and whether or not its levels were pushed and popped in balance.
-/

namespace DefiniteAssignment.Scope

variable {τ α ω : Type}

/-- An operation that moves the levels of one variable alone. -/
def Op.movesOne : Op τ → Bool
  | .call _ c | .demand _ c => c.movesLevel
  | _ => false

/-- A scope that comes about without moving the levels of a single variable. -/
inductive Reached [Storable τ] (mode : Mode) : Scope τ → Prop
  /-- Opened with some regions open. -/
  | opened (depth : Nat) : Reached mode (.opened depth)
  /-- Worked on, with any allocator, any arms kept and any sink. -/
  | step {α ω : Type} [Allocator α] [Sink ω] {x y : Session τ α ω} {op : Op τ} {r : Reply τ} :
      Reached mode x.scope → op.movesOne = false → x.step mode op = .ok (r, y) →
        Reached mode y.scope

/-! ## One step -/

theorem setAll_eq_mapAll (initial : Bool) (s : Scope τ) :
    s.setAll initial = s.mapAll (fun v ↦ if initial then v.define 0 else v.undefine) s.depth := rfl

theorem identity_setAll (initial : Bool) (v : Variable τ) :
    (if initial then v.define 0 else v.undefine).identity = v.identity := by
  cases initial <;> rfl

theorem enclosing_setAll (initial : Bool) (v : Variable τ) :
    (if initial then v.define 0 else v.undefine).enclosing = v.enclosing := by
  cases initial <;> rfl

/-- Giving every variable a value, or taking it, happens at the current level alone. -/
theorem InStep.frame_setAll {s : Scope τ} (hs : s.InStep) (initial : Bool) :
    Frame s (s.setAll initial) where
  identities := identities_mapAll fun v _ ↦ identity_setAll initial v
  depth := rfl
  size := rfl
  around name := by
    rw [setAll_eq_mapAll, around_mapAll fun v _ ↦ identity_setAll initial v]
    simp only [enclosing_setAll]
    rfl
  inStep _ := by
    refine hs.mapAll (fun v _ ↦ identity_setAll initial v) fun v hv ↦ ?_
    rw [enclosing_setAll]
    exact hs.length_enclosing v hv

theorem current_setAll_of_mem {s : Scope τ} {name : String} (initial : Bool)
    (h : name ∈ s.names) :
    (s.setAll initial).current name = if initial then some 0 else none := by
  rw [setAll_eq_mapAll, current_mapAll fun v _ ↦ identity_setAll initial v]
  cases hf : s.find? name with
  | none => exact absurd h (find?_eq_none_iff.mp hf)
  | some v => cases initial <;> rfl

theorem InStep.of_foldLevel {mode : Mode} {s t : Scope τ} (hs : s.InStep)
    (h : s.foldLevel mode = .ok t) : t.InStep := by
  rw [foldLevel_eq_stop] at h
  obtain rfl := Mode.eq_of_stop_eq_ok h
  exact hs.folded

theorem InStep.of_takeArm {mode : Mode} {s t : Scope τ} {arm : Arm} (hs : s.InStep)
    (h : s.takeArm mode = .ok (arm, t)) : t.InStep := by
  rw [takeArm_eq_stop] at h
  cases Mode.eq_of_stop_eq_ok h
  exact hs.shed

variable [Storable τ] [Allocator α] [Sink ω]

/-- Every other operation keeps a scope in step. -/
theorem InStep.of_step {mode : Mode} {x y : Session τ α ω} {op : Op τ} {r : Reply τ}
    (hs : x.scope.InStep) (hop : op.movesOne = false) (h : x.step mode op = .ok (r, y)) :
    y.scope.InStep := by
  cases op with
  | declare d =>
    obtain ⟨p, hp, h⟩ := Violation.bind_eq_ok_iff.mp h
    cases p with
    | error e => cases h; exact hs
    | ok p =>
      cases h
      obtain ⟨hc, slot, size, he⟩ := declare_eq_ok hp
      rw [he]
      exact (hs.resize size).bind slot false hc
  | declareAt d slot inherited =>
    simp only [Session.step] at h
    split at h
    · next t ht =>
      cases h
      obtain ⟨hc, rfl⟩ := declareAt_eq_ok ht
      exact hs.bind slot inherited hc
    · cases h
      exact hs
  | reserveInternal ty =>
    obtain ⟨⟨slot, t, slots⟩, hp, h⟩ := Violation.bind_eq_ok_iff.mp h
    cases h
    obtain ⟨size, rfl⟩ := reserveInternal_eq_ok hp
    exact hs.resize size
  | call name c =>
    obtain ⟨⟨r', t⟩, hp, h⟩ := Violation.bind_eq_ok_iff.mp h
    cases h
    exact (hs.frame_call hop hp).inStep hs
  | demand name c =>
    obtain ⟨⟨r', t⟩, hp, h⟩ := Violation.bind_eq_ok_iff.mp h
    cases h
    exact (hs.frame_call hop (call_of_demand hp)).inStep hs
  | setAll initial => cases h; exact (hs.frame_setAll initial).inStep hs
  | pushLevel => cases h; exact hs.pushLevel
  | foldLevel =>
    obtain ⟨t, hp, h⟩ := Violation.bind_eq_ok_iff.mp h
    cases h
    exact hs.of_foldLevel hp
  | takeArm label =>
    obtain ⟨⟨arm, t⟩, hp, h⟩ := Violation.bind_eq_ok_iff.mp h
    cases h
    exact hs.of_takeArm hp
  | joinArms arms exhaustive => cases h; exact hs.joinArms _ exhaustive
  | _ => cases h; exact hs

theorem Reached.inStep {mode : Mode} {s : Scope τ} (h : s.Reached mode) : s.InStep := by
  induction h with
  | opened depth => exact inStep_opened depth
  | step _ hop hstep ih => exact ih.of_step hop hstep

theorem Reached.of_run {mode : Mode} {x y : Session τ α ω} {ops : List (Op τ)}
    {rs : List (Reply τ)} (h : x.scope.Reached mode) (hops : ∀ op ∈ ops, op.movesOne = false)
    (hrun : x.run mode ops = .ok (rs, y)) : y.scope.Reached mode :=
  invariant_of_runBy (fun z : Session τ α ω ↦ z.scope.Reached mode) hrun h
    fun op hop _ _ _ hz hstep ↦ hz.step (hops op hop) hstep

end DefiniteAssignment.Scope
