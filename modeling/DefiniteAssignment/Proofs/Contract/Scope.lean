import DefiniteAssignment.Proofs.Contract.Pops
import DefiniteAssignment.Proofs.Contract.Run
import DefiniteAssignment.Proofs.Contract.Storage
import DefiniteAssignment.Scope.Session

/-!
# What a session on a scope breaches

What each operation on a scope breaches, read off the state it finds: a name that has
to be bound and is not, a level of a scope with none pushed, the only level of a
variable, or storage that cannot be counted. A lenient session fails at the first of
these alone. For the others the two modes differ in nothing but that the strict one
stops.
-/

namespace DefiniteAssignment

variable {τ α ω : Type}

namespace Variable

/-- Only a call that ends a level can breach the contract. -/
def Call.breach? : Call → Variable τ → Option Violation
  | .foldLevel, v | .takeLevel, v => v.popBreach?
  | _, _ => none

theorem call_strict (c : Call) (v : Variable τ) :
    v.call .strict c = Mode.strict.stop (c.breach? v) (v.call .lenient c) := by
  cases c with
  | foldLevel => simp only [call, foldLevel_eq_stop, Mode.map_stop, Mode.stop_lenient]; rfl
  | takeLevel => simp only [call, takeLevel_eq_stop, Mode.map_stop, Mode.stop_lenient]; rfl
  | _ => rfl

theorem exists_call_lenient (c : Call) (v : Variable τ) : ∃ p, v.call .lenient c = .ok p := by
  cases c with
  | foldLevel => exact ⟨_, by simp only [call, foldLevel_eq_stop, Mode.stop_lenient]; rfl⟩
  | takeLevel => exact ⟨_, by simp only [call, takeLevel_eq_stop, Mode.stop_lenient]; rfl⟩
  | assign order span => unfold call; dsimp only; split <;> exact ⟨_, rfl⟩
  | ensureInitialized span => unfold call; dsimp only; split <;> exact ⟨_, rfl⟩
  | _ => exact ⟨_, rfl⟩

end Variable

namespace Scope

theorem call_strict (name : String) (c : Variable.Call) (s : Scope τ) :
    s.call .strict name c =
      Mode.strict.stop ((s.find? name).bind c.breach?) (s.call .lenient name c) := by
  unfold call
  cases s.find? name with
  | none => rfl
  | some v => simp only [Option.bind_some, Variable.call_strict, Mode.map_stop]

theorem exists_call_lenient (name : String) (c : Variable.Call) (s : Scope τ) :
    ∃ p, s.call .lenient name c = .ok p := by
  unfold call
  cases s.find? name with
  | none => exact ⟨_, rfl⟩
  | some v =>
    obtain ⟨p, hp⟩ := v.exists_call_lenient c
    exact ⟨_, by simp only [hp]; rfl⟩

/-- What is breached by a call on a variable that has to be there. -/
def demandBreach? (s : Scope τ) (name : String) (c : Variable.Call) : Option Violation :=
  match s.find? name with
  | some v => c.breach? v
  | none => some .unboundName

theorem demand_of_find?_eq_none (mode : Mode) {s : Scope τ} {name : String}
    (c : Variable.Call) (h : s.find? name = none) :
    s.demand mode name c = .error .unboundName := by
  simp only [demand, lookup, h, Violation.error_bind]

theorem demand_of_find?_eq_some (mode : Mode) {s : Scope τ} {name : String} {v : Variable τ}
    (c : Variable.Call) (h : s.find? name = some v) :
    s.demand mode name c = (v.call mode c).map fun (r, w) ↦ (r, s.set name w) := by
  simp only [demand, lookup, h, Violation.ok_bind]

theorem demand_strict (name : String) (c : Variable.Call) (s : Scope τ) :
    s.demand .strict name c =
      Mode.strict.stop (s.demandBreach? name c) (s.demand .lenient name c) := by
  cases h : s.find? name with
  | none => simp only [demand_of_find?_eq_none _ c h, demandBreach?, h]; rfl
  | some v =>
    simp only [demand_of_find?_eq_some _ c h, demandBreach?, h, Variable.call_strict,
      Mode.map_stop]

theorem demand_lenient_eq_error_iff {name : String} {c : Variable.Call} {s : Scope τ}
    {v : Violation} :
    s.demand .lenient name c = .error v ↔ v = .unboundName ∧ s.contains name = false := by
  cases h : s.find? name with
  | none => simp [demand_of_find?_eq_none _ c h, contains, h, eq_comm]
  | some w =>
    obtain ⟨p, hp⟩ := w.exists_call_lenient c
    simp [demand_of_find?_eq_some _ c h, contains, h, hp, Except.map]

namespace Session

variable [Allocator α] [LawfulAllocator α] [Storable τ]

/-- What an operation breaches in the state it finds. -/
def breach? (x : Session τ α ω) : Op τ → Option Violation
  | .declare d =>
    if x.scope.contains d.name then none
    else x.scope.reservationBreach? x.slots (Storable.storageSize d.ty)
  | .reserveInternal ty =>
    Mode.sumBreach? x.scope.size (Storable.storageSize ty) <|>
      LawfulAllocator.totalBreach? x.slots (Storable.storageSize ty)
  | .call name c => (x.scope.find? name).bind c.breach?
  | .demand name c => x.scope.demandBreach? name c
  | .foldLevel | .takeArm _ => x.scope.popBreach?
  | _ => none

/-- An operation that needs a binding where there is none. -/
def misses (x : Session τ α ω) : Op τ → Prop
  | .demand name _ => x.scope.contains name = false
  | _ => False

/-- The number of slots an operation reserves: none where it is refused. -/
def cost (x : Session τ α ω) : Op τ → Nat
  | .declare d => if x.scope.contains d.name then 0 else 1
  | .reserveInternal _ => 1
  | _ => 0

variable [Sink ω]

theorem step_lenient_eq_error_iff {x : Session τ α ω} {op : Op τ} {v : Violation} :
    x.step .lenient op = .error v ↔ v = .unboundName ∧ x.misses op := by
  cases op with
  | declare d =>
    cases h : x.scope.contains d.name with
    | true => simp [step, misses, declare_of_contains _ _ h]
    | false => simp [step, misses, declare_lenient _ h]
  | declareAt d slot inherited =>
    simp only [step, misses]
    split <;> simp
  | reserveInternal ty => simp [step, misses, reserveInternal_lenient]
  | call name c =>
    obtain ⟨p, hp⟩ := exists_call_lenient name c x.scope
    simp [step, misses, hp]
  | demand name c =>
    rw [misses, ← demand_lenient_eq_error_iff (c := c)]
    cases h : x.scope.demand .lenient name c <;> simp [step, h]
  | foldLevel => simp [step, misses, foldLevel_eq_stop]
  | takeArm label => simp [step, misses, takeArm_eq_stop]
  | _ => simp [step, misses]

theorem step_strict {x : Session τ α ω} {op : Op τ}
    (h : LawfulAllocator.numbered x.slots + x.cost op < UInt32.size) :
    x.step .strict op = Mode.strict.stop (x.breach? op) (x.step .lenient op) := by
  cases op with
  | declare d =>
    have hroom : x.scope.contains d.name = false →
        LawfulAllocator.numbered x.slots + 1 < UInt32.size := by
      intro hc
      simpa [cost, hc] using h
    simp only [step, breach?, declare_strict d hroom, Mode.bind_stop]
  | reserveInternal ty => simp only [step, breach?, reserveInternal_strict ty h, Mode.bind_stop]
  | call name c => simp only [step, breach?, call_strict, Mode.bind_stop]
  | demand name c => simp only [step, breach?, demand_strict, Mode.bind_stop]
  | foldLevel => simp only [step, breach?, foldLevel_eq_stop, Mode.bind_stop, Mode.stop_lenient]
  | takeArm label =>
    simp only [step, breach?, takeArm_eq_stop, Mode.bind_stop, Mode.stop_lenient]
  | _ => rfl

/-- Only what an operation reserves is numbered. -/
theorem numbered_step_lenient {x y : Session τ α ω} {op : Op τ} {r : Reply τ}
    (h : x.step .lenient op = .ok (r, y)) :
    LawfulAllocator.numbered y.slots ≤ LawfulAllocator.numbered x.slots + x.cost op := by
  cases op with
  | declare d =>
    cases hc : x.scope.contains d.name with
    | true =>
      simp only [step, declare_of_contains _ _ hc, Violation.ok_bind] at h
      cases h
      exact Nat.le_add_right _ _
    | false =>
      simp only [step, declare_lenient _ hc, Violation.ok_bind] at h
      cases h
      simpa [cost, hc] using LawfulAllocator.numbered_next x.slots (Storable.storageSize d.ty)
  | declareAt d slot inherited =>
    simp only [step] at h
    split at h <;> cases h <;> exact Nat.le_add_right _ _
  | reserveInternal ty =>
    simp only [step, reserveInternal_lenient, Violation.ok_bind] at h
    cases h
    exact LawfulAllocator.numbered_next x.slots (Storable.storageSize ty)
  | call | demand | foldLevel | takeArm =>
    obtain ⟨p, -, hp⟩ := Violation.bind_eq_ok_iff.mp h
    cases hp
    exact Nat.le_add_right _ _
  | _ =>
    cases h
    exact Nat.le_add_right _ _

/-- Sessions on a scope, as a system that is followed in both modes. -/
def conduct : Conduct (Session τ α ω) (Op τ) (Reply τ) where
  step mode x op := x.step mode op
  breach? := breach?
  misses := misses
  cost := cost
  RoomFor x n := LawfulAllocator.numbered x.slots + n < UInt32.size

theorem lawful_conduct : (conduct : Conduct (Session τ α ω) (Op τ) (Reply τ)).Lawful where
  lenient_eq_error_iff := step_lenient_eq_error_iff
  breach?_of_misses {x op} h := by
    cases op with
    | demand name c =>
      have hf : x.scope.find? name = none := by simpa [conduct, misses, contains] using h
      simp only [conduct, breach?, demandBreach?, hf]
    | _ => exact absurd h id
  strict_eq_stop h := step_strict h
  roomFor_of_step {x y op r n} h hs := by
    have hy : LawfulAllocator.numbered y.slots ≤ LawfulAllocator.numbered x.slots + x.cost op :=
      numbered_step_lenient hs
    simp only [conduct] at h ⊢
    omega
  roomFor_of_add {x m n} h := by
    simp only [conduct] at h ⊢
    omega

theorem run_conduct (mode : Mode) (x : Session τ α ω) (ops : List (Op τ)) :
    conduct.run mode x ops = x.run mode ops := rfl

end Session

end Scope

end DefiniteAssignment
