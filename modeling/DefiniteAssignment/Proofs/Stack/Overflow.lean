import DefiniteAssignment.Proofs.Stack.Depths
import DefiniteAssignment.Proofs.Stack.Turns

/-!
# Where storage runs over

A strict analysis of a stack is stopped by an overflow only where a slot is reserved, and then
exactly if the total of the counter runs over. The scope keeps a total of its own, but it totals
less than the counter, so that it does not matter which of the two is asked first. No other
operation is stopped by an overflow: a declaration that is refused asks for nothing, and what
else can stop an analysis is a level that is not there.
-/

namespace DefiniteAssignment

variable {τ α ω : Type}

namespace Mode

theorem sumBreach?_eq_overflow_iff {a b : UInt64} :
    sumBreach? a b = some .overflow ↔ UInt64.size ≤ a.toNat + b.toNat := by
  rw [sumBreach?]
  split
  · next h => exact iff_of_false (Option.some_ne_none _).symm (Nat.not_le.mpr h)
  · next h => exact iff_of_true rfl (Nat.not_lt.mp h)

section
variable {a c b : UInt64} (h : a.toNat ≤ c.toNat)
include h

/-- A sum that runs over does so for every larger total. -/
theorem sumBreach?_eq_none_of_le (hc : sumBreach? c b = none) : sumBreach? a b = none := by
  rw [sumBreach?_eq_none_iff] at hc ⊢
  omega

theorem sumBreach?_or_of_le : (sumBreach? c b <|> sumBreach? a b) = sumBreach? c b := by
  cases hc : sumBreach? c b with
  | none => exact sumBreach?_eq_none_of_le h hc
  | some v => rfl

theorem sumBreach?_of_le_or : (sumBreach? a b <|> sumBreach? c b) = sumBreach? c b := by
  cases ha : sumBreach? a b with
  | none => rfl
  | some v =>
    rw [sumBreach?] at ha
    split at ha
    · cases ha
    · cases ha
      symm
      rw [Option.orElse_eq_orElse, Option.orElse_some, sumBreach?_eq_overflow_iff]
      omega

end

end Mode

/-! ## What cannot run over -/

theorem Variable.popBreach?_ne_overflow (v : Variable τ) : v.popBreach? ≠ some .overflow := by
  rw [popBreach?]
  split <;> simp

theorem Scope.popBreach?_ne_overflow (s : Scope τ) : s.popBreach? ≠ some .overflow := by
  rw [popBreach?]
  split
  · simp
  · intro h
    obtain ⟨v, -, hv⟩ := List.exists_of_findSome?_eq_some h
    exact v.popBreach?_ne_overflow hv

theorem Stack.popBreach?_ne_overflow (s : Stack τ) : s.popBreach? ≠ some .overflow := by
  intro h
  obtain ⟨c, -, hc⟩ := List.exists_of_findSome?_eq_some h
  exact c.popBreach?_ne_overflow hc

namespace Stack

namespace Session

variable [Storable τ] [Allocator α] [Sink ω] {x : Session τ α ω} {op : Op τ}

theorem call_ne_overflow (name : String) (c : Variable.Call) :
    x.step .strict (.call name c) ≠ .error .overflow := by
  obtain ⟨p, hp⟩ := exists_call_lenient name c x.stack
  intro h
  rw [step, call_strict, hp] at h
  cases hb : (x.stack.find? name).bind c.breach? with
  | none =>
    rw [hb] at h
    cases h
  | some v =>
    rw [hb] at h
    cases h
    obtain ⟨w, -, hw⟩ := Option.bind_eq_some_iff.mp hb
    cases c with
    | foldLevel | takeLevel => exact w.popBreach?_ne_overflow hw
    | _ => cases hw

/-- An operation that reserves nothing does not overflow. -/
theorem step_ne_overflow (hop : op.isDirect = false) (hasked : x.asked? op = none) :
    x.step .strict op ≠ .error .overflow := by
  intro h
  cases op with
  | declare d =>
    have hc : x.stack.current.contains d.name := by
      by_contra hc
      rw [asked?, if_neg hc] at hasked
      cases hasked
    rw [step, Stack.declare, Scope.declare_of_contains _ _ hc] at h
    cases h
  | reserveInternal ty => cases hasked
  | reserve size => cases hasked
  | call name c => exact call_ne_overflow name c h
  | foldLevel | takeArms =>
    rw [step_strict_eq_error_iff_of_endsLevel rfl] at h
    exact x.stack.popBreach?_ne_overflow h
  | closeScope =>
    simp only [step] at h
    split at h <;> cases h
  | openScope | pushLevel | joinArms | report => cases h
  | current op => cases hop

/-- An operation that reserves a slot overflows if the counter cannot total it. -/
theorem step_eq_overflow_iff {size : UInt64} (hasked : x.asked? op = some size)
    (hroom : x.stack.counter.reservedSlots.toNat + 1 < UInt32.size)
    (hle : x.stack.current.size.toNat ≤ x.stack.counter.reservedSize.toNat) :
    x.step .strict op = .error .overflow ↔
      UInt64.size ≤ x.stack.counter.reservedSize.toNat + size.toNat := by
  rw [← Mode.sumBreach?_eq_overflow_iff]
  have hnumber : LawfulAllocator.numbered x.stack.counter + 1 < UInt32.size := hroom
  cases op with
  | declare d =>
    cases hc : x.stack.current.contains d.name with
    | true =>
      rw [asked?, if_pos hc] at hasked
      cases hasked
    | false =>
      rw [asked?, if_neg (by simp [hc])] at hasked
      cases hasked
      simp only [step, Stack.declare, Scope.declare_strict d fun _ ↦ hnumber, hc, Mode.bind_stop,
        Scope.declare_lenient _ hc, Violation.ok_bind, Bool.false_eq_true, if_false]
      rw [Mode.stop_strict_eq_error_iff, Scope.reservationBreach?]
      exact (Mode.sumBreach?_or_of_le hle).congr_left
  | reserveInternal ty =>
    cases hasked
    simp only [step, Stack.reserveInternal, Scope.reserveInternal_strict ty hnumber, Mode.bind_stop,
      Scope.reserveInternal_lenient, Violation.ok_bind]
    rw [Mode.stop_strict_eq_error_iff]
    exact (Mode.sumBreach?_of_le_or hle).congr_left
  | reserve size =>
    cases hasked
    simp only [step, Stack.reserve, SlotCounter.reserve_eq_stop .strict _ hroom, Mode.map_stop,
      Mode.bind_stop]
    exact Mode.stop_strict_eq_error_iff
  | _ => cases hasked

end Session

end Stack

end DefiniteAssignment
