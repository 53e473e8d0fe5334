import DefiniteAssignment.Proofs.Contract.Basic
import DefiniteAssignment.Stack.Basic

/-!
# Running out of storage

Totals of sizes are kept in two places, by the allocator and by the scope that asks it,
and either can run over. A declaration that is refused asks for nothing and can
therefore not overflow, however large its type. An allocator may be the caller's own: it
is only asked to give a slot in either mode, unless a total it keeps runs over.
-/

namespace DefiniteAssignment

/-- What is breached where two sizes are added. -/
def Mode.sumBreach? (a b : UInt64) : Option Violation :=
  if a.toNat + b.toNat < UInt64.size then none else some .overflow

theorem Mode.addSize_eq_stop (mode : Mode) (a b : UInt64) :
    mode.addSize a b = mode.stop (Mode.sumBreach? a b) (.ok (a + b)) := by
  unfold Mode.addSize Mode.sumBreach?
  split
  · rw [Mode.stop_none]
  · rw [Mode.breach_eq_stop]

theorem Mode.sumBreach?_eq_none_iff {a b : UInt64} :
    Mode.sumBreach? a b = none ↔ a.toNat + b.toNat < UInt64.size := by
  simp [Mode.sumBreach?]

/-- An allocator that is stopped only where a total it keeps runs over. Slots it numbers
are counted, since an allocator need not keep its word once the numbers are used up. -/
class LawfulAllocator (α : Type) [Allocator α] where
  /-- A bound on how many slots were numbered. -/
  numbered : α → Nat
  /-- What is breached where so much storage is asked for. -/
  totalBreach? : α → UInt64 → Option Violation
  /-- The slot given, and the allocator after it. -/
  next : α → UInt64 → SlotId × α
  numbered_next (a : α) (size : UInt64) : numbered (next a size).2 ≤ numbered a + 1
  reserve_lenient (a : α) (size : UInt64) : Allocator.reserve .lenient a size = .ok (next a size)
  reserve_strict (a : α) (size : UInt64) : numbered a + 1 < UInt32.size →
    Allocator.reserve .strict a size = Mode.strict.stop (totalBreach? a size) (.ok (next a size))

namespace SlotCounter

/-- The next slot is the one the counter points to. -/
def after (c : SlotCounter) (size : UInt64) : SlotId × SlotCounter :=
  (⟨c.reservedSlots⟩, ⟨c.reservedSlots + 1, c.reservedSize + size⟩)

theorem toNat_reservedSlots_after_le (c : SlotCounter) (size : UInt64) :
    (c.after size).2.reservedSlots.toNat ≤ c.reservedSlots.toNat + 1 := by
  rw [after, UInt32.toNat_add]
  exact Nat.mod_le _ _

/-- A reservation is two sums, the one that numbers the slot first. -/
theorem reserve_eq_bind (mode : Mode) (c : SlotCounter) (size : UInt64) :
    c.reserve mode size =
      (if c.reservedSlots.toNat + 1 < UInt32.size then .ok (c.reservedSlots + 1)
        else mode.breach .overflow (c.reservedSlots + 1)) >>= fun slots ↦
      mode.addSize c.reservedSize size >>= fun total ↦
        .ok (⟨c.reservedSlots⟩, ⟨slots, total⟩) := by
  unfold reserve
  split <;> rfl

theorem reserve_eq_stop (mode : Mode) {c : SlotCounter} (size : UInt64)
    (h : c.reservedSlots.toNat + 1 < UInt32.size) :
    c.reserve mode size = mode.stop (Mode.sumBreach? c.reservedSize size) (.ok (c.after size)) := by
  simp only [reserve, if_pos h, Violation.ok_bind, Mode.addSize_eq_stop, Mode.bind_stop]
  rfl

instance : LawfulAllocator SlotCounter where
  numbered c := c.reservedSlots.toNat
  totalBreach? c size := Mode.sumBreach? c.reservedSize size
  next := after
  numbered_next := toNat_reservedSlots_after_le
  reserve_lenient := reserve_lenient
  reserve_strict _ size h := reserve_eq_stop .strict size h

end SlotCounter

namespace Scope

variable {τ α : Type}

theorem grow_eq_stop (mode : Mode) (size : UInt64) (s : Scope τ) :
    s.grow mode size = mode.stop (Mode.sumBreach? s.size size)
      (.ok { s with size := s.size + size }) := by
  rw [grow, Mode.addSize_eq_stop, Mode.map_stop]
  rfl

variable [Allocator α]

/-- A declaration that is refused asks the allocator for nothing. -/
theorem declare_of_contains [Storable τ] (mode : Mode) {s : Scope τ} (slots : α)
    {d : Declaration τ} (h : s.contains d.name) :
    s.declare mode slots d = .ok (.error (redeclaration d)) := by
  rw [declare, if_pos h]

variable [LawfulAllocator α]

/-- What is breached where a slot of the scope is reserved. -/
def reservationBreach? (s : Scope τ) (slots : α) (size : UInt64) : Option Violation :=
  LawfulAllocator.totalBreach? slots size <|> Mode.sumBreach? s.size size

variable [Storable τ]

theorem declare_lenient {s : Scope τ} (slots : α) {d : Declaration τ}
    (h : s.contains d.name = false) :
    s.declare .lenient slots d =
      let size := Storable.storageSize d.ty
      let given := LawfulAllocator.next slots size
      .ok (.ok ({ s with size := s.size + size }.bind d given.1 false, given.2)) := by
  simp only [declare, h, Bool.false_eq_true, if_false, LawfulAllocator.reserve_lenient,
    grow_eq_stop, Mode.stop_lenient, Violation.ok_bind]

theorem reserveInternal_lenient (s : Scope τ) (slots : α) (ty : τ) :
    s.reserveInternal .lenient slots ty =
      let size := Storable.storageSize ty
      let given := LawfulAllocator.next slots size
      .ok (given.1, { s with size := s.size + size }, given.2) := by
  simp only [reserveInternal, LawfulAllocator.reserve_lenient, grow_eq_stop, Mode.stop_lenient,
    Violation.ok_bind]

theorem declare_strict {s : Scope τ} {slots : α} (d : Declaration τ)
    (h : s.contains d.name = false → LawfulAllocator.numbered slots + 1 < UInt32.size) :
    s.declare .strict slots d =
      Mode.strict.stop
        (if s.contains d.name then none
          else s.reservationBreach? slots (Storable.storageSize d.ty))
        (s.declare .lenient slots d) := by
  unfold declare
  cases hc : s.contains d.name with
  | true => rfl
  | false =>
    simp only [Bool.false_eq_true, if_false, LawfulAllocator.reserve_strict _ _ (h hc),
      LawfulAllocator.reserve_lenient, grow_eq_stop, Mode.bind_stop, Violation.ok_bind,
      Mode.stop_lenient, reservationBreach?, ← Mode.stop_stop]

/-- Scope and allocator are charged in the other sequence than for a declaration, which
shows nowhere, since either runs over in the same way. -/
theorem reserveInternal_strict {s : Scope τ} {slots : α} (ty : τ)
    (h : LawfulAllocator.numbered slots + 1 < UInt32.size) :
    s.reserveInternal .strict slots ty =
      Mode.strict.stop
        (Mode.sumBreach? s.size (Storable.storageSize ty) <|>
          LawfulAllocator.totalBreach? slots (Storable.storageSize ty))
        (s.reserveInternal .lenient slots ty) := by
  unfold reserveInternal
  simp only [LawfulAllocator.reserve_strict _ _ h, LawfulAllocator.reserve_lenient,
    grow_eq_stop, Mode.bind_stop, Violation.ok_bind, Mode.stop_lenient, ← Mode.stop_stop]

end Scope

end DefiniteAssignment
