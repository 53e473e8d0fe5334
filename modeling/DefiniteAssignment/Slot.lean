import DefiniteAssignment.Contract

/-!
# Storage slots

Each variable lives in a slot. Slots come from an allocator, which is told how
much storage the slot has to hold; the usual one counts slots from zero and
totals the storage it gave away.
-/

namespace DefiniteAssignment

structure SlotId where
  index : UInt32
deriving DecidableEq, Repr

/-- Reads `%index`. -/
def SlotId.text (s : SlotId) : String := "%" ++ toString s.index.toNat

/-- What an analysis has to know about the type of a variable. -/
class Storable (τ : Type) where
  storageSize : τ → UInt64
  /-- An optional type has a value for "nothing", so its variables never need to be
  given one. -/
  isOptional : τ → Bool

/-- A type of which nothing else is known. -/
structure Layout where
  storageSize : UInt64
  isOptional : Bool
deriving DecidableEq, Repr

instance : Storable Layout := ⟨Layout.storageSize, Layout.isOptional⟩

class Allocator (α : Type) where
  reserve : Mode → α → UInt64 → Except Violation (SlotId × α)

structure SlotCounter where
  reservedSlots : UInt32 := 0
  reservedSize : UInt64 := 0
deriving DecidableEq, Repr

namespace SlotCounter

/-- The number of slots is counted before their storage. -/
def reserve (mode : Mode) (c : SlotCounter) (size : UInt64) :
    Except Violation (SlotId × SlotCounter) := do
  let slots ←
    if c.reservedSlots.toNat + 1 < UInt32.size then .ok (c.reservedSlots + 1)
    else mode.breach .overflow (c.reservedSlots + 1)
  let total ← mode.addSize c.reservedSize size
  .ok (⟨c.reservedSlots⟩, ⟨slots, total⟩)

instance : Allocator SlotCounter := ⟨reserve⟩

@[simp] theorem reserve_lenient (c : SlotCounter) (size : UInt64) :
    c.reserve .lenient size =
      .ok (⟨c.reservedSlots⟩, ⟨c.reservedSlots + 1, c.reservedSize + size⟩) := by
  simp only [reserve, Mode.breach_lenient, ite_self, Mode.addSize_lenient]
  rfl

end SlotCounter

end DefiniteAssignment
