import DefiniteAssignment.Proofs.Contract.Storage
import DefiniteAssignment.Proofs.Stack.Names
import Mathlib.Algebra.Order.BigOperators.Group.List
import Mathlib.Algebra.Order.Ring.Nat

/-!
# Room for reservations

A stack has room for slots of given sizes if its counter can give out all of them. No
scope asked for more storage than the counter gave away, so then no scope runs over
either, and declarations of these sizes go through in either mode.
-/

namespace DefiniteAssignment.Stack

variable {τ : Type}

/-- The stack can reserve slots of these sizes. -/
structure Room (sizes : List UInt64) (s : Stack τ) : Prop where
  slots : s.counter.reservedSlots.toNat + sizes.length < UInt32.size
  total : s.counter.reservedSize.toNat + (sizes.map UInt64.toNat).sum < UInt64.size
  scopes : ∀ c ∈ s.scopes, c.size.toNat ≤ s.counter.reservedSize.toNat

section
variable {s t : Stack τ} {sizes rest : List UInt64}

/-- Where there is room for some slots, there is room for fewer. -/
theorem Room.mono (h : Room sizes s) (hs : rest.Sublist sizes) : Room rest s where
  slots := Nat.lt_of_le_of_lt (Nat.add_le_add_left hs.length_le _) h.slots
  total := by
    have hle : (rest.map UInt64.toNat).sum ≤ (sizes.map UInt64.toNat).sum :=
      (hs.map UInt64.toNat).sum_le_sum fun _ _ ↦ Nat.zero_le _
    exact Nat.lt_of_le_of_lt (Nat.add_le_add_left hle _) h.total
  scopes := h.scopes

theorem room_start {config : Config} (hcount : sizes.length < UInt32.size)
    (hsum : (sizes.map UInt64.toNat).sum < UInt64.size) :
    Room sizes (start config : Stack τ) where
  slots := by
    change 0 + sizes.length < UInt32.size
    rwa [Nat.zero_add]
  total := by
    change 0 + (sizes.map UInt64.toNat).sum < UInt64.size
    rwa [Nat.zero_add]
  scopes c hc := by
    rw [scopes_start, List.mem_singleton] at hc
    rw [hc]
    exact Nat.le_refl 0

theorem Room.of_alike (h : Room sizes s) (ha : Alike s t) : Room sizes t where
  slots := ha.counter ▸ h.slots
  total := ha.counter ▸ h.total
  scopes c hc := by
    have hsize : c.size ∈ s.scopes.map Scope.size := ha.sizes ▸ List.mem_map_of_mem hc
    obtain ⟨b, hb, he⟩ := List.mem_map.mp hsize
    rw [← he, ha.counter]
    exact h.scopes b hb

theorem Room.openScope (h : Room sizes s) : Room sizes s.openScope where
  slots := h.slots
  total := h.total
  scopes c hc := by
    rw [scopes_openScope, List.mem_append, List.mem_singleton] at hc
    rcases hc with hc | rfl
    · exact h.scopes c hc
    · exact Nat.zero_le _

theorem Room.of_closeScope? {ω : Type} [Sink ω] {sink out : ω} {closed : Scope τ}
    (h : Room sizes s) (ht : s.closeScope? sink = some (closed, t, out)) : Room sizes t := by
  obtain ⟨-, hscopes, -, hcounter⟩ := scopes_of_closeScope? ht
  refine ⟨hcounter ▸ h.slots, hcounter ▸ h.total, fun c hc ↦ ?_⟩
  rw [hscopes] at hc
  rw [hcounter]
  exact h.scopes c (List.mem_append_left _ hc)

end

/-! ## Declaring -/

theorem toNat_add_of_lt {a b : UInt64} (h : a.toNat + b.toNat < UInt64.size) :
    (a + b).toNat = a.toNat + b.toNat := by
  rw [UInt64.toNat_add]
  exact Nat.mod_eq_of_lt h

/-- A new name can be declared where there is room for its slot. -/
theorem Room.exists_declare [Storable τ] {s : Stack τ} {d : Declaration τ} {rest : List UInt64}
    (h : Room (Storable.storageSize d.ty :: rest) s) (hd : d.name ∉ s.current.names)
    (mode : Mode) :
    ∃ c counter, s.declare mode d = .ok (.ok { s with current := c, counter := counter }) ∧
      Room rest { s with current := c, counter := counter } ∧ s.current.Grows c ∧
      c.names = s.current.names ++ [d.name] ∧ ∀ n, c.current n = s.current.current n := by
  obtain ⟨hslots, htotal, hscopes⟩ := h
  rw [List.length_cons] at hslots
  rw [List.map_cons, List.sum_cons] at htotal
  have hcurrent : s.current.size.toNat ≤ s.counter.reservedSize.toNat :=
    hscopes s.current (List.mem_append_right _ (List.mem_singleton_self _))
  have hcon : s.current.contains d.name = false := by
    rw [← Bool.not_eq_true, ← Scope.mem_names_iff]
    exact hd
  have hreserve := SlotCounter.reserve_eq_stop mode (Storable.storageSize d.ty)
    (c := s.counter) (by omega)
  rw [Mode.sumBreach?_eq_none_iff.mpr (by omega), Mode.stop_none] at hreserve
  have hgrow := Scope.grow_eq_stop mode (Storable.storageSize d.ty) s.current
  rw [Mode.sumBreach?_eq_none_iff.mpr (by omega), Mode.stop_none] at hgrow
  have hdeclare : s.current.declare mode s.counter d = .ok (.ok
      (({ s.current with size := s.current.size + Storable.storageSize d.ty } : Scope τ).bind d
        ⟨s.counter.reservedSlots⟩ false, (s.counter.after (Storable.storageSize d.ty)).2)) := by
    rw [Scope.declare, hcon, if_neg Bool.false_ne_true]
    change (s.counter.reserve mode _ >>= _) = _
    rw [hreserve, Violation.ok_bind, hgrow]
    rfl
  have hafter : (s.counter.reservedSlots + 1).toNat = s.counter.reservedSlots.toNat + 1 := by
    rw [UInt32.toNat_add]
    change (s.counter.reservedSlots.toNat + 1) % UInt32.size = _
    exact Nat.mod_eq_of_lt (by omega)
  have hgiven : (s.counter.reservedSize + Storable.storageSize d.ty).toNat =
      s.counter.reservedSize.toNat + (Storable.storageSize d.ty).toNat :=
    toNat_add_of_lt (by omega)
  have hgrown : (s.current.size + Storable.storageSize d.ty).toNat =
      s.current.size.toNat + (Storable.storageSize d.ty).toNat :=
    toNat_add_of_lt (by omega)
  obtain ⟨hgrows, hsame⟩ := Scope.grows_declare hdeclare
  refine ⟨_, (s.counter.after (Storable.storageSize d.ty)).2, ?_, ⟨?_, ?_, fun c hc ↦ ?_⟩,
    hgrows, Scope.names_bind _ _ _ _, hsame⟩
  · rw [declare, hdeclare]
    rfl
  · change (s.counter.reservedSlots + 1).toNat + rest.length < UInt32.size
    omega
  · change (s.counter.reservedSize + _).toNat + _ < UInt64.size
    omega
  · change c.size.toNat ≤ (s.counter.reservedSize + _).toNat
    rw [hgiven]
    rcases List.mem_append.mp hc with hc | hc
    · exact Nat.le_add_right_of_le (hscopes c (List.mem_append_left _ hc))
    · rw [List.mem_singleton.mp hc]
      change (s.current.size + _).toNat ≤ _
      rw [hgrown]
      exact Nat.add_le_add_right hcurrent _

end DefiniteAssignment.Stack
