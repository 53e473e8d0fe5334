import DefiniteAssignment.Proofs.Stack.Overflow
import Mathlib.Algebra.Order.Group.Multiset
import Mathlib.Data.List.Induction
import Mathlib.Data.Nat.ModEq

/-!
# Slots and storage are conserved

One counter gives out the slots of all scopes. A scope that closes is handed back with its
variables and their slots, and with the storage that was reserved through it, so nothing that
was given out is lost or given out again: the slots of all scopes that were ever opened are the
slots that were given out in their names, and their sizes add up to what the counter totals,
less what was reserved outside of any scope.

The books are kept turn by turn. Each turn is balanced, in that what the scopes have gained in
it is what the counter has given; the books of a run are the sum of its turns. Totals of sizes
are exact in a strict analysis and wrap around in a lenient one, and both are said at once by
counting modulo a number that is zero for the strict one.
-/

namespace DefiniteAssignment

variable {τ α ω : Type}

/-! ## Totals -/

/-- What totals are counted by: exactly, or as far as they fit in 64 bits. -/
def Mode.modulus : Mode → Nat
  | .strict => 0
  | .lenient => UInt64.size

section
variable {mode : Mode}

theorem Mode.addSize_modEq {a b c : UInt64} (h : mode.addSize a b = .ok c) :
    c.toNat ≡ a.toNat + b.toNat [MOD mode.modulus] := by
  cases mode with
  | lenient =>
    rw [addSize_lenient] at h
    cases h
    rw [UInt64.toNat_add]
    exact Nat.mod_modEq _ _
  | strict =>
    rw [addSize_eq_stop] at h
    obtain ⟨hfits, h⟩ := stop_strict_eq_ok_iff.mp h
    cases h
    rw [UInt64.toNat_add, Nat.mod_eq_of_lt (sumBreach?_eq_none_iff.mp hfits)]

/-- A reservation numbers one slot and totals its storage. -/
theorem SlotCounter.of_reserve {c c' : SlotCounter} {size : UInt64} {slot : SlotId}
    (h : c.reserve mode size = .ok (slot, c')) (hroom : c.reservedSlots.toNat + 1 < UInt32.size) :
    slot = ⟨c.reservedSlots⟩ ∧ c'.reservedSlots.toNat = c.reservedSlots.toNat + 1 ∧
      c'.reservedSize.toNat ≡ c.reservedSize.toNat + size.toNat [MOD mode.modulus] := by
  rw [reserve_eq_bind, if_pos hroom, Violation.ok_bind] at h
  obtain ⟨total, htotal, h⟩ := Violation.bind_eq_ok_iff.mp h
  cases h
  refine ⟨rfl, ?_, Mode.addSize_modEq htotal⟩
  rw [UInt32.toNat_add, UInt32.toNat_one, Nat.mod_eq_of_lt hroom]

end

namespace Scope

/-- The slots of the variables. -/
def slots (s : Scope τ) : List SlotId := s.bindings.map (·.slot)

theorem slots_eq_map_identities (s : Scope τ) : s.slots = s.identities.map (·.2.1) := by
  simp [slots, identities, Variable.identity]

theorem slots_bind (s : Scope τ) (d : Declaration τ) (slot : SlotId) (inherited : Bool) :
    (s.bind d slot inherited).slots = s.slots ++ [slot] := by
  rw [slots_eq_map_identities, identities_bind, List.map_append, ← slots_eq_map_identities]
  rfl

/-- Counts what a scope holds, as far as it was declared in it or reserved through it. -/
structure Tallies {M : Type} [AddCommMonoid M] (f : Scope τ → M) : Prop where
  congr {s t : Scope τ} : t.identities = s.identities → t.size = s.size → f t = f s
  opened (depth : Nat) : f (.opened depth) = 0

theorem tallies_slots : Tallies fun s : Scope τ ↦ (s.slots : Multiset SlotId) where
  congr {s t} hi _ := by rw [slots_eq_map_identities, slots_eq_map_identities, hi]
  opened _ := rfl

theorem tallies_size : Tallies fun s : Scope τ ↦ s.size.toNat where
  congr _ hsize := congrArg UInt64.toNat hsize
  opened _ := rfl

theorem Tallies.overlooks {M : Type} [AddCommMonoid M] {f : Scope τ → M} (hf : Tallies f) :
    Overlooks f := fun _ _ _ hg ↦ hf.congr (identities_mapAll fun v _ ↦ (hg v).1) rfl

end Scope

namespace Stack

/-- The innermost scope apart from the others. -/
theorem sum_scopes {M : Type} [AddCommMonoid M] (f : Scope τ → M) (s : Stack τ) :
    (s.scopes.map f).sum = (s.enclosing.map f).sum + f s.current := by
  rw [scopes, List.map_append, List.sum_append, List.map_singleton, List.sum_singleton]

/-! ## What is reserved -/

namespace Turn

def asked? [Storable τ] (t : Turn τ α ω) : Option UInt64 := t.before.asked? t.op

/-- The slot of the variable that was declared. -/
def named? (t : Turn τ α ω) : Option SlotId :=
  match t.op, t.reply with
  | .declare d, .done => (t.after.stack.current.find? d.name).map (·.slot)
  | _, _ => none

/-- The slot that was handed out without a name. -/
def unnamed? (t : Turn τ α ω) : Option SlotId :=
  match t.reply with
  | .slot id => some id
  | _ => none

/-- The slot that was given. -/
def slot? (t : Turn τ α ω) : Option SlotId := t.named? <|> t.unnamed?

/-- The storage that was reserved outside of any scope. -/
def apart? (t : Turn τ α ω) : Option UInt64 :=
  match t.op with
  | .reserve size => some size
  | _ => none

/-- What the scopes have gained in a turn is what the counter has given. -/
structure Balanced [Storable τ] (mode : Mode) (t : Turn τ α ω) : Prop where
  numbered : t.after.stack.counter.reservedSlots.toNat =
    t.before.stack.counter.reservedSlots.toNat + t.asked?.toList.length
  slot : t.slot?.toList = t.asked?.toList.map fun _ ↦ ⟨t.before.stack.counter.reservedSlots⟩
  held : ((t.closed?.toList ++ t.after.stack.scopes).map fun c ↦ (c.slots : Multiset SlotId)).sum +
      (t.unnamed?.toList : Multiset SlotId) =
    (t.before.stack.scopes.map fun c ↦ (c.slots : Multiset SlotId)).sum +
      (t.slot?.toList : Multiset SlotId)
  total : t.after.stack.counter.reservedSize.toNat ≡
    t.before.stack.counter.reservedSize.toNat + (t.asked?.toList.map (·.toNat)).sum
    [MOD mode.modulus]
  storage : ((t.closed?.toList ++ t.after.stack.scopes).map (·.size.toNat)).sum +
      (t.apart?.toList.map (·.toNat)).sum ≡
    (t.before.stack.scopes.map (·.size.toNat)).sum + (t.asked?.toList.map (·.toNat)).sum
    [MOD mode.modulus]

end Turn

namespace Session

variable [Storable τ] {mode : Mode} {x y : Session τ α ω} {op : Op τ} {r : Reply τ}

/-- Where nothing is reserved, what the scopes hold is only moved. -/
theorem balanced_of_moved (hasked : x.asked? op = none)
    (hslot : (Turn.mk x op r y).slot? = none) (hunnamed : (Turn.mk x op r y).unnamed? = none)
    (hapart : (Turn.mk x op r y).apart? = none) (hcounter : y.stack.counter = x.stack.counter)
    (hmoved : ∀ {M : Type} [AddCommMonoid M] {f : Scope τ → M}, Scope.Tallies f →
      (((Turn.mk x op r y).closed?.toList ++ y.stack.scopes).map f).sum =
        (x.stack.scopes.map f).sum) : (Turn.mk x op r y).Balanced mode where
  numbered := by
    rw [Turn.asked?, hasked, hcounter]
    rfl
  slot := by
    rw [Turn.asked?, hasked, hslot]
    rfl
  held := by rw [hmoved Scope.tallies_slots, hunnamed, hslot]
  total := by
    rw [Turn.asked?, hasked, hcounter]
    rfl
  storage := by
    rw [Turn.asked?, hasked, hapart, hmoved Scope.tallies_size]

/-- A slot is given, and is held by a scope or handed out. -/
theorem balanced_of_reserve {size : UInt64} {slot : SlotId} (hasked : x.asked? op = some size)
    (hroom : x.stack.counter.reservedSlots.toNat + 1 < UInt32.size)
    (hreserve : x.stack.counter.reserve mode size = .ok (slot, y.stack.counter))
    (hslot : (Turn.mk x op r y).slot? = some slot) (hclosed : (Turn.mk x op r y).closed? = none)
    (hheld : (y.stack.scopes.map fun c ↦ (c.slots : Multiset SlotId)).sum +
        ((Turn.mk x op r y).unnamed?.toList : Multiset SlotId) =
      (x.stack.scopes.map fun c ↦ (c.slots : Multiset SlotId)).sum + {slot})
    (hstorage : (y.stack.scopes.map (·.size.toNat)).sum +
        ((Turn.mk x op r y).apart?.toList.map (·.toNat)).sum ≡
      (x.stack.scopes.map (·.size.toNat)).sum + size.toNat [MOD mode.modulus]) :
    (Turn.mk x op r y).Balanced mode := by
  obtain ⟨hgiven, hnumbered, htotal⟩ := SlotCounter.of_reserve hreserve hroom
  constructor
  · rw [Turn.asked?, hasked]
    exact hnumbered
  · rw [Turn.asked?, hasked, hslot, hgiven]
    rfl
  · rw [hclosed, hslot]
    exact hheld
  · rw [Turn.asked?, hasked]
    exact htotal
  · rw [Turn.asked?, hasked, hclosed]
    exact hstorage

variable [Allocator α] [Sink ω]

theorem balanced_declare {d : Declaration τ}
    (hroom : x.stack.counter.reservedSlots.toNat + (x.asked? (.declare d)).toList.length <
      UInt32.size)
    (h : x.step mode (.declare d) = .ok (r, y)) : (Turn.mk x (.declare d) r y).Balanced mode := by
  rcases declare_cases h with
    ⟨hc, rfl, rfl⟩ | ⟨hc, rfl, haround, slot, total, hreserve, htotal, hcurrent⟩
  · exact balanced_of_moved (if_pos hc) rfl rfl rfl rfl fun _ ↦ rfl
  · have hasked : x.asked? (.declare d) = some (Storable.storageSize d.ty) := by
      rw [asked?, if_neg (by simp [hc])]
    rw [hasked] at hroom
    have hfind : (y.stack.current.find? d.name).map (·.slot) = some slot := by
      have hnone : x.stack.current.find? d.name = none :=
        Option.not_isSome_iff_eq_none.mp (Bool.eq_false_iff.mp hc)
      have hsame : ({ x.stack.current with size := total } : Scope τ).find? d.name = none := hnone
      rw [hcurrent, Scope.find?_bind, hsame, if_pos rfl]
      rfl
    have hunnamed : (Turn.mk x (.declare d) .done y).unnamed? = none := rfl
    have hapart : (Turn.mk x (.declare d) .done y).apart? = none := rfl
    refine balanced_of_reserve hasked hroom hreserve ?_ rfl ?_ ?_
    · exact congrArg (· <|> (none : Option SlotId)) hfind
    · rw [hunnamed, Option.toList_none, Multiset.coe_nil, add_zero, sum_scopes, sum_scopes,
        haround.enclosing, hcurrent, Scope.slots_bind, ← Multiset.coe_add, ← add_assoc]
      rfl
    · rw [hapart, Option.toList_none, List.map_nil, List.sum_nil, add_zero, sum_scopes, sum_scopes,
        haround.enclosing, hcurrent, add_assoc]
      exact (Mode.addSize_modEq htotal).add_left _

theorem balanced_reserveInternal {ty : τ}
    (hroom : x.stack.counter.reservedSlots.toNat + 1 < UInt32.size)
    (h : x.step mode (.reserveInternal ty) = .ok (r, y)) :
    (Turn.mk x (.reserveInternal ty) r y).Balanced mode := by
  obtain ⟨haround, slot, total, rfl, hreserve, htotal, hcurrent⟩ := reserveInternal_eq_ok h
  have hapart : (Turn.mk x (.reserveInternal ty) (.slot slot) y).apart? = none := rfl
  refine balanced_of_reserve rfl hroom hreserve rfl rfl ?_ ?_
  · rw [sum_scopes, sum_scopes, haround.enclosing, hcurrent]
    rfl
  · rw [hapart, Option.toList_none, List.map_nil, List.sum_nil, add_zero, sum_scopes, sum_scopes,
      haround.enclosing, hcurrent, add_assoc]
    exact (Mode.addSize_modEq htotal).add_left _

theorem balanced_reserve {size : UInt64}
    (hroom : x.stack.counter.reservedSlots.toNat + 1 < UInt32.size)
    (h : x.step mode (.reserve size) = .ok (r, y)) :
    (Turn.mk x (.reserve size) r y).Balanced mode := by
  obtain ⟨haround, hcurrent, slot, rfl, hreserve⟩ := reserve_eq_ok h
  refine balanced_of_reserve rfl hroom hreserve rfl rfl ?_ ?_
  · rw [sum_scopes, sum_scopes, haround.enclosing, hcurrent]
    rfl
  · rw [sum_scopes, sum_scopes, haround.enclosing, hcurrent]
    rfl

theorem balanced_call {name : String} {c : Variable.Call}
    (hs : ∀ b ∈ x.stack.scopes, b.WellKept) (h : x.step mode (.call name c) = .ok (r, y)) :
    (Turn.mk x (.call name c) r y).Balanced mode := by
  obtain ⟨⟨q, t⟩, ht, h⟩ := Violation.bind_eq_ok_iff.mp h
  cases h
  refine balanced_of_moved rfl ?_ ?_ rfl (counter_call ht) fun {M} _ {f} hf ↦ ?_
  · cases q <;> rfl
  · cases q <;> rfl
  · have hclosed : (Turn.mk x (.call name c) (q.elim .absent .variable)
        { x with stack := t }).closed? = none := by
      cases q <;> rfl
    rw [hclosed]
    rcases call_eq_ok ht with ⟨-, -, rfl⟩ | ⟨place, b, v, w, q, -, hb, -, hv, hw, -, -, hscopes⟩
    · rfl
    · have hkept := hs b (List.mem_of_getElem? hb)
      have hi := (hkept.dated v (Scope.mem_of_find? hv)).of_call hw
      have hset : f (b.set name w) = f b := hf.congr (Scope.identities_set hkept.nodup hv hi.1) rfl
      exact congrArg List.sum ((congrArg (List.map f) hscopes).trans (map_set_of_eq hb hset))

theorem balanced_openScope (h : x.step mode .openScope = .ok (r, y)) :
    (Turn.mk x .openScope r y).Balanced mode := by
  cases h
  refine balanced_of_moved rfl rfl rfl rfl rfl fun {M} _ {f} hf ↦ ?_
  change ((x.stack.scopes ++ [Scope.opened x.stack.depth]).map f).sum = _
  rw [List.map_append, List.sum_append, List.map_singleton, List.sum_singleton, hf.opened,
    add_zero]

/-- What the scopes hold that are open is now held by one that is closed. -/
theorem balanced_closeScope (h : x.step mode .closeScope = .ok (r, y)) :
    (Turn.mk x .closeScope r y).Balanced mode := by
  rcases closeScope_cases h with ⟨-, rfl, rfl⟩ | ⟨rfl, hscopes, hcounter, -⟩
  · exact balanced_of_moved rfl rfl rfl rfl rfl fun _ ↦ rfl
  · refine balanced_of_moved rfl rfl rfl rfl hcounter fun {M} _ {f} hf ↦ ?_
    change ((x.stack.current :: y.stack.scopes).map f).sum = _
    rw [List.map_cons, List.sum_cons, hscopes, sum_scopes, add_comm]

theorem balanced_of_isRegional (hop : op.isRegional) (h : x.step mode op = .ok (r, y)) :
    (Turn.mk x op r y).Balanced mode := by
  have hmoved {M : Type} [AddCommMonoid M] {f : Scope τ → M} (hf : Scope.Tallies f) :
      (y.stack.scopes.map f).sum = (x.stack.scopes.map f).sum := by
    rw [(map_scopes_of_isRegional hf.overlooks hop h).1]
  have hcounter : y.stack.counter = x.stack.counter :=
    (map_scopes_of_isRegional Scope.tallies_size.overlooks hop h).2.1
  cases op with
  | pushLevel | joinArms =>
    cases h
    exact balanced_of_moved rfl rfl rfl rfl hcounter hmoved
  | foldLevel | takeArms =>
    obtain ⟨p, -, h⟩ := Violation.bind_eq_ok_iff.mp h
    cases h
    exact balanced_of_moved rfl rfl rfl rfl hcounter hmoved
  | _ => cases hop

/-- Every turn is balanced, as long as there is a number for its slot. -/
theorem balanced_of_step (hs : ∀ b ∈ x.stack.scopes, b.WellKept) (hop : op.isDirect = false)
    (hroom : x.stack.counter.reservedSlots.toNat + (x.asked? op).toList.length < UInt32.size)
    (h : x.step mode op = .ok (r, y)) : (Turn.mk x op r y).Balanced mode := by
  cases op with
  | openScope => exact balanced_openScope h
  | closeScope => exact balanced_closeScope h
  | declare d => exact balanced_declare hroom h
  | reserveInternal ty => exact balanced_reserveInternal hroom h
  | reserve size => exact balanced_reserve hroom h
  | call name c => exact balanced_call hs h
  | pushLevel | foldLevel | takeArms | joinArms => exact balanced_of_isRegional rfl h
  | current op => cases hop
  | report e =>
    cases h
    exact balanced_of_moved rfl rfl rfl rfl rfl fun _ ↦ rfl

/-! ## The books of a run -/

/-- What all scopes hold that were ever opened is what the counter has given. -/
structure Accounts (mode : Mode) (ts : List (Turn τ α ω)) (x : Session τ α ω) : Prop where
  numbered : x.stack.counter.reservedSlots.toNat = (ts.filterMap Turn.asked?).length
  slots : ts.filterMap Turn.slot? =
    (List.range (ts.filterMap Turn.asked?).length).map fun k ↦ ⟨.ofNat k⟩
  held : ((everOpened ts x).map fun c ↦ (c.slots : Multiset SlotId)).sum +
    (ts.filterMap Turn.unnamed? : Multiset SlotId) = (ts.filterMap Turn.slot? : Multiset SlotId)
  total : x.stack.counter.reservedSize.toNat ≡ ((ts.filterMap Turn.asked?).map (·.toNat)).sum
    [MOD mode.modulus]
  storage : ((everOpened ts x).map (·.size.toNat)).sum +
      ((ts.filterMap Turn.apart?).map (·.toNat)).sum ≡
    ((ts.filterMap Turn.asked?).map (·.toNat)).sum [MOD mode.modulus]

omit [Allocator α] [Sink ω] in
theorem accounts_start (mode : Mode) (config : Config) (slots : α) (shelf : Shelf) (sink : ω) :
    Accounts (τ := τ) mode [] ⟨.start config, slots, shelf, sink⟩ :=
  ⟨rfl, rfl, rfl, rfl, rfl⟩

omit [Allocator α] [Sink ω] in
theorem Accounts.concat {ts : List (Turn τ α ω)} {t : Turn τ α ω} (h : Accounts mode ts t.before)
    (ht : t.Balanced mode) : Accounts mode (ts ++ [t]) t.after := by
  have hever {M : Type} [AddCommMonoid M] (f : Scope τ → M) :
      ((everOpened (ts ++ [t]) t.after).map f).sum =
        ((ts.filterMap Turn.closed?).map f).sum +
          ((t.closed?.toList ++ t.after.stack.scopes).map f).sum := by
    rw [everOpened, filterMap_concat, List.append_assoc, List.map_append, List.sum_append]
  have hbefore {M : Type} [AddCommMonoid M] (f : Scope τ → M) :
      ((everOpened ts t.before).map f).sum =
        ((ts.filterMap Turn.closed?).map f).sum + (t.before.stack.scopes.map f).sum := by
    rw [everOpened, List.map_append, List.sum_append]
  have hheld := h.held
  have hstorage := h.storage
  rw [hbefore] at hheld hstorage
  constructor
  · rw [ht.numbered, h.numbered, filterMap_concat, List.length_append]
  · rw [filterMap_concat, filterMap_concat, h.slots, ht.slot, List.length_append]
    cases t.asked? with
    | none => rw [Option.toList_none, List.map_nil, List.append_nil, List.length_nil, Nat.add_zero]
    | some size =>
      rw [Option.toList_some, List.length_singleton, List.range_succ, List.map_append, ← h.numbered,
        List.map_singleton, List.map_singleton, UInt32.ofNat_toNat]
  · rw [hever, filterMap_concat, filterMap_concat, ← Multiset.coe_add, ← Multiset.coe_add,
      add_add_add_comm, ht.held, add_add_add_comm, ← add_assoc, hheld]
  · rw [sum_filterMap_concat]
    exact ht.total.trans (h.total.add_right _)
  · rw [hever, sum_filterMap_concat, sum_filterMap_concat, add_add_add_comm]
    refine (ht.storage.add_left _).trans ?_
    rw [add_add_add_comm, ← add_assoc]
    exact hstorage.add_right _

theorem Accounts.of_run {config : Config} {slots : α} {shelf : Shelf} {sink : ω}
    {ops : List (Op τ)} {rs : List (Reply τ)} (hops : ∀ op ∈ ops, op.isDirect = false)
    (h : (Session.mk (.start config) slots shelf sink).run mode ops = .ok (rs, y))
    (hroom : (((Session.mk (.start config) slots shelf sink).turns mode ops).filterMap
      Turn.asked?).length < UInt32.size) :
    Accounts mode ((Session.mk (.start config) slots shelf sink).turns mode ops) y := by
  induction ops using List.reverseRecOn generalizing y rs with
  | nil =>
    cases h
    exact accounts_start mode config slots shelf sink
  | append_singleton ops op ih =>
    obtain ⟨qs, z, r, hrun, hstep, rfl⟩ := run_concat_eq_ok_iff.mp h
    rw [turns_concat hrun hstep] at hroom ⊢
    rw [filterMap_concat, List.length_append] at hroom
    have hz := ih (fun o ho ↦ hops o (List.mem_append_left _ ho)) hrun (by omega)
    have hkept : ∀ b ∈ z.stack.scopes, b.WellKept := fun b hb ↦
      (((Arises.start config).of_run hrun).scopes b hb).wellKept
    have hop : op.isDirect = false := hops op (List.mem_append_right _ (List.mem_singleton_self op))
    have hnumber : z.stack.counter.reservedSlots.toNat + (z.asked? op).toList.length <
        UInt32.size := by
      rw [hz.numbered]
      exact hroom
    exact Accounts.concat hz (balanced_of_step hkept hop hnumber hstep)

/-- In a strict analysis, what is asked next overflows if it cannot be totalled with all that was
asked before. -/
theorem Accounts.overflow_iff {ts : List (Turn τ α ω)} (h : Accounts .strict ts x)
    (hop : op.isDirect = false)
    (hroom : (ts.filterMap Turn.asked? ++ (x.asked? op).toList).length < UInt32.size) :
    x.step .strict op = .error .overflow ↔
      UInt64.size ≤ ((ts.filterMap Turn.asked? ++ (x.asked? op).toList).map (·.toNat)).sum := by
  have htotal : x.stack.counter.reservedSize.toNat =
      ((ts.filterMap Turn.asked?).map (·.toNat)).sum := Nat.modEq_zero_iff.mp h.total
  have hstorage := Nat.modEq_zero_iff.mp h.storage
  rw [everOpened, List.map_append, List.sum_append, sum_scopes] at hstorage
  rw [List.map_append, List.sum_append, ← htotal]
  rw [List.length_append, ← h.numbered] at hroom
  cases hasked : x.asked? op with
  | none =>
    refine iff_of_false (step_ne_overflow hop hasked) (Nat.not_le.mpr ?_)
    exact UInt64.toNat_lt_size _
  | some size =>
    rw [hasked] at hroom
    rw [step_eq_overflow_iff hasked hroom (by omega), Option.toList_some, List.map_singleton,
      List.sum_singleton]

omit [Storable τ] [Allocator α] [Sink ω] in
theorem sum_slots (cs : List (Scope τ)) :
    (cs.map fun c ↦ (c.slots : Multiset SlotId)).sum =
      (cs.flatMap Scope.slots : Multiset SlotId) := by
  induction cs with
  | nil => rfl
  | cons c cs ih => rw [List.map_cons, List.sum_cons, ih, Multiset.coe_add, List.flatMap_cons]

end Session

/-- The first slots are different ones. -/
theorem nodup_slots {n : Nat} (h : n ≤ UInt32.size) :
    ((List.range n).map fun k ↦ (⟨.ofNat k⟩ : SlotId)).Nodup := by
  refine List.Nodup.map_on (fun i hi j hj hij ↦ ?_) List.nodup_range
  have hi : i < UInt32.size := Nat.lt_of_lt_of_le (List.mem_range.mp hi) h
  have hj : j < UInt32.size := Nat.lt_of_lt_of_le (List.mem_range.mp hj) h
  have hindex := congrArg (·.index.toNat) hij
  rwa [UInt32.toNat_ofNat_of_lt' hi, UInt32.toNat_ofNat_of_lt' hj] at hindex

/-- Slots are not given twice, and neither slots nor storage are lost. Take a run of a stack that
leaves the direct work on the innermost scope aside, in which fewer slots are reserved than can be
numbered. The slots that are given are the first ones, in sequence; the counter counts them, and a
declaration that is refused changes nothing. They are all different, and they are the slots of the
variables of all scopes that were opened, whether they are still open or were handed back, together
with those that were handed out without a name. What the counter totals is the size of all these
scopes together with what was reserved outside of any scope, as far as that fits in 64 bits. In a
strict analysis the total is exact, and the next operation overflows if and only if it reserves
a slot whose storage cannot be totalled with all that was reserved before. -/
theorem slots_and_storage_are_conserved [Storable τ] [Allocator α] [Sink ω] (mode : Mode)
    (config : Config) (slots : α) (shelf : Shelf) (sink : ω) {ops : List (Op τ)}
    {rs : List (Reply τ)} {y : Session τ α ω} :
    let x : Session τ α ω := ⟨.start config, slots, shelf, sink⟩
    let turns := x.turns mode ops
    let sizes := turns.filterMap Turn.asked?
    (∀ op ∈ ops, op.isDirect = false) → x.run mode ops = .ok (rs, y) →
    sizes.length < UInt32.size →
      let given := turns.filterMap Turn.slot?
      let scopes := turns.filterMap Turn.closed? ++ y.stack.scopes
      let held := scopes.flatMap (fun c ↦ c.bindings.map (·.slot)) ++ turns.filterMap Turn.unnamed?
      let total := (scopes.map (·.size.toNat)).sum +
        ((turns.filterMap Turn.apart?).map (·.toNat)).sum
      given = (List.range sizes.length).map (fun k ↦ ⟨.ofNat k⟩) ∧
      y.stack.counter.reservedSlots.toNat = sizes.length ∧
      (∀ t ∈ turns, ∀ e, t.reply = .refused e → t.after = t.before) ∧
      held.Perm given ∧ held.Nodup ∧
      y.stack.counter.reservedSize.toNat = total % UInt64.size ∧
      (mode = .strict → y.stack.counter.reservedSize.toNat = total ∧
        ∀ op : Op τ, op.isDirect = false →
          let sizes' := sizes ++ (y.asked? op).toList
          sizes'.length < UInt32.size →
            (y.step .strict op = .error .overflow ↔ UInt64.size ≤ (sizes'.map (·.toNat)).sum)) := by
  intro x turns sizes hops hrun hroom given scopes held total
  have h : Session.Accounts mode turns y := Session.Accounts.of_run hops hrun hroom
  have hgiven : given = (List.range sizes.length).map fun k ↦ ⟨.ofNat k⟩ := h.slots
  have hheld : held.Perm given := by
    rw [← Multiset.coe_eq_coe, ← h.held, Session.sum_slots, Multiset.coe_add]
    rfl
  have htotal : y.stack.counter.reservedSize.toNat ≡ total [MOD mode.modulus] :=
    h.total.trans h.storage.symm
  refine ⟨hgiven, h.numbered, ?_, hheld, ?_, ?_, ?_⟩
  · rintro t ht e he
    have hstep := Session.step_of_mem_turns ht
    rw [he] at hstep
    exact Session.eq_of_refused hstep
  · rw [hheld.nodup_iff, hgiven]
    exact nodup_slots hroom.le
  · have hmod : y.stack.counter.reservedSize.toNat ≡ total [MOD UInt64.size] := by
      cases mode with
      | lenient => exact htotal
      | strict => rw [Nat.modEq_zero_iff.mp htotal]
    rw [← hmod, Nat.mod_eq_of_lt (UInt64.toNat_lt_size _)]
  · rintro rfl
    exact ⟨Nat.modEq_zero_iff.mp htotal, fun op hop hnext ↦ h.overflow_iff hop hnext⟩

/-- A name that is declared again in an inner scope, where a third declaration is refused, and two
slots without a name, one of them outside of any scope. With what is left of 64 bits the next
reservation overflows. -/
theorem shadowed_slots_are_conserved :
    let d : Declaration Layout := ⟨"x", ⟨8, false⟩, true, default⟩
    let ops : List (Op Layout) :=
      [.declare d, .openScope, .declare d, .declare d, .reserveInternal ⟨4, false⟩, .closeScope,
        .reserve 2]
    let x : Session Layout SlotCounter Log := ⟨.start {}, {}, .empty, .empty⟩
    let turns := x.turns .strict ops
    (∀ op ∈ ops, op.isDirect = false) ∧ (turns.filterMap Turn.asked?).length < UInt32.size ∧
      ∃ rs y, x.run .strict ops = .ok (rs, y) ∧
        turns.filterMap Turn.slot? = [⟨0⟩, ⟨1⟩, ⟨2⟩, ⟨3⟩] ∧
        turns.filterMap Turn.unnamed? = [⟨2⟩, ⟨3⟩] ∧
        (turns.filterMap Turn.closed?).map (·.size) = [12] ∧
        y.stack.counter = ⟨4, 22⟩ ∧
        y.step .strict (.reserve (.ofNat (UInt64.size - 22))) = .error .overflow := by
  intro d ops x turns
  have hops : ∀ op ∈ ops, op.isDirect = false := by decide
  have hroom : (turns.filterMap Turn.asked?).length < UInt32.size := by decide
  obtain ⟨rs, y, hrun, hunnamed, hclosed, hcounter⟩ : ∃ rs y, x.run .strict ops = .ok (rs, y) ∧
      turns.filterMap Turn.unnamed? = [⟨2⟩, ⟨3⟩] ∧
      (turns.filterMap Turn.closed?).map (·.size) = [12] ∧ y.stack.counter = ⟨4, 22⟩ :=
    ⟨_, _, rfl, rfl, rfl, rfl⟩
  obtain ⟨hgiven, -, -, -, -, -, hstrict⟩ :=
    slots_and_storage_are_conserved .strict {} ({} : SlotCounter) .empty Log.empty hops hrun hroom
  have hnext := (hstrict rfl).2 (.reserve (.ofNat (UInt64.size - 22))) rfl
  simp only [Session.asked?, Option.toList_some] at hnext
  exact ⟨hops, hroom, rs, y, hrun, hgiven, hunnamed, hclosed, hcounter,
    (hnext (by decide)).mpr (by decide)⟩

end Stack

end DefiniteAssignment
