import DefiniteAssignment.Proofs.Scope.Declaring
import DefiniteAssignment.Proofs.Scope.Recommendation
import DefiniteAssignment.Proofs.Stack.Conservation
import DefiniteAssignment.Proofs.Stack.Shares
import Mathlib.Data.Finset.Card

/-!
# What is asked of an allocator

An allocator belongs to the caller, and nothing is known of the slots it gives: they may even be the
same ones again and again. What a scope does with it is told by running the same operations with an
allocator that keeps a record of its calls. The record does not depend on what the scope knows. It
can be foretold from the operations: a call for each declaration of a name that was not declared
before, unless the slot is brought along, and one for each slot that is to have no name. What each
call gave can be found afterwards, as the slot of the variable or as the answer, and the size of the
scope is the total of what the calls asked for.
-/

namespace DefiniteAssignment

variable {τ α ω : Type}

/-- An allocator that keeps a record: how much storage it was asked for in each call, and the slot
it gave. -/
structure Recorder (α : Type) where
  inner : α
  calls : List (UInt64 × SlotId)

instance [Allocator α] : Allocator (Recorder α) where
  reserve mode a size := (Allocator.reserve mode a.inner size).map fun (slot, inner) ↦
    (slot, ⟨inner, a.calls ++ [(size, slot)]⟩)

namespace Scope

/-! ## What calls are to be made -/

/-- The slot that an operation was answered with. -/
def Reply.slot? : Reply τ → Option SlotId
  | .slot id => some id
  | _ => none

/-- The call that an operation comes to where some names are bound: the storage that is asked for,
and the slot, as it is found in a later scope or in the answer. -/
def Op.reservation? [Storable τ] (s : Scope τ) (bound : List String) (r : Reply τ) :
    Op τ → Option (UInt64 × Option SlotId)
  | .declare d =>
    if d.name ∈ bound then none
    else some (Storable.storageSize d.ty, (s.find? d.name).map (·.slot))
  | .reserveInternal ty => some (Storable.storageSize ty, r.slot?)
  | _ => none

/-- The calls that operations come to, in their order, where some names are bound at first. A name
is bound from its first declaration on, whichever it is. -/
def reservations [Storable τ] (s : Scope τ) : List String → List (Op τ) → List (Reply τ) →
    List (UInt64 × Option SlotId)
  | bound, op :: ops, r :: rs =>
    (op.reservation? s bound r).toList ++ s.reservations (op.declares?.toList ++ bound) ops rs
  | _, _, _ => []

theorem declares?_of_accepted? {op : Op τ} {r : Reply τ} {d : Declaration τ}
    (h : op.accepted? r = some d) : op.declares? = some d.name := by
  cases op <;> cases r <;> cases h <;> rfl

namespace Session

/-- The session with a record kept of what is asked of its allocator. -/
def recording (calls : List (UInt64 × SlotId)) (x : Session τ α ω) : Session τ (Recorder α) ω :=
  ⟨x.scope, ⟨x.slots, calls⟩, x.shelf, x.sink⟩

/-! ## Charges -/

section
variable {mode : Mode} {x y z : Session τ α ω}

/-- What has changed between two sessions is due to calls of the allocator: what they were about is
known, and the size has grown by what they asked for. -/
structure Charges (mode : Mode) (x y : Session τ α ω) (calls : List (UInt64 × SlotId))
    (known : List (UInt64 × Option SlotId)) : Prop where
  known : calls.map (Prod.map id some) = known
  total : y.scope.size.toNat ≡ x.scope.size.toNat + (calls.map (·.1.toNat)).sum [MOD mode.modulus]

theorem Charges.of_size_eq (h : y.scope.size = x.scope.size) : Charges mode x y [] [] :=
  ⟨rfl, by rw [h]; exact Nat.ModEq.refl _⟩

/-- One call, whose size was added. -/
theorem Charges.of_addSize {size : UInt64} (slot : SlotId)
    (h : mode.addSize x.scope.size size = .ok y.scope.size) :
    Charges mode x y [(size, slot)] [(size, some slot)] :=
  ⟨rfl, by simpa using Mode.addSize_modEq h⟩

theorem Charges.trans {calls calls' : List (UInt64 × SlotId)}
    {known known' : List (UInt64 × Option SlotId)} (h : Charges mode x y calls known)
    (h' : Charges mode y z calls' known') :
    Charges mode x z (calls ++ calls') (known ++ known') where
  known := by rw [List.map_append, h.known, h'.known]
  total := by
    rw [List.map_append, List.sum_append, ← Nat.add_assoc]
    exact h'.total.trans (h.total.add_right _)

end

variable [Storable τ] [Allocator α] [Sink ω] {mode : Mode} {x y : Session τ α ω} {op : Op τ}
  {r : Reply τ} {s : Scope τ} {bound : List String}

/-! ## Names -/

/-- Names are bound by declaring them. -/
theorem contains_of_step_iff (hs : x.scope.WellKept) (h : x.step mode op = .ok (r, y))
    (name : String) :
    y.scope.contains name ↔ op.declares? = some name ∨ x.scope.contains name := by
  have hnames (t : Scope τ) : t.names = (t.ledger.map (·.1)).map (·.name) := by
    rw [names_eq_map_ledger, List.map_map]
    rfl
  constructor
  · intro hy
    have hentered := (enters_of_step hs.nodup h).map_fst
    rw [declaration?_event?] at hentered
    rw [← mem_names_iff, hnames, hentered, List.map_append, List.mem_append, ← hnames] at hy
    rcases hy with hx | hnew
    · exact .inr (mem_names_iff.mp hx)
    · obtain ⟨d, hd, rfl⟩ := List.mem_map.mp hnew
      exact .inl (declares?_of_accepted? (Option.mem_toList.mp hd))
  · rintro (hop | hx)
    · exact contains_of_declares hop h
    · exact (hs.outlives_step h).contains hx

/-- The names that are bound after a run are those that were bound before it, and those for which
a declaration was tried in it. -/
theorem contains_of_run_iff {ops : List (Op τ)} {rs : List (Reply τ)} (hs : x.scope.WellKept)
    (h : x.run mode ops = .ok (rs, y)) (name : String) :
    y.scope.contains name ↔ name ∈ ops.filterMap Op.declares? ∨ x.scope.contains name := by
  induction ops generalizing x rs with
  | nil =>
    cases h
    simp
  | cons op ops ih =>
    obtain ⟨r, z, qs, hstep, hrun, rfl⟩ := run_cons_eq_ok_iff.mp h
    have hz := (hs.outlives_step hstep).wellKept
    rw [ih hz hrun, contains_of_step_iff hs hstep, List.mem_filterMap, List.mem_filterMap,
      List.exists_mem_cons_iff, or_left_comm, or_assoc]

/-! ## One operation -/

/-- An operation that reserves nothing is carried out in the same way with a record, which it
leaves as it is, and it leaves the size as it is. -/
theorem step_recording_of_reserves_nothing (hop : ∀ d, op ≠ .declare d)
    (hop' : ∀ ty, op ≠ .reserveInternal ty) (h : x.step mode op = .ok (r, y))
    (calls : List (UInt64 × SlotId)) :
    (x.recording calls).step mode op = .ok (r, y.recording calls) ∧
      y.scope.size = x.scope.size := by
  cases op with
  | declare d => exact absurd rfl (hop d)
  | reserveInternal ty => exact absurd rfl (hop' ty)
  | declareAt d slot inherited =>
    simp only [step, recording] at h ⊢
    split at h
    · next t ht =>
      cases h
      obtain ⟨-, rfl⟩ := declareAt_eq_ok ht
      exact ⟨rfl, rfl⟩
    · cases h
      exact ⟨rfl, rfl⟩
  | call name c =>
    obtain ⟨⟨q, t⟩, hp, h⟩ := Violation.bind_eq_ok_iff.mp h
    cases h
    refine ⟨Violation.bind_eq_ok_iff.mpr ⟨_, hp, rfl⟩, ?_⟩
    rcases call_eq_ok hp with ⟨-, -, rfl⟩ | ⟨v, w, q, -, -, -, rfl⟩ <;> rfl
  | demand name c =>
    obtain ⟨⟨q, t⟩, hp, h⟩ := Violation.bind_eq_ok_iff.mp h
    cases h
    refine ⟨Violation.bind_eq_ok_iff.mpr ⟨_, hp, rfl⟩, ?_⟩
    rcases call_eq_ok (call_of_demand hp) with ⟨-, -, rfl⟩ | ⟨v, w, q, -, -, -, rfl⟩ <;> rfl
  | foldLevel =>
    obtain ⟨t, hp, h⟩ := Violation.bind_eq_ok_iff.mp h
    cases h
    refine ⟨Violation.bind_eq_ok_iff.mpr ⟨_, hp, rfl⟩, ?_⟩
    rw [foldLevel_eq_stop] at hp
    rw [Mode.eq_of_stop_eq_ok hp, size_folded]
  | takeArm label =>
    obtain ⟨p, hp, h⟩ := Violation.bind_eq_ok_iff.mp h
    cases h
    refine ⟨Violation.bind_eq_ok_iff.mpr ⟨_, hp, rfl⟩, ?_⟩
    rw [takeArm_eq_stop] at hp
    rw [Mode.eq_of_stop_eq_ok hp, size_shed]
  | joinArms refs exhaustive =>
    cases h
    exact ⟨rfl, size_joinArms _ _ _⟩
  | contains | setAll | pushLevel | checkAll | recommend | report =>
    cases h
    exact ⟨rfl, rfl⟩

/-- A declaration that is accepted calls for the storage of its type, and its variable has the slot
that was given, then and later. One that is refused calls for nothing. -/
theorem charges_of_declare {d : Declaration τ} (hbound : ∀ n, n ∈ bound ↔ x.scope.contains n)
    (hkept : y.scope.identities <+: s.identities) (h : x.step mode (.declare d) = .ok (r, y)) :
    ∃ new, (∀ calls, (x.recording calls).step mode (.declare d) =
        .ok (r, y.recording (calls ++ new))) ∧
      Charges mode x y new ((Op.declare d).reservation? s bound r).toList := by
  obtain ⟨p, hp, h⟩ := Violation.bind_eq_ok_iff.mp h
  cases p with
  | error e =>
    cases h
    obtain ⟨hc, rfl⟩ := declare_eq_refused hp
    refine ⟨[], fun calls ↦ ?_, ?_⟩
    · rw [List.append_nil]
      exact step_of_contains rfl hc
    · rw [Op.reservation?, if_pos ((hbound d.name).mpr hc)]
      exact .of_size_eq rfl
  | ok p =>
    obtain ⟨t, given⟩ := p
    cases h
    obtain ⟨hc, slot, total, hr, htotal, rfl⟩ := charged_of_declare hp
    have hnew : d.name ∉ bound := by
      rw [hbound, hc]
      exact Bool.false_ne_true
    have hfound : (({ x.scope with size := total } : Scope τ).bind d slot false).find? d.name =
        some (.fresh d slot false x.scope.depth) := by
      have hnone : ({ x.scope with size := total } : Scope τ).find? d.name = none :=
        Option.isNone_iff_eq_none.mp (Option.isSome_eq_false_iff.mp hc)
      rw [find?_bind, hnone, if_pos rfl]
      rfl
    -- The new variable is what its name means, from now on.
    obtain ⟨v, hv, hidentity⟩ := exists_find?_of_prefix hkept hfound
    refine ⟨[(Storable.storageSize d.ty, slot)], fun calls ↦ ?_, ?_⟩
    · simp only [step, recording, declare, hc, grow, htotal, Allocator.reserve, hr]
      rfl
    · have hslot : v.slot = slot := congrArg (·.2.1) hidentity
      rw [Op.reservation?, if_neg hnew, hv, Option.map_some, hslot]
      exact .of_addSize slot htotal

/-- A slot that is to have no name calls for the storage of its type, and is the slot that was
given. -/
theorem charges_of_reserveInternal {ty : τ} (h : x.step mode (.reserveInternal ty) = .ok (r, y)) :
    ∃ new, (∀ calls, (x.recording calls).step mode (.reserveInternal ty) =
        .ok (r, y.recording (calls ++ new))) ∧
      Charges mode x y new ((Op.reserveInternal ty).reservation? s bound r).toList := by
  obtain ⟨⟨slot, t, given⟩, hp, h⟩ := Violation.bind_eq_ok_iff.mp h
  cases h
  obtain ⟨total, htotal, hr, rfl⟩ := charged_of_reserveInternal hp
  refine ⟨[(Storable.storageSize ty, slot)], fun calls ↦ ?_, .of_addSize slot htotal⟩
  simp only [step, recording, reserveInternal, grow, htotal, Allocator.reserve, hr]
  rfl

/-- What an operation calls for is known from the names that are bound, and what was given from the
scope that a run ends with. -/
theorem charges_of_step (hbound : ∀ n, n ∈ bound ↔ x.scope.contains n)
    (hkept : y.scope.identities <+: s.identities) (h : x.step mode op = .ok (r, y)) :
    ∃ new, (∀ calls, (x.recording calls).step mode op = .ok (r, y.recording (calls ++ new))) ∧
      Charges mode x y new (op.reservation? s bound r).toList := by
  have hnothing (hop : ∀ d, op ≠ .declare d) (hop' : ∀ ty, op ≠ .reserveInternal ty) :
      ∃ new, (∀ calls, (x.recording calls).step mode op = .ok (r, y.recording (calls ++ new))) ∧
        Charges mode x y new [] := by
    refine ⟨[], fun calls ↦ ?_, ?_⟩
    · rw [List.append_nil]
      exact (step_recording_of_reserves_nothing hop hop' h calls).1
    · exact .of_size_eq (step_recording_of_reserves_nothing hop hop' h []).2
  cases op with
  | declare d => exact charges_of_declare hbound hkept h
  | reserveInternal ty => exact charges_of_reserveInternal h
  | _ => exact hnothing nofun nofun

/-! ## Runs -/

theorem charges_of_run {ops : List (Op τ)} {rs : List (Reply τ)} (hs : x.scope.WellKept)
    (hbound : ∀ n, n ∈ bound ↔ x.scope.contains n) (h : x.run mode ops = .ok (rs, y)) :
    ∃ new, (∀ calls, (x.recording calls).run mode ops = .ok (rs, y.recording (calls ++ new))) ∧
      Charges mode x y new (y.scope.reservations bound ops rs) := by
  induction ops generalizing x rs bound with
  | nil =>
    cases h
    refine ⟨[], fun calls ↦ ?_, .of_size_eq rfl⟩
    rw [List.append_nil]
    rfl
  | cons op ops ih =>
    obtain ⟨r, z, qs, hstep, hrun, rfl⟩ := run_cons_eq_ok_iff.mp h
    have hz := (hs.outlives_step hstep).wellKept
    have hbound' (n : String) : n ∈ op.declares?.toList ++ bound ↔ z.scope.contains n := by
      rw [List.mem_append, Option.mem_toList, hbound, contains_of_step_iff hs hstep]
    have hkept := (hz.outlives_run hrun).identities
    obtain ⟨new, hrecord, hcharges⟩ := charges_of_step hbound hkept hstep
    obtain ⟨more, hrecords, hcharges'⟩ := ih hz hbound' hrun
    refine ⟨new ++ more, fun calls ↦ ?_, hcharges.trans hcharges'⟩
    rw [← List.append_assoc]
    exact run_cons_eq_ok_iff.mpr ⟨r, _, qs, hrecord calls, hrecords _, rfl⟩

end Session

/-- The size of a scope accounts for every call of the allocator, whatever slots it gives. Take a
run on a scope opened with any number of levels. With an allocator that keeps a record the run goes
the same way. The calls on record are one for each declaration of a name that was not declared
before, unless its slot was brought along, and one for each slot that was to have no name, in the
order of these operations. Each asks for the storage of the type in question, and it has given the
slot that the variable has at the end of the run, or the slot that was the answer. The size is the
total of what was asked for, as far as it fits in 64 bits, and exactly so in a strict analysis. The
variables are as many as there were names declared, refused declarations included. -/
theorem size_accounts_for_calls [Storable τ] [Allocator α] [Sink ω] {mode : Mode} {depth : Nat}
    {slots : α} {shelf : Shelf} {sink : ω} {ops : List (Op τ)} {rs : List (Reply τ)}
    {y : Session τ α ω}
    (h : Session.run mode ⟨.opened depth, slots, shelf, sink⟩ ops = .ok (rs, y)) :
    ∃ calls : List (UInt64 × SlotId),
      Session.run mode ⟨.opened depth, (⟨slots, []⟩ : Recorder α), shelf, sink⟩ ops =
        .ok (rs, ⟨y.scope, ⟨y.slots, calls⟩, y.shelf, y.sink⟩) ∧
      calls.map (Prod.map id some) = y.scope.reservations [] ops rs ∧
      y.scope.size.toNat = (calls.map (·.1.toNat)).sum % UInt64.size ∧
      (mode = .strict → y.scope.size.toNat = (calls.map (·.1.toNat)).sum) ∧
      y.scope.bindings.length = (ops.filterMap Op.declares?).toFinset.card := by
  have hopened : (.opened depth : Scope τ).WellKept := wellKept_opened depth
  have hnone (n : String) : ¬(.opened depth : Scope τ).contains n := Bool.false_ne_true
  have hbound (n : String) : n ∈ [] ↔ (.opened depth : Scope τ).contains n :=
    iff_of_false List.not_mem_nil (hnone n)
  obtain ⟨calls, hrecords, hknown, htotal⟩ := Session.charges_of_run hopened hbound h
  have hsize : (Scope.opened depth : Scope τ).size.toNat = 0 := rfl
  rw [hsize, Nat.zero_add] at htotal
  refine ⟨calls, hrecords [], hknown, ?_, ?_, ?_⟩
  · cases mode with
    | strict =>
      rw [← Nat.modEq_zero_iff.mp htotal]
      exact (Nat.mod_eq_of_lt y.scope.size.toNat_lt).symm
    | lenient => exact (Nat.mod_eq_of_lt y.scope.size.toNat_lt).symm.trans htotal
  · rintro rfl
    exact Nat.modEq_zero_iff.mp htotal
  · have hnodup := (hopened.outlives_run h).wellKept.nodup
    rw [← List.length_map (·.name), ← names, ← List.toFinset_card_of_nodup hnodup]
    congr 1
    ext n
    rw [List.mem_toFinset, List.mem_toFinset, mem_names_iff, Session.contains_of_run_iff hopened h]
    exact or_iff_left (hnone n)

/-- An allocator that gives one slot for everything. A variable is declared, declared again and then
inherited, both in vain; another one is inherited under a name of its own. The slot without a name
is the one that the first variable has, and the size has wrapped around. -/
theorem size_accounts_for_calls_that_share_a_slot :
    let d (name : String) (size : UInt64) : Declaration Layout :=
      ⟨name, ⟨size, false⟩, false, default⟩
    let ops : List (Op Layout) :=
      [.declare (d "x" 0xffffffffffffffff), .declare (d "x" 5), .declareAt (d "x" 1) ⟨4⟩ true,
        .declareAt (d "p" 9) ⟨6⟩ true, .pushLevel, .reserveInternal ⟨8, true⟩]
    ∃ (rs : List (Reply Layout)) (y : Session Layout Given Log),
      Session.run .lenient ⟨.opened 1, ⟨⟨3⟩⟩, .empty, .empty⟩ ops = .ok (rs, y) ∧
      ∃ calls : List (UInt64 × SlotId),
        Session.run .lenient ⟨.opened 1, (⟨⟨⟨3⟩⟩, []⟩ : Recorder Given), .empty, .empty⟩ ops =
          .ok (rs, ⟨y.scope, ⟨y.slots, calls⟩, y.shelf, y.sink⟩) ∧
        calls = [(0xffffffffffffffff, ⟨3⟩), (8, ⟨3⟩)] ∧
        y.scope.size.toNat = (calls.map (·.1.toNat)).sum % UInt64.size ∧
        y.scope.size.toNat = 7 ∧ y.scope.bindings.length = 2 := by
  intro d ops
  obtain ⟨rs, y, hrun, hknown, hnames⟩ : ∃ (rs : List (Reply Layout))
      (y : Session Layout Given Log),
      Session.run .lenient ⟨.opened 1, ⟨⟨3⟩⟩, .empty, .empty⟩ ops = .ok (rs, y) ∧
      y.scope.reservations [] ops rs = [(0xffffffffffffffff, some ⟨3⟩), (8, some ⟨3⟩)] ∧
      (ops.filterMap Op.declares?).toFinset.card = 2 :=
    ⟨_, _, rfl, rfl, rfl⟩
  obtain ⟨calls, hrecord, hcalls, htotal, -, hlength⟩ := size_accounts_for_calls hrun
  have hsome : Function.Injective (Prod.map id some : UInt64 × SlotId → _) :=
    Function.injective_id.prodMap (Option.some_injective _)
  obtain rfl : calls = [(0xffffffffffffffff, ⟨3⟩), (8, ⟨3⟩)] :=
    List.map_injective_iff.mpr hsome (hcalls.trans hknown)
  exact ⟨rs, y, hrun, _, hrecord, rfl, htotal, htotal.trans (by decide), hlength.trans hnames⟩

end Scope

end DefiniteAssignment
