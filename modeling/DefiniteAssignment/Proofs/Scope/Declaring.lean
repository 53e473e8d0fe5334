import DefiniteAssignment.Proofs.Contract.Storage
import DefiniteAssignment.Proofs.Scope.Arising
import DefiniteAssignment.Proofs.Scope.Ledger

/-!
# Declaring

There are three ways to declare a variable: in a slot of its own, in a slot that the caller brings
along, and as one that an enclosing declaration introduces. They have the same guard, and it comes
first. A name that is bound is refused before a slot is reserved or a size is counted, and a name
that is not bound is never refused. An accepted declaration stands after all others and has as many
levels as the scope has, on none of which it has a value.

Nothing else that is done to a scope adds a binding, takes one away or moves it. So the bindings of
a scope are its accepted declarations, in the order in which they were accepted.
-/

namespace DefiniteAssignment

variable {τ α ω : Type}

namespace Scope

/-- What an operation declares, in which slot if one is brought along, and whether the variable is
inherited. -/
def Op.declaration? : Op τ → Option (Declaration τ × Option SlotId × Bool)
  | .declare d => some (d, none, false)
  | .declareAt d slot inherited => some (d, some slot, inherited)
  | _ => none

/-- What an operation has declared, once it is answered. -/
def Op.accepted? : Op τ → Reply τ → Option (Declaration τ)
  | .declare d, .done | .declareAt d _ _, .done => some d
  | _, _ => none

/-- What was declared by operations that were answered. -/
def accepted (ops : List (Op τ)) (rs : List (Reply τ)) : List (Declaration τ) :=
  (ops.zip rs).filterMap fun (op, r) ↦ op.accepted? r

theorem accepted_cons (op : Op τ) (r : Reply τ) (ops : List (Op τ)) (rs : List (Reply τ)) :
    accepted (op :: ops) (r :: rs) = (op.accepted? r).toList ++ accepted ops rs := by
  cases h : op.accepted? r <;> simp [accepted, h]

/-- What an accepted declaration says enters the ledger, and nothing else does. -/
theorem declaration?_event? (s : Scope τ) (op : Op τ) (r : Reply τ) :
    (s.event? op r).bind Event.declaration? = op.accepted? r := by
  have hcalled (name : String) (c : Variable.Call) (q : Variable.Reply τ) :
      ((s.find? name).bind (Event.called? name c q)).bind Event.declaration? = none := by
    cases s.find? name with
    | none => rfl
    | some v =>
      rw [Option.bind_some, Event.called?]
      split <;> rfl
  cases op with
  | call name c => cases r <;> first | rfl | exact hcalled name c _
  | demand name c => cases r <;> first | rfl | exact hcalled name c _
  | _ => cases r <;> rfl

/-- The declarations of the bindings, in their order. -/
theorem map_identities_eq_map_ledger (s : Scope τ) :
    s.identities.map (·.1) = s.ledger.map (·.1) := by
  rw [identities, ledger, List.map_map, List.map_map]
  rfl

theorem Event.Enters.map_fst {e : Option (Event τ)} {l l' : Ledger τ} (h : Enters e l l') :
    l'.map (·.1) = l.map (·.1) ++ (e.bind declaration?).toList := by
  cases h with
  | nothing => exact (List.append_nil _).symm
  | declared => exact List.map_append
  | mutated =>
    rw [List.map_map]
    exact (List.append_nil _).symm

/-- In a scope that binds each name once, what a name means is the binding that carries it. -/
theorem find?_eq_some_iff {s : Scope τ} (hs : s.names.Nodup) {name : String} {v : Variable τ} :
    s.find? name = some v ↔ v ∈ s.bindings ∧ v.name = name := by
  constructor
  · intro h
    exact ⟨mem_of_find? h, name_of_find? h⟩
  · rintro ⟨hv, rfl⟩
    exact find?_of_mem hs hv

/-- Who is sure that a name is bound is given its binding, or told that there is none. -/
theorem lookup_eq_ok_iff {s : Scope τ} {name : String} {v : Variable τ} :
    s.lookup name = .ok v ↔ s.find? name = some v := by
  rw [lookup]
  cases s.find? name <;> simp

/-! ## One declaration -/

namespace Session

/-- The slot of a new variable, the size of the scope with it and the allocator after it. Nothing
is reserved for a variable whose slot is brought along. -/
def charge [Storable τ] [Allocator α] (mode : Mode) (x : Session τ α ω) (d : Declaration τ) :
    Option SlotId → Except Violation (SlotId × UInt64 × α)
  | some slot => .ok (slot, x.scope.size, x.slots)
  | none => do
    let (slot, slots) ← Allocator.reserve mode x.slots (Storable.storageSize d.ty)
    let size ← mode.addSize x.scope.size (Storable.storageSize d.ty)
    .ok (slot, size, slots)

/-- Storage is had where the allocator gives a slot and a strict analysis can count the size. -/
theorem charge_eq_ok [Storable τ] [Allocator α] {mode : Mode} {x : Session τ α ω}
    {d : Declaration τ} {slot : SlotId} {slots : α}
    (h : Allocator.reserve mode x.slots (Storable.storageSize d.ty) = .ok (slot, slots))
    (hroom : mode = .strict →
      x.scope.size.toNat + (Storable.storageSize d.ty).toNat < UInt64.size) :
    x.charge mode d none = .ok (slot, x.scope.size + Storable.storageSize d.ty, slots) := by
  have hsize : mode.addSize x.scope.size (Storable.storageSize d.ty) =
      .ok (x.scope.size + Storable.storageSize d.ty) := by
    cases mode with
    | strict => exact Mode.addSize_of_lt .strict (hroom rfl)
    | lenient => exact Mode.addSize_lenient _ _
  rw [charge, h, Violation.ok_bind, hsize]
  rfl

/-- A session in whose scope a variable was added after all others. -/
def adding (x : Session τ α ω) (v : Variable τ) (size : UInt64) (slots : α) : Session τ α ω :=
  { x with
    scope := { x.scope with bindings := x.scope.bindings ++ [v], size := size }
    slots := slots }

variable [Storable τ] [Allocator α] [Sink ω] {mode : Mode} {x y : Session τ α ω} {op : Op τ}
  {d : Declaration τ} {slot? : Option SlotId} {inherited : Bool}

/-- A name that is bound is refused, and nothing has happened then. -/
theorem step_of_contains (hop : op.declaration? = some (d, slot?, inherited))
    (h : x.scope.contains d.name) :
    x.step mode op = .ok (.refused (redeclaration d), x) := by
  cases op with
  | declare d' =>
    cases hop
    rw [step, declare_of_contains mode x.slots h]
    rfl
  | declareAt d' slot inherited =>
    cases hop
    rw [step, Scope.declareAt, if_pos h]
  | _ => cases hop

/-- A name that is not bound is bound, unless the storage for it cannot be had. -/
theorem step_of_not_contains (hop : op.declaration? = some (d, slot?, inherited))
    (h : x.scope.contains d.name = false) :
    x.step mode op = (x.charge mode d slot?).map fun (slot, size, slots) ↦
      (.done, x.adding (.fresh d slot inherited x.scope.depth) size slots) := by
  cases op with
  | declare d' =>
    cases hop
    rw [step, Scope.declare, if_neg (Bool.eq_false_iff.mp h), charge]
    simp only [grow]
    cases hr : Allocator.reserve mode x.slots (Storable.storageSize d.ty) with
    | error v => rfl
    | ok p => cases hz : mode.addSize x.scope.size (Storable.storageSize d.ty) <;> rfl
  | declareAt d' slot inherited =>
    cases hop
    rw [step, Scope.declareAt, if_neg (Bool.eq_false_iff.mp h)]
    rfl
  | _ => cases hop

/-! ## Runs -/

/-- A run declares what it has accepted. -/
theorem declarations_of_run {ops : List (Op τ)} {rs : List (Reply τ)} (hs : x.scope.WellKept)
    (h : x.run mode ops = .ok (rs, y)) :
    y.scope.ledger.map (·.1) = x.scope.ledger.map (·.1) ++ accepted ops rs := by
  induction ops generalizing x rs with
  | nil =>
    cases h
    exact (List.append_nil _).symm
  | cons op ops ih =>
    obtain ⟨r, z, qs, hstep, hrun, rfl⟩ := run_cons_eq_ok_iff.mp h
    have hentered := (enters_of_step hs.nodup hstep).map_fst
    rw [declaration?_event?] at hentered
    have hz := (hs.outlives_step hstep).wellKept
    rw [ih hz hrun, hentered, accepted_cons, List.append_assoc]

/-- The bindings are kept and others are added behind them: those that were accepted. -/
theorem exists_identities_of_run {ops : List (Op τ)} {rs : List (Reply τ)}
    (hs : x.scope.WellKept) (h : x.run mode ops = .ok (rs, y)) : ∃ new,
      y.scope.identities = x.scope.identities ++ new ∧ new.map (·.1) = accepted ops rs := by
  obtain ⟨new, hnew⟩ := (hs.outlives_run h).identities
  refine ⟨new, hnew.symm, ?_⟩
  have hdeclared := declarations_of_run hs h
  rw [← map_identities_eq_map_ledger, ← map_identities_eq_map_ledger, ← hnew,
    List.map_append] at hdeclared
  exact List.append_cancel_left hdeclared

end Session

/-- Declarations are atomic and append-only, on every scope that comes about and with any
allocator. Whichever way a name is declared, it is refused exactly if it is bound, by the error
that says so where the new declaration stands, and nothing is changed then: neither the scope nor
the allocator. Where it is not bound, it is bound behind all other names by a variable with what
was declared, never mutated and never given a value, that has a level for each level pushed and
one below them. Storage for it is had where the allocator gives a slot and the size does not run
over under a strict analysis; if it is not had, the analysis stops. Along any run, whatever is
done, the bindings that there were are kept in their places, with all that was declared of them,
and behind them stand the declarations that were accepted, in that order. Names are distinct, and
a name means the binding that carries it. -/
theorem declarations_are_atomic_and_append_only [Storable τ] [Allocator α] [Sink ω] (mode : Mode)
    {x : Session τ α ω} (hx : x.scope.Arises) :
    (∀ d slot, x.charge mode d (some slot) = .ok (slot, x.scope.size, x.slots)) ∧
    (∀ d slot slots, Allocator.reserve mode x.slots (Storable.storageSize d.ty) =
        .ok (slot, slots) →
      (mode = .strict →
        x.scope.size.toNat + (Storable.storageSize d.ty).toNat < UInt64.size) →
      x.charge mode d none = .ok (slot, x.scope.size + Storable.storageSize d.ty, slots)) ∧
    (∀ op d slot? inherited, op.declaration? = some (d, slot?, inherited) →
      (x.scope.contains d.name →
        x.step mode op = .ok (.refused ⟨.redeclared d.name, d.span⟩, x)) ∧
      (x.scope.contains d.name = false →
        (∀ b, x.charge mode d slot? = .error b → x.step mode op = .error b) ∧
        ∀ slot size slots, x.charge mode d slot? = .ok (slot, size, slots) →
          ∃ v : Variable τ,
            x.step mode op = .ok (.done, { x with
              scope := ⟨x.scope.bindings ++ [v], size, x.scope.depth⟩, slots := slots }) ∧
            v.toDeclaration = d ∧ v.slot = slot ∧ v.inherited = inherited ∧
            v.mutated = false ∧ v.firstOrder = none ∧
            v.levels = List.replicate (x.scope.depth + 1) none)) ∧
    ∀ ops rs y, x.run mode ops = .ok (rs, y) →
      (∃ new, y.scope.identities = x.scope.identities ++ new ∧
        new.map (·.1) = accepted ops rs) ∧
      y.scope.names.Nodup ∧
      ∀ name,
        (y.scope.contains name ↔ ∃ v ∈ y.scope.bindings, v.name = name) ∧
        ∀ v, (y.scope.find? name = some v ↔ v ∈ y.scope.bindings ∧ v.name = name) ∧
          (y.scope.lookup name = .ok v ↔ v ∈ y.scope.bindings ∧ v.name = name) := by
  refine ⟨fun _ _ ↦ rfl, fun _ _ _ ↦ Session.charge_eq_ok,
    fun op d slot? inherited hop ↦ ⟨Session.step_of_contains hop, fun h ↦ ?_⟩,
    fun ops rs y h ↦ ?_⟩
  · have hstep : x.step mode op = (x.charge mode d slot?).map _ :=
      Session.step_of_not_contains hop h
    refine ⟨fun b hb ↦ ?_, fun slot size slots hcharge ↦ ?_⟩
    · rw [hstep, hb]
      rfl
    · refine ⟨.fresh d slot inherited x.scope.depth, ?_, rfl, rfl, rfl, rfl, rfl, ?_⟩
      · rw [hstep, hcharge]
        rfl
      · rw [Variable.levels, Variable.fresh, List.reverse_replicate, List.replicate_succ']
  · have hy : y.scope.names.Nodup := (hx.wellKept.outlives_run h).wellKept.nodup
    refine ⟨Session.exists_identities_of_run hx.wellKept h, hy, fun name ↦ ⟨?_, fun v ↦ ?_⟩⟩
    · rw [contains_iff]
      exact List.mem_map
    · rw [lookup_eq_ok_iff]
      exact ⟨find?_eq_some_iff hy, find?_eq_some_iff hy⟩

/-- A variable is declared in an arm, and once more, as something that an enclosing declaration
introduces and with a size that would run over. The second declaration is refused where it stands,
and the first is found by its name, behind the one that was there before the arm. -/
theorem late_declaration_is_appended :
    let d (name : String) (line : Nat) (size : UInt64) : Declaration Layout :=
      ⟨name, ⟨size, false⟩, true, .point ⟨0, line, 1⟩⟩
    let before : List (Op Layout) :=
      [.declare (d "x" 1 8), .pushLevel, .demand "x" (.define 1)]
    let after : List (Op Layout) :=
      [.declareAt (d "y" 2 8) ⟨7⟩ true, .declare (d "y" 3 0xffffffffffffffff), .foldLevel]
    ∃ rs x qs y, (Session.start ({} : SlotCounter) Log.empty).run .strict before = .ok (rs, x) ∧
      x.scope.Arises ∧ x.run .strict after = .ok (qs, y) ∧
      x.step .strict (.declare (d "x" 2 0xffffffffffffffff)) =
        .ok (.refused ⟨.redeclared "x", .point ⟨0, 2, 1⟩⟩, x) ∧
      (∃ v z, x.step .strict (.declareAt (d "y" 2 8) ⟨7⟩ true) = .ok (.done, z) ∧
        z.scope.bindings = x.scope.bindings ++ [v] ∧ v.levels = [none, none]) ∧
      (∃ new, y.scope.identities = x.scope.identities ++ new ∧ new.map (·.1) = [d "y" 2 8]) ∧
      y.scope.names.Nodup := by
  intro d before after
  obtain ⟨rs, x, hrun, qs, y, hafter, hbound, hunbound, hdepth, haccepted⟩ : ∃ rs x,
      (Session.start ({} : SlotCounter) Log.empty).run .strict before = .ok (rs, x) ∧
      ∃ qs y, x.run .strict after = .ok (qs, y) ∧ x.scope.contains "x" ∧
        x.scope.contains "y" = false ∧ x.scope.depth = 1 ∧
        accepted after qs = [d "y" 2 8] := ⟨_, _, rfl, _, _, rfl, rfl, rfl, rfl, rfl⟩
  have hx : x.scope.Arises := .of_run (.opened 0) hrun
  obtain ⟨hgiven, -, hatomic, hgrowing⟩ := declarations_are_atomic_and_append_only .strict hx
  obtain ⟨hrefused, -⟩ := hatomic (.declare (d "x" 2 0xffffffffffffffff)) _ _ _ rfl
  obtain ⟨-, hbinds⟩ := hatomic (.declareAt (d "y" 2 8) ⟨7⟩ true) _ _ _ rfl
  obtain ⟨v, hstep, -, -, -, -, -, hlevels⟩ := (hbinds hunbound).2 _ _ _ (hgiven (d "y" 2 8) ⟨7⟩)
  rw [hdepth] at hlevels
  obtain ⟨hnew, hnodup, -⟩ := hgrowing after qs y hafter
  rw [haccepted] at hnew
  exact ⟨rs, x, qs, y, hrun, hx, hafter, hrefused hbound, ⟨v, _, hstep, rfl, hlevels⟩,
    hnew, hnodup⟩

end Scope

end DefiniteAssignment
