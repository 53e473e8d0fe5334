import DefiniteAssignment.Proofs.Scope.View

/-!
# Declarations and calls

A declaration adds a binding and changes nothing that is known. A call that moves no
level changes one variable at its current level, and leaves alone what is around it,
every other variable, and what was declared.
-/

namespace DefiniteAssignment

variable {τ : Type}

namespace Variable

/-- A call that moves no level leaves the levels around the current one alone. -/
theorem frame_call {mode : Mode} {c : Call} {v w : Variable τ} {r : Reply τ}
    (hc : c.movesLevel = false) (h : v.call mode c = .ok (r, w)) :
    w.identity = v.identity ∧ w.enclosing = v.enclosing := by
  cases c <;> simp only [call] at h
  case pushLevel => cases hc
  case foldLevel => cases hc
  case takeLevel => cases hc
  case assign order span =>
    unfold assign at h
    split at h
    · next hw =>
      cases h
      split at hw
      · split at hw
        · cases hw
        · cases hw; exact ⟨rfl, rfl⟩
      · cases hw; exact ⟨rfl, rfl⟩
    · cases h; exact ⟨rfl, rfl⟩
  case ensureInitialized =>
    split at h <;> cases h <;> exact ⟨rfl, rfl⟩
  all_goals cases h; exact ⟨rfl, rfl⟩

theorem exists_call_of_movesLevel_eq_false (mode : Mode) {c : Call} (v : Variable τ)
    (hc : c.movesLevel = false) : ∃ p, v.call mode c = .ok p := by
  cases c <;> simp only [call]
  case pushLevel => cases hc
  case foldLevel => cases hc
  case takeLevel => cases hc
  case assign => split <;> exact ⟨_, rfl⟩
  case ensureInitialized => split <;> exact ⟨_, rfl⟩
  all_goals exact ⟨_, rfl⟩

/-- An assignment is refused where a frozen variable has a value, and leaves it as it is. Else
it is accepted, and mutates the variable where it has a value. -/
theorem call_assign_cases {mode : Mode} {v w : Variable τ} {q : Reply τ} {order : Order}
    {span : Span} (h : v.call mode (.assign order span) = .ok (q, w)) :
    (v.initialized = true ∧ v.frozen = true ∧ q = .refused ⟨.frozenMutation v.name, span⟩ ∧
        w = v) ∨
      (v.initialized = true ∧ v.frozen = false ∧ q = .accepted ∧ w = v.markMutated.define order) ∨
      (v.initialized = false ∧ q = .accepted ∧ w = v.define order) := by
  rw [call, assign] at h
  cases hi : v.initialized with
  | false =>
    rw [hi] at h
    cases h
    exact .inr (.inr ⟨rfl, rfl, rfl⟩)
  | true =>
    cases hf : v.frozen with
    | true =>
      rw [hi, hf] at h
      cases h
      exact .inl ⟨rfl, rfl, rfl, rfl⟩
    | false =>
      rw [hi, hf] at h
      cases h
      exact .inr (.inl ⟨rfl, rfl, rfl, rfl⟩)

/-- An assignment gives a value, unless it is refused one that has a value. -/
theorem current_assign {mode : Mode} {v w : Variable τ} {q : Reply τ} {order : Order}
    {span : Span} (h : v.call mode (.assign order span) = .ok (q, w)) :
    w.current = if v.frozen && v.current.isSome then v.current else some order := by
  rw [call, assign, initialized] at h
  cases hc : v.current with
  | none =>
    rw [hc] at h
    cases h
    simp
  | some o =>
    cases hf : v.frozen <;> simp only [hc, hf] at h <;> cases h <;> simp [hc]

/-- A variable has a value after an assignment, also where it is frozen and kept its own. -/
theorem isSome_current_assign {mode : Mode} {v w : Variable τ} {q : Reply τ} {order : Order}
    {span : Span} (h : v.call mode (.assign order span) = .ok (q, w)) : w.current.isSome := by
  rw [current_assign h]
  split
  · next hf => exact (Bool.and_eq_true_iff.mp hf).2
  · rfl

end Variable

namespace Scope

section
variable {s : Scope τ} {name : String} {v w : Variable τ}

theorem set_eq_mapAll (s : Scope τ) (name : String) (w : Variable τ) :
    s.set name w = s.mapAll (fun u ↦ if u.name = name then w else u) s.depth := rfl

/-- Only the variable of the name is changed. -/
theorem eq_of_name (hs : s.names.Nodup) (hv : s.find? name = some v) {u : Variable τ}
    (hu : u ∈ s.bindings) (hn : u.name = name) : u = v := by
  have hf := find?_of_mem hs hu
  rw [hn, hv] at hf
  exact (Option.some.inj hf).symm

theorem identity_set (hs : s.names.Nodup) (hv : s.find? name = some v)
    (hw : w.identity = v.identity) :
    ∀ u ∈ s.bindings, (if u.name = name then w else u).identity = u.identity := by
  intro u hu
  split
  · next hn => rw [eq_of_name hs hv hu hn, hw]
  · rfl

theorem identities_set (hs : s.names.Nodup) (hv : s.find? name = some v)
    (hi : w.identity = v.identity) : (s.set name w).identities = s.identities :=
  identities_mapAll (identity_set hs hv hi)

theorem InStep.set (hs : s.InStep) (hv : s.find? name = some v) (hi : w.identity = v.identity)
    (he : w.enclosing = v.enclosing) : (s.set name w).InStep := by
  refine hs.mapAll (identity_set hs.nodup hv hi) fun u hu ↦ ?_
  split
  · rw [he]
    exact hs.length_enclosing v (mem_of_find? hv)
  · exact hs.length_enclosing u hu

theorem InStep.around_set (hs : s.InStep) (hv : s.find? name = some v)
    (hi : w.identity = v.identity) (he : w.enclosing = v.enclosing) (n : String) :
    (s.set name w).around n = s.around n := by
  rw [set_eq_mapAll, around_mapAll (identity_set hs.nodup hv hi), around]
  cases hf : s.find? n with
  | none => rfl
  | some u =>
    simp only [Option.elim_some]
    split
    · next hn => rw [he, eq_of_name hs.nodup hv (mem_of_find? hf) hn]
    · rfl

theorem InStep.current_set (hs : s.InStep) (hv : s.find? name = some v)
    (hi : w.identity = v.identity) (n : String) :
    (s.set name w).current n = if n = name then w.current else s.current n := by
  rw [set_eq_mapAll, current_mapAll (identity_set hs.nodup hv hi), current]
  cases hf : s.find? n with
  | none =>
    have hn : n ≠ name := by
      rintro rfl
      rw [hv] at hf
      cases hf
    rw [if_neg hn]
    rfl
  | some u =>
    rw [Option.elim_some, name_of_find? hf]
    split <;> rfl

end

theorem call_of_find?_eq_none {mode : Mode} {name : String} {c : Variable.Call} {s : Scope τ}
    (h : s.find? name = none) : s.call mode name c = .ok (none, s) := by
  simp only [call, h]

theorem call_of_find?_eq_some {mode : Mode} {name : String} {c : Variable.Call} {s : Scope τ}
    {v : Variable τ} (h : s.find? name = some v) :
    s.call mode name c = (v.call mode c).map fun (r, w) ↦ (some r, s.set name w) := by
  simp only [call, h]

/-! ## Declaring -/

section
variable (s : Scope τ) (d : Declaration τ) (slot : SlotId) (inherited : Bool)

theorem identities_bind :
    (s.bind d slot inherited).identities = s.identities ++ [(d, slot, inherited)] := by
  simp [identities, bind, Variable.identity, Variable.fresh]

theorem names_bind : (s.bind d slot inherited).names = s.names ++ [d.name] := by
  simp [names, bind]

variable {s d}

theorem find?_bind (name : String) : (s.bind d slot inherited).find? name =
    (s.find? name <|> if d.name = name then some (.fresh d slot inherited s.depth) else none) := by
  simp only [find?, bind, List.find?_append, List.find?_cons, List.find?_nil,
    Variable.toDeclaration_fresh]
  by_cases h : d.name = name <;> simp [h]

/-- Nothing is known of a new variable, as nothing was known of its name. -/
theorem current_bind (name : String) :
    (s.bind d slot inherited).current name = s.current name := by
  rw [current, current, find?_bind]
  cases s.find? name with
  | some v => rfl
  | none => by_cases h : d.name = name <;> simp [h]

theorem around_bind (name : String) :
    (s.bind d slot inherited).around name = s.around name := by
  rw [around, around, find?_bind]
  cases s.find? name with
  | some v => rfl
  | none => by_cases h : d.name = name <;> simp [h, Variable.fresh, bind]

/-- A name that was not bound is bound once. -/
theorem nodup_names_bind (hs : s.names.Nodup) (h : s.contains d.name = false) :
    (s.bind d slot inherited).names.Nodup := by
  rw [names_bind, List.nodup_append]
  refine ⟨hs, List.nodup_singleton d.name, ?_⟩
  rintro a ha b hb rfl
  rw [List.mem_singleton] at hb
  subst hb
  rw [mem_names_iff, h] at ha
  cases ha

theorem InStep.bind (hs : s.InStep) (h : s.contains d.name = false) :
    (s.bind d slot inherited).InStep where
  nodup := nodup_names_bind slot inherited hs.nodup h
  length_enclosing v hv := by
    rw [Scope.bind, List.mem_append, List.mem_singleton] at hv
    rcases hv with hv | rfl
    · exact hs.length_enclosing v hv
    · exact List.length_replicate

end

/-- A scope of another size is in step as before. -/
theorem InStep.resize {s : Scope τ} (hs : s.InStep) (size : UInt64) :
    ({ s with size := size } : Scope τ).InStep := ⟨hs.nodup, hs.length_enclosing⟩

section
variable {mode : Mode} {s t : Scope τ}

theorem grow_eq_ok {size : UInt64} (h : s.grow mode size = .ok t) :
    ∃ total, mode.addSize s.size size = .ok total ∧ t = { s with size := total } := by
  rw [grow] at h
  cases hz : mode.addSize s.size size with
  | error v =>
    rw [hz] at h
    cases h
  | ok total =>
    rw [hz] at h
    cases h
    exact ⟨total, rfl, rfl⟩

theorem declareAt_eq_ok {d : Declaration τ} {slot : SlotId} {inherited : Bool}
    (h : s.declareAt d slot inherited = .ok t) :
    s.contains d.name = false ∧ t = s.bind d slot inherited := by
  cases hc : s.contains d.name with
  | true => rw [declareAt, if_pos hc] at h; cases h
  | false => rw [declareAt, if_neg (by simp [hc])] at h; cases h; exact ⟨rfl, rfl⟩

variable {α : Type} [Storable τ] [Allocator α] {slots given : α}

/-- A declaration that is accepted is charged to the allocator and to the scope. -/
theorem charged_of_declare {d : Declaration τ}
    (h : s.declare mode slots d = .ok (.ok (t, given))) :
    s.contains d.name = false ∧ ∃ slot total,
      Allocator.reserve mode slots (Storable.storageSize d.ty) = .ok (slot, given) ∧
      mode.addSize s.size (Storable.storageSize d.ty) = .ok total ∧
      t = ({ s with size := total } : Scope τ).bind d slot false := by
  cases hc : s.contains d.name with
  | true =>
    rw [declare, if_pos hc] at h
    cases h
  | false =>
    rw [declare, if_neg (by simp [hc])] at h
    obtain ⟨⟨slot, slots'⟩, hr, h⟩ := Violation.bind_eq_ok_iff.mp h
    obtain ⟨u, hu, h⟩ := Violation.bind_eq_ok_iff.mp h
    obtain ⟨total, htotal, rfl⟩ := grow_eq_ok hu
    cases h
    exact ⟨rfl, slot, total, hr, htotal, rfl⟩

/-- A declaration that is accepted adds its binding to a scope that did not have it, and
apart from that changes only the size. -/
theorem declare_eq_ok {d : Declaration τ} (h : s.declare mode slots d = .ok (.ok (t, given))) :
    s.contains d.name = false ∧
      ∃ slot size, t = ({ s with size := size } : Scope τ).bind d slot false := by
  obtain ⟨hc, slot, total, -, -, ht⟩ := charged_of_declare h
  exact ⟨hc, slot, total, ht⟩

/-- Only a name that is bound already is refused. -/
theorem declare_eq_refused {d : Declaration τ} {e : Error}
    (h : s.declare mode slots d = .ok (.error e)) : s.contains d.name ∧ e = redeclaration d := by
  cases hc : s.contains d.name with
  | true =>
    rw [declare, if_pos hc] at h
    cases h
    exact ⟨rfl, rfl⟩
  | false =>
    rw [declare, if_neg (by simp [hc])] at h
    obtain ⟨p, -, h⟩ := Violation.bind_eq_ok_iff.mp h
    obtain ⟨u, -, h⟩ := Violation.bind_eq_ok_iff.mp h
    cases h

theorem charged_of_reserveInternal {ty : τ} {slot : SlotId}
    (h : s.reserveInternal mode slots ty = .ok (slot, t, given)) : ∃ total,
      mode.addSize s.size (Storable.storageSize ty) = .ok total ∧
      Allocator.reserve mode slots (Storable.storageSize ty) = .ok (slot, given) ∧
      t = { s with size := total } := by
  obtain ⟨u, hu, h⟩ := Violation.bind_eq_ok_iff.mp h
  obtain ⟨⟨slot', slots'⟩, hr, h⟩ := Violation.bind_eq_ok_iff.mp h
  obtain ⟨total, htotal, rfl⟩ := grow_eq_ok hu
  cases h
  exact ⟨total, htotal, hr, rfl⟩

theorem reserveInternal_eq_ok {ty : τ} {slot : SlotId}
    (h : s.reserveInternal mode slots ty = .ok (slot, t, given)) :
    ∃ size, t = { s with size := size } := by
  obtain ⟨total, -, -, ht⟩ := charged_of_reserveInternal h
  exact ⟨total, ht⟩

end

/-! ## Calls that move no level -/

section
variable {mode : Mode} {s t : Scope τ} {name : String} {c : Variable.Call}

/-- A call that is answered found its variable and changed it. -/
theorem call_eq_ok {r : Option (Variable.Reply τ)} (h : s.call mode name c = .ok (r, t)) :
    (s.find? name = none ∧ r = none ∧ t = s) ∨
      ∃ v w q, s.find? name = some v ∧ v.call mode c = .ok (q, w) ∧ r = some q ∧
        t = s.set name w := by
  cases hv : s.find? name with
  | none =>
    rw [call_of_find?_eq_none hv] at h
    cases h
    exact .inl ⟨rfl, rfl, rfl⟩
  | some v =>
    rw [call_of_find?_eq_some hv] at h
    cases hw : v.call mode c with
    | error e => rw [hw] at h; cases h
    | ok p =>
      rw [hw] at h
      cases h
      exact .inr ⟨v, p.2, p.1, rfl, hw, rfl, rfl⟩

/-- A call on a variable that has to be there is a call like any other if it is. -/
theorem call_of_demand {r : Variable.Reply τ} (h : s.demand mode name c = .ok (r, t)) :
    s.call mode name c = .ok (some r, t) := by
  obtain ⟨v, hv, h⟩ := Violation.bind_eq_ok_iff.mp h
  cases hf : s.find? name with
  | none => rw [lookup, hf] at hv; cases hv
  | some u =>
    rw [lookup, hf] at hv
    cases hv
    rw [call_of_find?_eq_some hf]
    cases hw : v.call mode c with
    | error e => rw [hw] at h; cases h
    | ok p => rw [hw] at h; cases h; rfl

/-- What a call that moves no level leaves alone. -/
structure Frame (s t : Scope τ) : Prop where
  identities : t.identities = s.identities
  depth : t.depth = s.depth
  size : t.size = s.size
  around (name : String) : t.around name = s.around name
  inStep : s.InStep → t.InStep

theorem Frame.refl (s : Scope τ) : Frame s s := ⟨rfl, rfl, rfl, fun _ ↦ rfl, id⟩

theorem Frame.trans {u : Scope τ} (h : Frame s t) (h' : Frame t u) : Frame s u :=
  ⟨h'.identities.trans h.identities, h'.depth.trans h.depth, h'.size.trans h.size,
    fun n ↦ (h'.around n).trans (h.around n), fun hs ↦ h'.inStep (h.inStep hs)⟩

theorem InStep.frame_set (hs : s.InStep) {v w : Variable τ} (hv : s.find? name = some v)
    (hi : w.identity = v.identity) (he : w.enclosing = v.enclosing) : Frame s (s.set name w) :=
  ⟨identities_set hs.nodup hv hi, rfl, rfl, hs.around_set hv hi he, fun _ ↦ hs.set hv hi he⟩

theorem InStep.frame_call (hs : s.InStep) (hc : c.movesLevel = false)
    {r : Option (Variable.Reply τ)} (h : s.call mode name c = .ok (r, t)) : Frame s t := by
  rcases call_eq_ok h with ⟨-, -, rfl⟩ | ⟨v, w, q, hv, hw, -, rfl⟩
  · exact .refl t
  · obtain ⟨hi, he⟩ := Variable.frame_call hc hw
    exact hs.frame_set hv hi he

end

end Scope

end DefiniteAssignment
