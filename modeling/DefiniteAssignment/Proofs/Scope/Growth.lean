import DefiniteAssignment.Proofs.Scope.Reached

/-!
# Scopes that grow

An analysis goes on from a scope without losing anything that was declared in it, and
without touching the levels around the current one. That is what a region or an arm has to
keep for its level to be popped again as it was pushed: leaving it gives the scope back
that was there before, grown, with one level changed at most. Where nothing is declared
either, the scope has only been worked on, and its bindings are the same ones.
-/

namespace DefiniteAssignment.Scope

variable {τ : Type}

/-- What an analysis keeps of a scope on its way from `s` to `t`. -/
structure Grows (s t : Scope τ) : Prop where
  identities : s.identities <+: t.identities
  depth : t.depth = s.depth
  around (name : String) : t.around name = s.around name
  inStep : s.InStep → t.InStep

section
variable {s t u : Scope τ}

theorem Grows.refl (s : Scope τ) : Grows s s := ⟨List.prefix_rfl, rfl, fun _ ↦ rfl, id⟩

theorem Grows.trans (h : Grows s t) (h' : Grows t u) : Grows s u :=
  ⟨h.identities.trans h'.identities, h'.depth.trans h.depth,
    fun n ↦ (h'.around n).trans (h.around n), fun hs ↦ h'.inStep (h.inStep hs)⟩

theorem Frame.grows (h : Frame s t) : Grows s t :=
  ⟨h.identities ▸ List.prefix_rfl, h.depth, h.around, h.inStep⟩

theorem map_identity_find? (s : Scope τ) (name : String) :
    (s.find? name).map Variable.identity = s.identities.find? fun i ↦ i.1.name = name := by
  simp only [find?, identities, List.find?_map]
  rfl

/-- A binding is still what its name means where other bindings have been added. -/
theorem exists_find?_of_prefix (h : s.identities <+: t.identities) {name : String}
    {v : Variable τ} (hv : s.find? name = some v) :
    ∃ w, t.find? name = some w ∧ w.identity = v.identity := by
  have he : (t.find? name).map Variable.identity = some v.identity := by
    rw [map_identity_find?]
    refine List.IsPrefix.find?_eq_some h ?_
    rw [← map_identity_find?, hv]
    rfl
  obtain ⟨w, hw, hi⟩ := Option.map_eq_some_iff.mp he
  exact ⟨w, hw, hi⟩

theorem exists_find?_of_identities (h : t.identities = s.identities) {name : String}
    {v : Variable τ} (hv : s.find? name = some v) :
    ∃ w, t.find? name = some w ∧ w.identity = v.identity :=
  exists_find?_of_prefix (h ▸ List.prefix_rfl) hv

/-! ## Leaving a region or an arm -/

theorem Grows.depth_ne_zero (h : Grows s.pushLevel t) : t.depth ≠ 0 := by
  rw [h.depth, depth_pushLevel]
  exact Nat.succ_ne_zero s.depth

theorem Grows.around_eq_cons (h : Grows s.pushLevel t) (name : String) :
    t.around name = s.current name :: s.around name := by
  rw [h.around, around_pushLevel]

theorem Grows.current_folded (h : Grows s.pushLevel t) (name : String) :
    t.folded.current name = Level.fold (s.current name) (t.current name) :=
  (view_folded h.depth_ne_zero (h.around_eq_cons name)).1

/-- An arm leaves no trace on what was known before it. -/
theorem Grows.current_shed (h : Grows s.pushLevel t) (name : String) :
    t.shed.current name = s.current name :=
  (view_shed h.depth_ne_zero (h.around_eq_cons name)).1

theorem Grows.folded (h : Grows s.pushLevel t) : Grows s t.folded where
  identities := by
    rw [identities_folded, ← identities_pushLevel]
    exact h.identities
  depth := by rw [depth_folded, h.depth, depth_pushLevel, Nat.add_sub_cancel]
  around name := (view_folded h.depth_ne_zero (h.around_eq_cons name)).2
  inStep hs := (h.inStep hs.pushLevel).folded

theorem Grows.shed (h : Grows s.pushLevel t) : Grows s t.shed where
  identities := by
    rw [identities_shed, ← identities_pushLevel]
    exact h.identities
  depth := by rw [depth_shed, h.depth, depth_pushLevel, Nat.add_sub_cancel]
  around name := (view_shed h.depth_ne_zero (h.around_eq_cons name)).2
  inStep hs := (h.inStep hs.pushLevel).shed

theorem Frame.folded (h : Frame s.pushLevel t) : Frame s t.folded where
  identities := by rw [identities_folded, h.identities, identities_pushLevel]
  depth := h.grows.folded.depth
  size := by rw [size_folded, h.size, size_pushLevel]
  around := h.grows.folded.around
  inStep := h.grows.folded.inStep

theorem Frame.shed (h : Frame s.pushLevel t) : Frame s t.shed where
  identities := by rw [identities_shed, h.identities, identities_pushLevel]
  depth := h.grows.shed.depth
  size := by rw [size_shed, h.size, size_pushLevel]
  around := h.grows.shed.around
  inStep := h.grows.shed.inStep

end

theorem frame_joinArms (arms : List Arm) (exhaustive : Bool) (s : Scope τ) :
    Frame s (s.joinArms arms exhaustive) :=
  ⟨identities_joinArms arms exhaustive s, depth_joinArms arms exhaustive s,
    size_joinArms arms exhaustive s, around_joinArms arms exhaustive s,
    fun hs ↦ hs.joinArms arms exhaustive⟩

/-! ## Declaring -/

section
variable {s t : Scope τ} {d : Declaration τ} {slot : SlotId} {inherited : Bool}

/-- A declaration that is accepted adds a binding. -/
theorem grows_bind (h : s.contains d.name = false) : Grows s (s.bind d slot inherited) where
  identities := by
    rw [identities_bind]
    exact List.prefix_append _ _
  depth := rfl
  around := around_bind slot inherited
  inStep hs := hs.bind slot inherited h

theorem grows_resize (s : Scope τ) (size : UInt64) : Grows s { s with size := size } :=
  ⟨List.prefix_rfl, rfl, fun _ ↦ rfl, fun hs ↦ hs.resize size⟩

theorem grows_declareAt (h : s.declareAt d slot inherited = .ok t) :
    Grows s t ∧ ∀ name, t.current name = s.current name := by
  obtain ⟨hc, rfl⟩ := declareAt_eq_ok h
  exact ⟨grows_bind hc, current_bind slot inherited⟩

theorem grows_declare {mode : Mode} {α : Type} [Storable τ] [Allocator α] {slots given : α}
    (h : s.declare mode slots d = .ok (.ok (t, given))) :
    Grows s t ∧ ∀ name, t.current name = s.current name := by
  obtain ⟨hc, slot, size, rfl⟩ := declare_eq_ok h
  refine ⟨(grows_resize s size).trans (grows_bind hc), fun name ↦ ?_⟩
  rw [current_bind]
  rfl

end

end DefiniteAssignment.Scope
