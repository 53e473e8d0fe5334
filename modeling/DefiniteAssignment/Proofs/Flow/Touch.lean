import DefiniteAssignment.Flow.Touch
import DefiniteAssignment.Proofs.Flow.Induction
import DefiniteAssignment.Proofs.Scope.Growth
import Mathlib.Data.List.Forall2

/-!
# What a flow means for one variable

A flow that touches the variables of a scope works on stacks of levels, and on arms that
hold what is known of all variables at once. `Flow.level` knows nothing of either: it
takes one level of one variable to another. The main statement is that the two agree.
Walking through a flow changes of each variable its current level alone, and changes it
as `Flow.level` says.

The induction is on the flow, for every scope in step. A region and an arm are walked
from a scope with one more level pushed, so what it keeps is that the levels around the
current one are left alone: then the region can be folded into them, and the arms leave
the scope as they found it.
-/

namespace DefiniteAssignment

variable {τ : Type}

/-! ## One touch -/

namespace Touch

variable {mode : Mode} {s : Scope τ}

/-- A call that moves no level goes through, and where it is made on a bound name it
makes of the level of that name what it makes of the level of a variable. -/
theorem exists_call {c : Variable.Call} {g : Bool → Level → Level} (mode : Mode)
    (hs : s.InStep) (name : String) (hc : c.movesLevel = false)
    (hg : ∀ v q w, (v : Variable τ).call mode c = .ok (q, w) → w.current = g v.frozen v.current) :
    ∃ u, (s.call mode name c).map Prod.snd = .ok u ∧ s.Frame u ∧
      ∀ n v, s.find? n = some v →
        u.current n = if name = n then g v.frozen (s.current n) else s.current n := by
  cases hv : s.find? name with
  | none =>
    refine ⟨s, by rw [Scope.call_of_find?_eq_none hv]; rfl, .refl s, fun n v h ↦ ?_⟩
    have hn : name ≠ n := by
      rintro rfl
      rw [hv] at h
      cases h
    rw [if_neg hn]
  | some v =>
    obtain ⟨⟨q, w⟩, hw⟩ := v.exists_call_of_movesLevel_eq_false mode hc
    obtain ⟨hi, he⟩ := Variable.frame_call hc hw
    refine ⟨s.set name w, ?_, hs.frame_set hv hi he, fun n u hu ↦ ?_⟩
    · rw [Scope.call_of_find?_eq_some hv, hw]
      rfl
    · rw [hs.current_set hv hi]
      by_cases hn : name = n
      · subst hn
        rw [hv] at hu
        cases hu
        rw [if_pos rfl, if_pos rfl, hg v q w hw, Scope.current_of_find? hv]
      · rw [if_neg hn, if_neg (Ne.symm hn)]

/-- A touch is a step at the current level, and means for a variable what it says. -/
theorem exists_perform (t : Touch) (hs : s.InStep) :
    ∃ u, t.perform mode s = .ok u ∧ s.Frame u ∧
      ∀ name v, s.find? name = some v →
        u.current name = t.level name v.frozen (s.current name) := by
  cases t with
  | define name order =>
    exact exists_call (g := fun _ _ ↦ some order) mode hs name rfl fun v q w h ↦ by cases h; rfl
  | assign name order span =>
    exact exists_call (g := fun frozen l ↦ if frozen && l.isSome then l else some order) mode hs
      name rfl fun v q w h ↦ Variable.current_assign h
  | undefine name =>
    exact exists_call (g := fun _ _ ↦ none) mode hs name rfl fun v q w h ↦ by cases h; rfl
  | setAll initial =>
    refine ⟨s.setAll initial, rfl, hs.frame_setAll initial, fun n v hv ↦ ?_⟩
    have hn : n ∈ s.names := Scope.mem_names_iff.mpr (by rw [Scope.contains, hv]; rfl)
    rw [Scope.current_setAll_of_mem initial hn, level]

end Touch

namespace Flow

open Scope

variable {mode : Mode}

/-! ## A whole flow -/

/-- A flow can be walked from every scope in step, changes its current levels alone, and
means for each of its variables what it says. -/
def Refines (τ : Type) (mode : Mode) (f : Flow Touch) : Prop :=
  ∀ s : Scope τ, s.InStep → ∃ t, f.walk mode (Touch.perform mode) s = .ok t ∧ s.Frame t ∧
    ∀ name v, s.find? name = some v → t.current name = f.level name v.frozen (s.current name)

theorem refines_seq {first second : Flow Touch} (h₁ : Refines τ mode first)
    (h₂ : Refines τ mode second) : Refines τ mode (.seq first second) := by
  intro s hs
  obtain ⟨t, ht, hf, hc⟩ := h₁ s hs
  obtain ⟨u, hu, hf', hc'⟩ := h₂ t (hf.inStep hs)
  refine ⟨u, ?_, hf.trans hf', fun name v hv ↦ ?_⟩
  · rw [walk, ht, Violation.ok_bind, hu]
  · obtain ⟨w, hw, hi⟩ := exists_find?_of_identities hf.identities hv
    rw [hc' name w hw, hc name v hv, Variable.frozen_eq_of_identity hi, level]

/-- A part that is entered with one more level knows as much of each name, and is asked
about the same bindings. -/
theorem Refines.walk_pushLevel {f : Flow Touch} (h : Refines τ mode f) {s : Scope τ}
    (hs : s.InStep) : ∃ t, f.walk mode (Touch.perform mode) s.pushLevel = .ok t ∧
      s.pushLevel.Frame t ∧ t.InStep ∧
      ∀ name v, s.find? name = some v →
        t.current name = f.level name v.frozen (s.current name) := by
  obtain ⟨t, ht, hf, hc⟩ := h s.pushLevel hs.pushLevel
  refine ⟨t, ht, hf, hf.inStep hs.pushLevel, fun name v hv ↦ ?_⟩
  obtain ⟨w, hw, hi⟩ := exists_find?_of_identities s.identities_pushLevel hv
  rw [hc name w hw, Variable.frozen_eq_of_identity hi, current_pushLevel]

/-- A region is folded into a level that was left alone, so what was known stays and what
was learned is added. -/
theorem refines_region {body : Flow Touch} (h : Refines τ mode body) :
    Refines τ mode (.region body) := by
  intro s hs
  obtain ⟨t, ht, hf, hst, hc⟩ := h.walk_pushLevel hs
  refine ⟨t.folded, ?_, hf.folded, fun name v hv ↦ ?_⟩
  · exact walk_region_of_ok ht (hst.foldLevel hf.grows.depth_ne_zero)
  · rw [hf.grows.current_folded, hc name v hv]
    cases s.current name with
    | none => rw [Level.fold_none, level]
    | some order => rw [Level.fold_some, level]

/-- Arms are walked one after the other, but each from the scope as it was before all of
them, and each says what it means for the variables. -/
theorem exists_walkArms {arms : List (Flow Touch)} (h : ∀ arm ∈ arms, Refines τ mode arm)
    {s : Scope τ} (hs : s.InStep) :
    ∃ taken t, walkArms mode (Touch.perform mode) arms s = .ok (taken, t) ∧ s.Frame t ∧
      (∀ name, t.current name = s.current name) ∧
      ∀ name v, s.find? name = some v →
        taken.map (·.order? name) =
          arms.map fun arm ↦ arm.level name v.frozen (s.current name) := by
  induction arms generalizing s with
  | nil => exact ⟨[], s, rfl, .refl s, fun _ ↦ rfl, fun _ _ _ ↦ rfl⟩
  | cons arm arms ih =>
    obtain ⟨t, ht, hf, hst, hc⟩ := (h arm List.mem_cons_self).walk_pushLevel hs
    obtain ⟨taken, u, hu, hf', hcu, hl⟩ :=
      ih (fun a ha ↦ h a (List.mem_cons_of_mem arm ha)) hst.shed
    refine ⟨t.knowledge :: taken, u, ?_, hf.shed.trans hf', fun name ↦ ?_, fun name v hv ↦ ?_⟩
    · exact walkArms_cons_of_ok ht (hst.takeArm hf.grows.depth_ne_zero) hu
    · rw [hcu, hf.grows.current_shed]
    · obtain ⟨w, hw, hi⟩ := exists_find?_of_identities hf.shed.identities hv
      rw [List.map_cons, List.map_cons, hst.order?_knowledge, hc name v hv, hl name w hw,
        Variable.frozen_eq_of_identity hi, hf.grows.current_shed]

/-- What arms know together is news only of a variable of which nothing was known. -/
theorem refines_branch {arms : List (Flow Touch)} {exhaustive : Bool}
    (h : ∀ arm ∈ arms, Refines τ mode arm) : Refines τ mode (.branch arms exhaustive) := by
  intro s hs
  obtain ⟨taken, t, ht, hf, hcu, hl⟩ := exists_walkArms h hs
  refine ⟨t.joinArms taken exhaustive, ?_, hf.trans (frame_joinArms taken exhaustive t), ?_⟩
  · rw [walk, ht]
    rfl
  · intro name v hv
    cases exhaustive with
    | false =>
      rw [joinArms_false, hcu]
      cases s.current name <;> rfl
    | true =>
      have hn : name ∈ t.names := by
        rw [names_congr hf.identities]
        exact mem_names_iff.mpr (by rw [contains, hv]; rfl)
      rw [current_joinArms_of_mem _ _ _ hn, hcu, hl name v hv]
      cases s.current name with
      | some order => rw [Level.fold_some, level]
      | none => rw [Level.fold_none, level, if_pos rfl, armLevels_eq_map]

/-- Every flow of touches means for each variable what `Flow.level` makes of it. -/
theorem refines (f : Flow Touch) : Refines τ mode f := by
  induction f with
  | skip => exact fun s _ ↦ ⟨s, rfl, .refl s, fun _ _ _ ↦ rfl⟩
  | act t => exact fun s hs ↦ t.exists_perform hs
  | seq first second ih₁ ih₂ => exact refines_seq ih₁ ih₂
  | region body ih => exact refines_region ih
  | branch arms exhaustive ih => exact refines_branch ih

/-! ## All variables of a scope -/

/-- Where the identities are the same, bindings stand side by side. -/
theorem forall₂_identity {s t : Scope τ} (h : t.identities = s.identities) :
    List.Forall₂ (fun v w ↦ w.identity = v.identity) s.bindings t.bindings := by
  have he : List.Forall₂ Eq (t.bindings.map Variable.identity) (s.bindings.map Variable.identity) :=
    List.forall₂_eq_eq_eq ▸ h
  rw [List.forall₂_map_left_iff, List.forall₂_map_right_iff] at he
  exact he.flip

/-- Walking through a flow from a scope that came about without moving the levels of a
single variable leaves its depth, its size and its bindings in their order as they were.
Of each variable it changes the current level alone, and makes of it what `Flow.level`
makes of it. -/
theorem walk_refines_level [Storable τ] {s : Scope τ} (hs : s.Reached mode) (f : Flow Touch) :
    ∃ t, f.walk mode (Touch.perform mode) s = .ok t ∧ t.depth = s.depth ∧ t.size = s.size ∧
      List.Forall₂ (fun v w ↦ w.identity = v.identity ∧ w.enclosing = v.enclosing ∧
        w.current = f.level v.name v.frozen v.current) s.bindings t.bindings := by
  obtain ⟨t, ht, hf, hc⟩ := refines f s hs.inStep
  obtain ⟨hlen, hid⟩ := List.forall₂_iff_zip.mp (forall₂_identity hf.identities)
  refine ⟨t, ht, hf.depth, hf.size, List.forall₂_iff_zip.mpr ⟨hlen, fun {v w} hvw ↦ ?_⟩⟩
  obtain ⟨hv, hw⟩ := List.of_mem_zip hvw
  have hn : w.name = v.name := Variable.name_eq_of_identity (hid hvw)
  have hsv : s.find? v.name = some v := hs.inStep.find?_of_mem hv
  have htw : t.find? v.name = some w := by
    rw [← hn]
    exact (hf.inStep hs.inStep).find?_of_mem hw
  refine ⟨hid hvw, ?_, ?_⟩
  · rw [← around_of_find? htw, hf.around, around_of_find? hsv]
  · rw [← current_of_find? htw, hc v.name v hsv, current_of_find? hsv]

/-- A frozen variable that each of two arms gives a value keeps the order of the first,
and then refuses another. -/
theorem walk_refines_level_of_two_arms :
    ((opened 1).bind ⟨"x", ⟨8, false⟩, true, default⟩ ⟨0⟩ false : Scope Layout).Reached .strict ∧
      ∃ t, (Flow.seq (.branch [.act (.assign "x" 1 default), .act (.assign "x" 2 default)] true)
          (.act (.assign "x" 3 default))).walk .strict (Touch.perform .strict)
          ((opened 1).bind ⟨"x", ⟨8, false⟩, true, default⟩ ⟨0⟩ false : Scope Layout) = .ok t ∧
        t.depth = 1 ∧ t.size = 0 ∧ t.bindings.map (·.levels) = [[none, some 1]] := by
  have hs : ((opened 1).bind ⟨"x", ⟨8, false⟩, true, default⟩ ⟨0⟩ false :
      Scope Layout).Reached .strict := by
    have hstep : (⟨.opened 1, {}, .empty, .empty⟩ : Session Layout SlotCounter Log).step .strict
        (.declareAt ⟨"x", ⟨8, false⟩, true, default⟩ ⟨0⟩ false) = .ok (.done,
          ⟨(opened 1).bind ⟨"x", ⟨8, false⟩, true, default⟩ ⟨0⟩ false, {}, .empty, .empty⟩) := rfl
    exact .step (.opened 1) rfl hstep
  obtain ⟨t, ht, hd, hz, hl⟩ := walk_refines_level hs
    (.seq (.branch [.act (.assign "x" 1 default), .act (.assign "x" 2 default)] true)
      (.act (.assign "x" 3 default)))
  refine ⟨hs, t, ht, hd, hz, ?_⟩
  obtain ⟨w, ws, ⟨-, he, hc⟩, hnil, hw⟩ := List.forall₂_cons_left_iff.mp hl
  rw [List.forall₂_nil_left_iff.mp hnil] at hw
  rw [hw, List.map_singleton, Variable.levels, he, hc]
  rfl

end Flow

end DefiniteAssignment
