import DefiniteAssignment.Proofs.Scope.Restriction
import Mathlib.Data.List.Perm.Basic

/-!
# What joining learns

A join reads arms that were taken anywhere, at any time, and from any scope, and it changes
variables as it goes. What comes of it is told here for each variable by itself. A variable
that had no value before gets one if it is named in every arm, and the first arm says with which
order. Nothing else changes, and names that the scope does not bind are passed over.

So what is learned depends on nothing but which names stand in every arm. Neither the sequence
of the arms matters for it, nor how often one of them is given, nor the sequence within an arm.
More arms can only teach less, and what was known before is known afterwards.
-/

namespace DefiniteAssignment

variable {τ : Type}

/-! ## Arms together -/

namespace Arm

/-- The same arms in whatever sequence and however often, each with what it records in whatever
sequence. -/
def Rearranged (arms arms' : List Arm) : Prop :=
  (∀ a ∈ arms, ∃ b ∈ arms', b.entries.Perm a.entries) ∧
    ∀ b ∈ arms', ∃ a ∈ arms, a.entries.Perm b.entries

theorem Rearranged.symm {arms arms' : List Arm} (h : Rearranged arms arms') :
    Rearranged arms' arms := ⟨h.2, h.1⟩

theorem rearranged_of_perm {arms arms' : List Arm} (h : arms.Perm arms') :
    Rearranged arms arms' :=
  ⟨fun a ha ↦ ⟨a, h.mem_iff.mp ha, .refl a.entries⟩,
    fun b hb ↦ ⟨b, h.mem_iff.mpr hb, .refl b.entries⟩⟩

theorem knows_of_perm {a b : Arm} {name : String} (h : a.entries.Perm b.entries)
    (ha : a.knows name) : b.knows name :=
  knows_iff_mem_names.mpr ((h.map Prod.fst).mem_iff.mp (knows_iff_mem_names.mp ha))

/-- Arms know together what each of them knows. -/
theorem knows_meet {arms : List Arm} {name : String} :
    (meet arms).knows name ↔ arms ≠ [] ∧ ∀ a ∈ arms, a.knows name := by
  rw [knows, order?_meet]
  by_cases hne : arms = []
  · subst hne
    exact iff_of_false Bool.false_ne_true fun h ↦ h.1 rfl
  · rw [Level.isSome_meet _ (List.map_eq_nil_iff.not.mpr hne), List.all_map, List.all_eq_true]
    exact (and_iff_right hne).symm

theorem Rearranged.knows_meet {arms arms' : List Arm} {name : String}
    (h : Rearranged arms arms') (hk : (meet arms).knows name) : (meet arms').knows name := by
  obtain ⟨hne, hall⟩ := Arm.knows_meet.mp hk
  refine Arm.knows_meet.mpr ⟨?_, fun b hb ↦ ?_⟩
  · obtain ⟨a, ha⟩ := List.exists_mem_of_ne_nil arms hne
    obtain ⟨b, hb, -⟩ := h.1 a ha
    exact List.ne_nil_of_mem hb
  · obtain ⟨a, ha, hab⟩ := h.2 b hb
    exact knows_of_perm hab (hall a ha)

/-- What more arms know together, fewer of them know, as long as there are any. -/
theorem knows_meet_of_subset {arms arms' : List Arm} {name : String} (hne : arms ≠ [])
    (hsub : arms ⊆ arms') (hk : (meet arms').knows name) : (meet arms).knows name :=
  knows_meet.mpr ⟨hne, fun a ha ↦ (knows_meet.mp hk).2 a (hsub ha)⟩

end Arm

/-! ## One variable -/

namespace Variable

variable {v : Variable τ} {a : Arm}

theorem settle_of_order? {order : Order} (hv : v.initialized = false)
    (ha : a.order? v.name = some order) : v.settle a = v.define order := by
  rw [settle, hv, ha]
  rfl

theorem settle_of_knows_eq_false (ha : a.knows v.name = false) : v.settle a = v := by
  rw [Arm.knows, Option.isSome_eq_false_iff, Option.isNone_iff_eq_none] at ha
  rw [settle, ha, ite_self]

theorem initialized_settle (a : Arm) (v : Variable τ) :
    (v.settle a).initialized = (v.initialized || a.knows v.name) := by
  rw [initialized, current_settle, Level.isSome_fold]
  rfl

/-- An arm has nothing to add to what it said. -/
theorem settle_settle (a : Arm) (v : Variable τ) : (v.settle a).settle a = v.settle a := by
  cases ha : a.knows v.name with
  | true =>
    apply settle_of_initialized
    rw [initialized_settle, ha, Bool.or_true]
  | false => rw [settle_of_knows_eq_false ha, settle_of_knows_eq_false ha]

end Variable

/-! ## A scope -/

namespace Scope

/-- The names of the variables that have a value, in the order of their declarations. -/
def initializedNames (s : Scope τ) : List String :=
  (s.bindings.filter (·.initialized)).map (·.name)

theorem initializedNames_joinArms (arms : List Arm) (s : Scope τ) :
    (s.joinArms arms true).initializedNames =
      (s.bindings.filter fun v ↦ v.initialized || (Arm.meet arms).knows v.name).map (·.name) := by
  have hname (v : Variable τ) : (v.settle (.meet arms)).name = v.name :=
    Variable.name_eq_of_identity (v.identity_settle _)
  rw [initializedNames, joinArms_true, mapAll, List.filter_map, List.map_map]
  simp only [Function.comp_def, hname, Variable.initialized_settle]

theorem initializedNames_joinArms_sublist {arms arms' : List Arm} (exhaustive : Bool)
    (s : Scope τ) (h : ∀ name, (Arm.meet arms').knows name → (Arm.meet arms).knows name) :
    (s.joinArms arms' exhaustive).initializedNames.Sublist
      (s.joinArms arms exhaustive).initializedNames := by
  cases exhaustive with
  | false => exact .refl _
  | true =>
    rw [initializedNames_joinArms, initializedNames_joinArms]
    refine (List.monotone_filter_right _ fun v hv ↦ ?_).map _
    rcases Bool.or_eq_true_iff.mp hv with hv | hv
    · exact Bool.or_eq_true_iff.mpr (.inl hv)
    · exact Bool.or_eq_true_iff.mpr (.inr (h v.name hv))

/-- What is known before a join is known after it. -/
theorem initializedNames_sublist_joinArms (arms : List Arm) (exhaustive : Bool) (s : Scope τ) :
    s.initializedNames.Sublist (s.joinArms arms exhaustive).initializedNames := by
  have h : (s.joinArms [] exhaustive).initializedNames.Sublist
      (s.joinArms arms exhaustive).initializedNames :=
    s.initializedNames_joinArms_sublist exhaustive fun _ hk ↦
      absurd rfl (Arm.knows_meet.mp hk).1
  rwa [joinArms_nil] at h

theorem initializedNames_joinArms_rearranged {arms arms' : List Arm} (exhaustive : Bool)
    (s : Scope τ) (h : Arm.Rearranged arms arms') :
    (s.joinArms arms' exhaustive).initializedNames =
      (s.joinArms arms exhaustive).initializedNames :=
  List.Sublist.antisymm
    (s.initializedNames_joinArms_sublist exhaustive fun _ ↦ h.symm.knows_meet)
    (s.initializedNames_joinArms_sublist exhaustive fun _ ↦ h.knows_meet)

theorem joinArms_joinArms (arms : List Arm) (exhaustive : Bool) (s : Scope τ) :
    (s.joinArms arms exhaustive).joinArms arms exhaustive = s.joinArms arms exhaustive := by
  cases exhaustive with
  | false => rfl
  | true =>
    simp only [joinArms_true, mapAll, List.map_map, Function.comp_def, Variable.settle_settle]

/-- What arms say of names that are not bound makes no difference. -/
theorem joinArms_restrict_contains (arms : List Arm) (exhaustive : Bool) (s : Scope τ) :
    s.joinArms (arms.map (·.restrict s.contains)) exhaustive = s.joinArms arms exhaustive := by
  cases exhaustive with
  | false => rfl
  | true =>
    rw [joinArms_true, joinArms_true, mapAll, mapAll]
    congr 1
    refine List.map_congr_left fun v hv ↦ Variable.settle_congr ?_
    have hbound : s.contains v.name := mem_names_iff.mp (List.mem_map_of_mem hv)
    rw [Arm.order?_meet, Arm.order?_meet, List.map_map]
    congr 1
    exact List.map_congr_left fun a _ ↦ a.order?_restrict hbound

/-- A join changes the variables that have no value and are named in every arm, and gives each
of them the order of the first arm. -/
theorem forall₂_joinArms (s : Scope τ) (first : Arm) (rest : List Arm) :
    s.bindings.Forall₂ (fun v w ↦
      if v.initialized = false ∧ ∀ a ∈ first :: rest, v.name ∈ a.names then
        ∃ order, first.order? v.name = some order ∧ w = v.define order
      else w = v) (s.joinArms (first :: rest) true).bindings := by
  rw [joinArms_true, mapAll, List.forall₂_map_right_iff, List.forall₂_same]
  intro v _
  have hmeet : (Arm.meet (first :: rest)).knows v.name ↔
      ∀ a ∈ first :: rest, v.name ∈ a.names := by
    rw [Arm.knows_meet, and_iff_right (List.cons_ne_nil first rest)]
    exact forall₂_congr fun a _ ↦ Arm.knows_iff_mem_names
  split
  · next h =>
    obtain ⟨hv, hall⟩ := h
    obtain ⟨order, horder⟩ := Option.isSome_iff_exists.mp (hmeet.mpr hall)
    refine ⟨order, ?_, Variable.settle_of_order? hv horder⟩
    rw [Arm.order?_meet, List.map_cons, Level.meet] at horder
    split at horder
    · exact horder
    · cases horder
  · next h =>
    cases hv : v.initialized with
    | true => exact Variable.settle_of_initialized _ hv
    | false =>
      apply Variable.settle_of_knows_eq_false
      rw [Bool.eq_false_iff]
      exact fun hk ↦ h ⟨hv, hmeet.mp hk⟩

/-- Joining learns what all arms know, on every scope and from any arms. Where the arms are not
exhaustive, or there are none, the scope stays as it is. Else a variable is changed if it has no
value and every arm names it. It is then given the order that the first arm records, and notes it
as its first one if it has none. All other variables stay as they are, and so does whatever else
there is of this one: its levels around the current one, whether it was mutated, and its place.
What arms say of names that are not bound is passed over. To join twice is to join once. The same
names are initialized after arms that are rearranged, and among them those that were initialized
before. With more arms there are no others. -/
theorem joining_learns_what_all_arms_know (s : Scope τ) (arms : List Arm) (exhaustive : Bool) :
    let t := s.joinArms arms exhaustive
    (exhaustive = false ∨ arms = [] → t = s) ∧
    (∀ first rest, exhaustive = true → arms = first :: rest →
      t.size = s.size ∧ t.depth = s.depth ∧
      s.bindings.Forall₂ (fun v w ↦
        if v.initialized = false ∧ ∀ a ∈ arms, v.name ∈ a.names then
          ∃ order, first.order? v.name = some order ∧
            w = { v with current := some order, firstOrder := v.firstOrder.or (some order) }
        else w = v) t.bindings) ∧
    s.joinArms (arms.map (·.restrict s.contains)) exhaustive = t ∧
    t.joinArms arms exhaustive = t ∧
    s.initializedNames.Sublist t.initializedNames ∧
    (∀ arms', Arm.Rearranged arms arms' →
      (s.joinArms arms' exhaustive).initializedNames = t.initializedNames) ∧
    ∀ arms', arms ≠ [] → arms ⊆ arms' →
      (s.joinArms arms' exhaustive).initializedNames.Sublist t.initializedNames := by
  intro t
  refine ⟨?_, ?_, s.joinArms_restrict_contains arms exhaustive,
    s.joinArms_joinArms arms exhaustive, s.initializedNames_sublist_joinArms arms exhaustive,
    fun _ h ↦ s.initializedNames_joinArms_rearranged exhaustive h, ?_⟩
  · rintro (hexhaustive | harms)
    · exact (congrArg (s.joinArms arms) hexhaustive).trans (s.joinArms_false arms)
    · exact (congrArg (s.joinArms · exhaustive) harms).trans (s.joinArms_nil exhaustive)
  · rintro first rest rfl rfl
    exact ⟨rfl, rfl, s.forall₂_joinArms first rest⟩
  · intro arms' hne hsub
    exact s.initializedNames_joinArms_sublist exhaustive fun _ ↦
      Arm.knows_meet_of_subset hne hsub

/-- Two arms know of one variable that has a value and of one that has none, and of a name that
is not bound here. The second variable gets the order of the first arm, also where the arms are
given the other way round, one of them twice and with its names in another sequence. A third arm
that does not name it leaves it without a value. -/
theorem arms_joined_in_any_sequence :
    let d (name : String) : Declaration Layout := ⟨name, ⟨1, false⟩, false, default⟩
    let v (name : String) : Variable Layout := .fresh (d name) ⟨0⟩ false 1
    let s : Scope Layout := ⟨[(v "x").define 1, v "y"], 2, 1⟩
    let a : Arm := ⟨[("x", 2), ("y", 3), ("z", 4)]⟩
    let b : Arm := ⟨[("z", 5), ("y", 6), ("x", 7)]⟩
    let b' : Arm := ⟨[("x", 7), ("y", 6), ("z", 5)]⟩
    let t := s.joinArms [a, b] true
    t.bindings = [(v "x").define 1, (v "y").define 3] ∧
      s.joinArms ([a, b].map (·.restrict s.contains)) true = t ∧
      (s.joinArms [b', a, b'] true).initializedNames = ["x", "y"] ∧
      (s.joinArms [b, .empty, a] true).initializedNames.Sublist t.initializedNames := by
  intro d v s a b b' t
  have hperm : b'.entries.Perm b.entries := List.reverse_perm b.entries
  have hrearranged : Arm.Rearranged [a, b] [b', a, b'] := by
    constructor
    · intro c hc
      rcases List.mem_pair.mp hc with rfl | rfl
      · exact ⟨a, by simp, .refl _⟩
      · exact ⟨b', by simp, hperm⟩
    · intro c hc
      simp only [List.mem_cons, List.not_mem_nil, or_false] at hc
      rcases hc with rfl | rfl | rfl
      · exact ⟨b, by simp, hperm.symm⟩
      · exact ⟨a, by simp, .refl _⟩
      · exact ⟨b, by simp, hperm.symm⟩
  obtain ⟨-, -, hbound, -, -, hnames, hmore⟩ :=
    joining_learns_what_all_arms_know s [a, b] true
  refine ⟨by decide, hbound, ?_, hmore _ (List.cons_ne_nil a [b]) (by simp)⟩
  exact (hnames _ hrearranged).trans (by decide)

end Scope

end DefiniteAssignment
