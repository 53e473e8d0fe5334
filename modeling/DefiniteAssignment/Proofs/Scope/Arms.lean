import DefiniteAssignment.Proofs.Lists
import DefiniteAssignment.Proofs.Scope.View

/-!
# Arms of a scope

An arm that ends in a scope in step says of each name what the scope knows of it, and
joining arms folds their meet into every bound name. Arms are therefore no more than
levels, taken name by name: the meet of arms is the meet of what they say.
-/

namespace DefiniteAssignment

variable {τ : Type}

namespace Arm

/-- What arms know of a name together is the meet of what each of them knows. -/
theorem order?_meet (arms : List Arm) (name : String) :
    (meet arms).order? name = Level.meet (arms.map (·.order? name)) := by
  cases arms with
  | nil => rfl
  | cons first rest =>
    rw [order?, meet, lookup_filter_key fun key ↦ rest.all (·.knows key)]
    simp only [List.map_cons, Level.meet, List.all_map, order?, knows, Function.comp_def]
    rfl

end Arm

namespace Scope

theorem lookup_levels {vs : List (Variable τ)} (h : (vs.map (·.name)).Nodup) (name : String) :
    (vs.filterMap fun v ↦ v.current.map (v.name, ·)).lookup name =
      (vs.find? fun v ↦ v.name = name).elim none Variable.current := by
  induction vs with
  | nil => rfl
  | cons v vs ih =>
    rw [List.map_cons, List.nodup_cons] at h
    have hvs := ih h.2
    by_cases hn : v.name = name
    · subst hn
      cases hc : v.current with
      | some o => simp [hc]
      | none =>
        -- No later binding has the name, so nothing else can be found for it.
        have hnone : (vs.find? fun w ↦ w.name = v.name) = none := by
          rw [List.find?_eq_none]
          intro w hw he
          exact h.1 (List.mem_map.mpr ⟨w, hw, of_decide_eq_true he⟩)
        rw [hnone] at hvs
        simpa [hc] using hvs
    · have hne : (name == v.name) = false := beq_eq_false_iff_ne.mpr (Ne.symm hn)
      cases hc : v.current with
      | some o => simpa [hc, hn, List.lookup_cons, hne] using hvs
      | none => simpa [hc, hn] using hvs

/-- An arm says of a name what is known of it. -/
theorem order?_knowledge {s : Scope τ} (hs : s.names.Nodup) (name : String) :
    s.knowledge.order? name = s.current name := by
  rw [knowledge, Arm.ofLevels, List.filterMap_map, Arm.order?]
  exact lookup_levels hs name

theorem InStep.order?_knowledge {s : Scope τ} (hs : s.InStep) (name : String) :
    s.knowledge.order? name = s.current name := Scope.order?_knowledge hs.nodup name

theorem InStep.knows_knowledge {s : Scope τ} (hs : s.InStep) {name : String} :
    s.knowledge.knows name ↔ (s.current name).isSome := by
  rw [Arm.knows, hs.order?_knowledge]

theorem InStep.takeArm {s : Scope τ} {mode : Mode} (hs : s.InStep) (hd : s.depth ≠ 0) :
    s.takeArm mode = .ok (s.knowledge, s.shed) := by
  rw [takeArm_eq_stop, hs.popBreach?_eq_none hd, Mode.stop_none, lastArm, if_neg hd]

/-! ## Joining -/

section
variable (arms : List Arm) (exhaustive : Bool) (s : Scope τ) (name : String)

theorem joinArms_true : s.joinArms arms true = s.mapAll (.settle (.meet arms)) s.depth := rfl

@[simp] theorem identities_joinArms : (s.joinArms arms exhaustive).identities = s.identities := by
  cases exhaustive with
  | false => rfl
  | true => exact identities_mapAll fun v _ ↦ v.identity_settle _

@[simp] theorem around_joinArms : (s.joinArms arms exhaustive).around name = s.around name := by
  cases exhaustive with
  | false => rfl
  | true =>
    rw [joinArms_true, around_mapAll fun v _ ↦ v.identity_settle _]
    simp only [Variable.enclosing_settle]
    rfl

theorem current_joinArms_of_mem (h : name ∈ s.names) :
    (s.joinArms arms true).current name =
      Level.fold (s.current name) (Level.meet (arms.map (·.order? name))) := by
  rw [joinArms_true, current_mapAll fun v _ ↦ v.identity_settle _, ← Arm.order?_meet]
  cases hf : s.find? name with
  | none => exact absurd h (find?_eq_none_iff.mp hf)
  | some v =>
    rw [Option.elim_some, Variable.current_settle, current_of_find? hf, name_of_find? hf]

variable {arms s name}

/-- After arms of which one is run, a name has a value if it had one before them or has one
after each of them. Names that the scope does not bind are not given any. -/
theorem isSome_current_joinArms (hne : arms ≠ [])
    (h : ∀ a ∈ arms, a.knows name → name ∈ s.names) :
    ((s.joinArms arms true).current name).isSome ↔
      (s.current name).isSome ∨ ∀ a ∈ arms, a.knows name := by
  by_cases hn : name ∈ s.names
  · rw [current_joinArms_of_mem _ _ _ hn, Level.isSome_fold, Bool.or_eq_true,
      Level.isSome_meet _ (by simpa using hne), List.all_map, List.all_eq_true]
    rfl
  · have hj : name ∉ (s.joinArms arms true).names := by
      rwa [names_congr (identities_joinArms arms true s)]
    rw [current_of_notMem hn, current_of_notMem hj]
    obtain ⟨a, ha⟩ := List.exists_mem_of_ne_nil arms hne
    refine iff_of_false Bool.false_ne_true ?_
    rintro (hs | hall)
    · cases hs
    · exact hn (h a ha (hall a ha))

end

theorem InStep.joinArms {s : Scope τ} (hs : s.InStep) (arms : List Arm) (exhaustive : Bool) :
    (s.joinArms arms exhaustive).InStep := by
  cases exhaustive with
  | false => exact hs
  | true =>
    refine hs.mapAll (fun v _ ↦ v.identity_settle _) fun v hv ↦ ?_
    rw [Variable.enclosing_settle]
    exact hs.length_enclosing v hv

end Scope

end DefiniteAssignment
