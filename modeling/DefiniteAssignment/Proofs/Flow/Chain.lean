import DefiniteAssignment.Proofs.Flow.Effect

/-!
# Else-if chains

A chain of arms may be walked through as one branch, or as branches of two arms each, where the
second arm holds the rest of the chain. Both leave the same scope, with the same orders, first
orders and mutations. For one variable this is a matter of meets: the meet of the first arm with
the meet of the rest is the meet of all. A branch inside of the chain adds what was known before
the chain to its meet, and the branch around it adds the same once more, so that nothing is lost
or won by joining in between.
-/

namespace DefiniteAssignment

variable {τ : Type}

namespace Level

/-- A meet may be taken in two steps. -/
theorem meet_pair_meet (l : Level) {ls : List Level} (h : ls ≠ []) :
    meet [l, meet ls] = meet (l :: ls) := by
  have hpair : meet [l, meet ls] = if (meet ls).isSome then l else none := by
    rw [meet, List.all_cons, List.all_nil, Bool.and_true]
  rw [hpair, isSome_meet ls h]
  rfl

/-- What was known before is known after a meet that already holds it. -/
theorem fold_meet_pair (before l : Level) {ls : List Level} (h : ls ≠ []) :
    fold before (meet [l, fold before (meet ls)]) = fold before (meet (l :: ls)) := by
  cases before with
  | some order => rfl
  | none => rw [fold_none, fold_none, fold_none, meet_pair_meet l h]

/-- Nothing is learned from arms of which one knows no more than was known before. -/
theorem fold_meet_self (before l : Level) : fold before (meet [l, before]) = before := by
  cases before with
  | some order => rfl
  | none => simp [meet]

end Level

namespace Flow

theorem armEffects_fst_ne_nil {arms : List (Flow Touch)} (h : arms ≠ []) (v : Variable τ) :
    (armEffects arms v).1 ≠ [] := by
  cases arms with
  | nil => exact absurd rfl h
  | cons arm arms => exact List.cons_ne_nil _ _

theorem current_armEffects (arms : List (Flow Touch)) (v : Variable τ) :
    (armEffects arms v).2.current = v.current :=
  (follows_armEffects arms (fun arm _ ↦ follows_effect arm) v).2.1

/-- A branch of two arms whose second is a branch itself makes of a variable what one branch
makes of it. -/
theorem effect_branch_branch (arm : Flow Touch) {arms : List (Flow Touch)} (h : arms ≠ [])
    (exhaustive : Bool) (v : Variable τ) :
    (branch [arm, branch arms exhaustive] true).effect v =
      (branch (arm :: arms) exhaustive).effect v := by
  cases exhaustive with
  | true =>
    simp only [effect, armEffects, if_true, Variable.current_knowing, Variable.knowing_knowing,
      Level.fold_meet_pair _ _ (armEffects_fst_ne_nil h _)]
  | false =>
    have hcurrent : (armEffects arms ((arm.effect v).knowing v.current)).2.current = v.current :=
      current_armEffects arms _
    simp only [effect, armEffects, if_true, Bool.false_eq_true, if_false, Variable.current_knowing,
      Variable.knowing_knowing, hcurrent, Level.fold_meet_self]
    exact Variable.knowing_of_current hcurrent

/-- The second arm of a branch may be put in other words. -/
theorem effect_branch_congr (arm : Flow Touch) {rest rest' : Flow Touch}
    (h : ∀ v : Variable τ, rest.effect v = rest'.effect v) (v : Variable τ) :
    (branch [arm, rest] true).effect v = (branch [arm, rest'] true).effect v := by
  simp only [effect, armEffects, h]

theorem effect_nest (arms : List (Flow Touch)) (exhaustive : Bool) (v : Variable τ) :
    (nest arms exhaustive).effect v = (branch arms exhaustive).effect v := by
  induction arms generalizing v with
  | nil => rfl
  | cons arm arms ih =>
    cases arms with
    | nil => rfl
    | cons next arms =>
      have hnest : nest (arm :: next :: arms) exhaustive =
          branch [arm, nest (next :: arms) exhaustive] true := rfl
      rw [hnest, effect_branch_congr arm ih,
        effect_branch_branch arm (List.cons_ne_nil next arms)]

variable [Storable τ] {mode : Mode} {s : Scope τ}

/-- A chain of arms may be walked through flat or nested. On a scope that came about without
moving the levels of a single variable, both walks go through, and end in the same scope. -/
theorem walk_nest_eq_walk_branch (hs : s.Reached mode) (arms : List (Flow Touch))
    (exhaustive : Bool) :
    ∃ t, (branch arms exhaustive).walk mode (Touch.perform mode) s = .ok t ∧
      (nest arms exhaustive).walk mode (Touch.perform mode) s = .ok t := by
  refine ⟨_, walk_eq_mapAll _ hs.steady, ?_⟩
  rw [walk_eq_mapAll _ hs.steady, Scope.mapAll_congr fun v _ ↦ effect_nest arms exhaustive v]

/-- Three arms of which the first knows no value of `y`, and the second gives the frozen `x`
its value inside a branch of its own. That `y` had a value before them is not forgotten. -/
theorem chain_of_three_arms_nested :
    let d (name : String) (frozen : Bool) : Declaration Layout :=
      ⟨name, ⟨1, false⟩, frozen, default⟩
    let s : Scope Layout := ⟨[.fresh (d "x" true) ⟨0⟩ false 0,
      (Variable.fresh (d "y" false) ⟨1⟩ false 0).define 1], 2, 0⟩
    let arms : List (Flow Touch) :=
      [.seq (.act (.undefine "y")) (.act (.assign "x" 2 default)),
        .branch [.act (.define "x" 3), .seq (.act (.assign "y" 4 default)) (.act (.setAll true))]
          true,
        .region (.act (.assign "x" 5 default))]
    s.Reached .strict ∧ ∃ t, (branch arms true).walk .strict (Touch.perform .strict) s = .ok t ∧
      (nest arms true).walk .strict (Touch.perform .strict) s = .ok t ∧
      t.bindings.map (fun v ↦ (v.name, v.levels, v.firstOrder, v.mutated)) =
        [("x", [some 2], some 2, false), ("y", [some 1], some 1, true)] := by
  intro d s arms
  have hs : s.Reached .strict := by
    let start : Scope.Session Layout SlotCounter Log := ⟨.opened 0, {}, .empty, .empty⟩
    obtain ⟨rs, y, hrun, hy⟩ : ∃ rs y, start.run .strict [.declare (d "x" true),
        .declare (d "y" false), .call "y" (.define 1)] = .ok (rs, y) ∧ y.scope = s :=
      ⟨_, _, rfl, rfl⟩
    exact hy ▸ Scope.Reached.of_run (.opened 0) (by decide) hrun
  obtain ⟨t, hflat, hnested⟩ := walk_nest_eq_walk_branch hs arms true
  refine ⟨hs, t, hflat, hnested, ?_⟩
  rw [walk_eq_mapAll _ hs.steady] at hflat
  cases hflat
  rfl

end Flow

end DefiniteAssignment
