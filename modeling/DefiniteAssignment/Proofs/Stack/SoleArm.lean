import DefiniteAssignment.Proofs.Stack.Arising

/-!
# A region is a sole arm

A region that always runs is folded into the level around it. An arm is taken off as it is,
and joined afterwards. Where there is one arm and it is always run, the two come to the same,
although one copies a level and the other goes by way of a record of names: the order that the
record gives to a variable is that of the level which is taken off, and the variable notes no
new first order, since it has one from when that level got its value. What is breached is the
same too, and so is what happens where a breach is let pass.
-/

namespace DefiniteAssignment

variable {τ : Type}

namespace Variable

/-- The level around the current one takes over what is known, and nothing is noted anew. -/
theorem folded_eq_settle {v : Variable τ} {a : Arm} (h : v.Dated)
    (ha : a.order? v.name = v.current) : v.folded = v.shed.settle a := by
  cases he : v.enclosing with
  | nil =>
    rw [folded, shed, he]
    cases hc : v.current with
    | none => simp [settle, ha, hc]
    | some order => rw [settle_of_initialized a (by rw [initialized, hc]; rfl)]
  | cons l outer =>
    rw [folded_of_enclosing he, shed_of_enclosing he]
    cases l with
    | some order => rw [settle_of_initialized a rfl, Level.fold_some]
    | none =>
      cases hc : v.current with
      | none => simp [settle, ha, hc]
      | some order =>
        -- The value was noted when it was given, and is not noted again.
        have hfirst : v.firstOrder.or (some order) = v.firstOrder := by
          have hsome : v.firstOrder.isSome := h v.current List.mem_cons_self (by rw [hc]; rfl)
          cases hf : v.firstOrder with
          | none => rw [hf] at hsome; cases hsome
          | some first => rfl
        simp [settle, ha, hc, initialized, define, leave, hfirst]

end Variable

theorem Scope.WellKept.folded_eq_joinArms {s : Scope τ} (hs : s.WellKept) :
    s.folded = s.shed.joinArms [s.lastArm] true := by
  by_cases hd : s.depth = 0
  · rw [folded, shed, lastArm, if_pos hd, if_pos hd, if_pos hd, joinArms_true, Arm.meet_singleton,
      mapAll, List.map_congr_left fun v _ ↦ Variable.settle_empty v, List.map_id']
  · rw [folded_eq_mapAll hd, shed_eq_mapAll hd, lastArm, if_neg hd, joinArms_true,
      Arm.meet_singleton]
    simp only [mapAll, List.map_map]
    congr 1
    apply List.map_congr_left
    intro v hv
    have ha : s.knowledge.order? v.name = v.current := by
      rw [order?_knowledge hs.nodup, current_of_find? (find?_of_mem hs.nodup hv)]
    exact Variable.folded_eq_settle (hs.dated v hv) ha

theorem Stack.folded_eq_joinArms {s : Stack τ} (hs : ∀ c ∈ s.scopes, c.WellKept) :
    s.folded = s.shed.joinArms [s.lastArms] true := by
  have harms (place : Nat) (c : Scope τ) (hc : s.scopes[place]? = some c) :
      armsAt [s.lastArms] place = [c.lastArm] := by
    rw [armsAt, List.filterMap_cons, lastArms, List.getElem?_map, hc]
    rfl
  have hcurrent : s.current.folded =
      s.current.shed.joinArms (armsAt [s.lastArms] s.enclosing.length) true := by
    rw [harms s.enclosing.length s.current (by simp [scopes])]
    exact (hs s.current (by simp [scopes])).folded_eq_joinArms
  have henclosing : s.enclosing.map Scope.folded =
      (s.enclosing.map Scope.shed).mapIdx fun place c ↦
        c.joinArms (armsAt [s.lastArms] place) true := by
    ext place : 1
    rw [List.getElem?_mapIdx, List.getElem?_map, List.getElem?_map]
    cases hc : s.enclosing[place]? with
    | none => rfl
    | some c =>
      have hlt : place < s.enclosing.length := (List.getElem?_eq_some_iff.mp hc).1
      have hscope : s.scopes[place]? = some c := by
        rw [scopes, List.getElem?_append_left hlt, hc]
      have hkept : c.WellKept := hs c (List.mem_of_getElem? hscope)
      rw [Option.map_some, Option.map_some, Option.map_some, harms place c hscope,
        hkept.folded_eq_joinArms]
  rw [folded, hcurrent, henclosing]
  simp only [joinArms, shed, List.length_map]

variable [Storable τ]

/-- To fold a region is to take it as an arm and to join it as the only one. This is so on
every scope and on every stack, whatever was done to it, and in both modes: the outcome is the
same scope or stack, with all that is known at every level, or the same breach. -/
theorem fold_eq_join_of_sole_arm (mode : Mode) :
    (∀ s : Scope τ, s.Arises →
      s.foldLevel mode = (s.takeArm mode).map fun (arm, t) ↦ t.joinArms [arm] true) ∧
    ∀ s : Stack τ, s.Arises →
      s.foldLevel mode = (s.takeArms mode).map fun (arms, t) ↦ t.joinArms [arms] true := by
  constructor
  · intro s hs
    rw [Scope.foldLevel_eq_stop, Scope.takeArm_eq_stop, Mode.map_stop,
      hs.wellKept.folded_eq_joinArms]
    rfl
  · intro s hs
    have hscopes : ∀ c ∈ s.scopes, c.WellKept := fun c hc ↦ (hs.scopes c hc).wellKept
    rw [Stack.foldLevel_eq_stop, Stack.takeArms_eq_stop, Mode.map_stop,
      Stack.folded_eq_joinArms hscopes]
    rfl

/-- A level is pushed on two variables, and one of them loses it again by itself. Folded or
joined, a strict analysis stops at that one, and a lenient one learns what the other was given.
On a stack the variable that was given a value may stand in a scope around the innermost. -/
theorem stray_level_folds_like_arm :
    let d (name : String) : Declaration Layout := ⟨name, ⟨1, false⟩, true, default⟩
    let ops : List (Scope.Op Layout) :=
      [.declare (d "x"), .declare (d "y"), .pushLevel, .call "x" .takeLevel,
        .call "y" (.define 2)]
    let moves : List (Stack.Op Layout) :=
      [.declare (d "x"), .pushLevel, .openScope, .call "x" (.define 1), .declare (d "x")]
    (∃ rs x t, (Scope.Session.start ({} : SlotCounter) Log.empty).run .strict ops = .ok (rs, x) ∧
      x.scope.Arises ∧ x.scope.foldLevel .strict = .error (.basePop "x") ∧
      (x.scope.takeArm .strict).map (fun (arm, t) ↦ t.joinArms [arm] true) =
        .error (.basePop "x") ∧
      x.scope.foldLevel .lenient = .ok t ∧ t.current "y" = some 2 ∧
      (x.scope.takeArm .lenient).map (fun (arm, t) ↦ t.joinArms [arm] true) = .ok t) ∧
    ∃ rs x t, (Stack.Session.start {} ({} : SlotCounter) Log.empty).run .strict moves =
        .ok (rs, x) ∧
      x.stack.Arises ∧ x.stack.foldLevel .strict = .ok t ∧ t.levelAt 0 "x" = some 1 ∧
      (x.stack.takeArms .strict).map (fun (arms, t) ↦ t.joinArms [arms] true) = .ok t := by
  intro d ops moves
  constructor
  · obtain ⟨rs, x, t, hrun, hstrict, hlenient, ht⟩ : ∃ rs x t,
        (Scope.Session.start ({} : SlotCounter) Log.empty).run .strict ops = .ok (rs, x) ∧
        x.scope.foldLevel .strict = .error (.basePop "x") ∧
        x.scope.foldLevel .lenient = .ok t ∧ t.current "y" = some 2 :=
      ⟨_, _, _, rfl, rfl, rfl, rfl⟩
    have hx : x.scope.Arises := .of_run (.opened 0) hrun
    refine ⟨rs, x, t, hrun, hx, hstrict, ?_, hlenient, ht, ?_⟩
    · rw [← (fold_eq_join_of_sole_arm .strict).1 x.scope hx, hstrict]
    · rw [← (fold_eq_join_of_sole_arm .lenient).1 x.scope hx, hlenient]
  · obtain ⟨rs, x, t, hrun, hfold, ht⟩ : ∃ rs x t,
        (Stack.Session.start {} ({} : SlotCounter) Log.empty).run .strict moves = .ok (rs, x) ∧
        x.stack.foldLevel .strict = .ok t ∧ t.levelAt 0 "x" = some 1 := ⟨_, _, _, rfl, rfl, rfl⟩
    have hx : x.stack.Arises := .of_run (.start {}) hrun
    refine ⟨rs, x, t, hrun, hx, hfold, ht, ?_⟩
    rw [← (fold_eq_join_of_sole_arm .strict).2 x.stack hx, hfold]

end DefiniteAssignment
