import DefiniteAssignment.Proofs.Scope.Deferral
import DefiniteAssignment.Proofs.Scope.Joining

/-!
# The first value of a variable

A variable remembers the order of its first value for good. Three things give a value for the first
time: it is defined, an assignment of it is accepted, or all variables of its scope are given a
value at once. What is done to levels does not, since levels only bring back what was known before.

Joining arms is the one operation on levels that goes the way by which values are given, and it
would note an order of its own for a variable without a first value. It never finds one, as long as
the arms were taken from the scope itself: an arm knows a name only if its variable had a value when
the arm ended, and a variable that had a value keeps the order of its first one. So the invariant
of a run couples the scope with the arms that still wait to be joined.
-/

namespace DefiniteAssignment

variable {τ α ω : Type}

namespace Variable

/-- The order of the value that a call gives, if it was answered that way. -/
def Call.given? : Call → Reply τ → Option Order
  | .define order, _ | .assign order _, .accepted => some order
  | _, _ => none

section
variable {v w : Variable τ}

@[simp] theorem firstOrder_folded (v : Variable τ) : v.folded.firstOrder = v.firstOrder := by
  unfold folded
  split <;> rfl

@[simp] theorem firstOrder_shed (v : Variable τ) : v.shed.firstOrder = v.firstOrder := by
  unfold shed
  split <;> rfl

/-- An arm gives a value like any other, so it is noted unless another one was. -/
theorem firstOrder_settle (a : Arm) (h : a.knows v.name → v.firstOrder.isSome) :
    (v.settle a).firstOrder = v.firstOrder := by
  cases ha : a.knows v.name with
  | false => rw [settle_of_knows_eq_false ha]
  | true =>
    obtain ⟨first, hfirst⟩ := Option.isSome_iff_exists.mp (h ha)
    unfold settle
    split
    · rfl
    · split
      · rw [define, hfirst]
        rfl
      · rfl

theorem firstOrder_of_call {mode : Mode} {c : Call} {q : Reply τ}
    (h : v.call mode c = .ok (q, w)) : w.firstOrder = v.firstOrder.or (c.given? q) := by
  cases c with
  | define order =>
    cases h
    rfl
  | assign order use =>
    rcases call_assign_cases h with ⟨-, -, rfl, rfl⟩ | ⟨-, -, rfl, rfl⟩ | ⟨-, rfl, rfl⟩
    · exact Option.or_none.symm
    · rfl
    · rfl
  | ensureInitialized use =>
    simp only [call] at h
    split at h <;> cases h <;> exact Option.or_none.symm
  | foldLevel =>
    rw [call, foldLevel_eq_stop, Mode.map_stop] at h
    cases Mode.eq_of_stop_eq_ok h
    exact v.firstOrder_folded.trans Option.or_none.symm
  | takeLevel =>
    rw [call, takeLevel_eq_stop, Mode.map_stop] at h
    cases Mode.eq_of_stop_eq_ok h
    exact v.firstOrder_shed.trans Option.or_none.symm
  | read | undefine | markMutated | pushLevel =>
    cases h
    exact Option.or_none.symm

end

end Variable

namespace Scope

/-- The order of the first value of a name. -/
def firstOrder (s : Scope τ) (name : String) : Option Order :=
  (s.find? name).bind Variable.firstOrder

section
variable {s : Scope τ} {name : String}

theorem firstOrder_of_mem (hs : s.names.Nodup) {v : Variable τ} (hv : v ∈ s.bindings) :
    s.firstOrder v.name = v.firstOrder := by
  rw [firstOrder, find?_of_mem hs hv]
  rfl

theorem firstOrder_mapAll {g : Variable τ → Variable τ}
    (hg : ∀ v ∈ s.bindings, (g v).identity = v.identity) (depth : Nat) :
    (s.mapAll g depth).firstOrder name = (s.find? name).bind fun v ↦ (g v).firstOrder := by
  rw [firstOrder, find?_mapAll hg, Option.bind_map]
  rfl

/-- A change that no variable notes is not noted. -/
theorem firstOrder_mapAll_of_eq {g : Variable τ → Variable τ}
    (hg : ∀ v ∈ s.bindings, (g v).identity = v.identity ∧ (g v).firstOrder = v.firstOrder)
    (depth : Nat) : (s.mapAll g depth).firstOrder name = s.firstOrder name := by
  rw [firstOrder_mapAll fun v hv ↦ (hg v hv).1, firstOrder]
  cases hf : s.find? name with
  | none => rfl
  | some v => exact (hg v (mem_of_find? hf)).2

/-! ## Levels -/

theorem firstOrder_pushLevel : s.pushLevel.firstOrder name = s.firstOrder name :=
  firstOrder_mapAll_of_eq (g := .pushLevel) (fun _ _ ↦ ⟨rfl, rfl⟩) (s.depth + 1)

theorem firstOrder_folded : s.folded.firstOrder name = s.firstOrder name := by
  by_cases hd : s.depth = 0
  · rw [folded, if_pos hd]
  · rw [folded_eq_mapAll hd]
    exact firstOrder_mapAll_of_eq (fun v _ ↦ ⟨v.identity_folded, v.firstOrder_folded⟩) _

theorem firstOrder_shed : s.shed.firstOrder name = s.firstOrder name := by
  by_cases hd : s.depth = 0
  · rw [shed, if_pos hd]
  · rw [shed_eq_mapAll hd]
    exact firstOrder_mapAll_of_eq (fun v _ ↦ ⟨v.identity_shed, v.firstOrder_shed⟩) _

/-- An arm that ends knows only names that had a first value. -/
theorem WellKept.isSome_firstOrder_of_lastArm (hs : s.WellKept) (h : s.lastArm.knows name) :
    (s.firstOrder name).isSome := by
  by_cases hd : s.depth = 0
  · rw [lastArm, if_pos hd] at h
    cases h
  · rw [lastArm, if_neg hd, Arm.knows, order?_knowledge hs.nodup, current] at h
    rw [firstOrder]
    cases hf : s.find? name with
    | none =>
      rw [hf] at h
      cases h
    | some v =>
      rw [hf] at h
      exact hs.dated v (mem_of_find? hf) v.current List.mem_cons_self h

/-- Arms that know only names that had a first value give none. -/
theorem firstOrder_joinArms (hs : s.names.Nodup) {arms : List Arm} (exhaustive : Bool)
    (harms : ∀ a ∈ arms, ∀ n, a.knows n → (s.firstOrder n).isSome) :
    (s.joinArms arms exhaustive).firstOrder name = s.firstOrder name := by
  cases exhaustive with
  | false => rfl
  | true =>
    rw [joinArms_true]
    refine firstOrder_mapAll_of_eq (fun v hv ↦ ⟨v.identity_settle _, ?_⟩) s.depth
    refine v.firstOrder_settle _ fun hknows ↦ ?_
    obtain ⟨hne, hall⟩ := Arm.knows_meet.mp hknows
    obtain ⟨a, ha⟩ := List.exists_mem_of_ne_nil arms hne
    rw [← firstOrder_of_mem hs hv]
    exact harms a ha v.name (hall a ha)

/-! ## Values -/

theorem firstOrder_bind (d : Declaration τ) (slot : SlotId) (inherited : Bool) :
    (s.bind d slot inherited).firstOrder name = s.firstOrder name := by
  rw [firstOrder, firstOrder, find?_bind]
  cases s.find? name with
  | some v => rfl
  | none => by_cases h : d.name = name <;> simp [h, Variable.fresh]

theorem contains_setAll (initial : Bool) (n : String) :
    (s.setAll initial).contains n = s.contains n := by
  rw [setAll_eq_mapAll, contains, find?_mapAll fun v _ ↦ identity_setAll initial v,
    Option.isSome_map, contains]

theorem firstOrder_setAll (initial : Bool) : (s.setAll initial).firstOrder name =
    (s.firstOrder name).or (if initial && s.contains name then some 0 else none) := by
  rw [setAll_eq_mapAll, firstOrder_mapAll fun v _ ↦ identity_setAll initial v, firstOrder, contains]
  cases s.find? name <;> cases initial <;> simp [Variable.define, Variable.undefine]

theorem WellKept.firstOrder_set (hs : s.WellKept) {mode : Mode} {n : String} {c : Variable.Call}
    {q : Variable.Reply τ} {v w : Variable τ} (hv : s.find? n = some v)
    (hw : v.call mode c = .ok (q, w)) : (s.set n w).firstOrder name =
      (s.firstOrder name).or (if n = name then c.given? q else none) := by
  have hi : w.identity = v.identity := ((hs.dated v (mem_of_find? hv)).of_call hw).1
  rw [set_eq_mapAll, firstOrder_mapAll (identity_set hs.nodup hv hi), firstOrder]
  by_cases hn : n = name
  · subst hn
    rw [hv, Option.bind_some, Option.bind_some, if_pos (name_of_find? hv), if_pos rfl]
    exact Variable.firstOrder_of_call hw
  · rw [if_neg hn, Option.or_none]
    cases hf : s.find? name with
    | none => rfl
    | some u =>
      have hu : u.name ≠ n := fun he ↦ hn (he.symm.trans (name_of_find? hf))
      rw [Option.bind_some, Option.bind_some, if_neg hu]

theorem WellKept.firstOrder_call (hs : s.WellKept) {mode : Mode} {n : String} {c : Variable.Call}
    {r : Option (Variable.Reply τ)} {t : Scope τ} (h : s.call mode n c = .ok (r, t)) :
    t.firstOrder name =
      (s.firstOrder name).or (if n = name then r.bind c.given? else none) := by
  rcases call_eq_ok h with ⟨-, rfl, rfl⟩ | ⟨v, w, q, hv, hw, rfl, rfl⟩
  · rw [Option.bind_none, ite_self, Option.or_none]
  · exact hs.firstOrder_set hv hw

end

/-! ## Steps and runs -/

/-- The order of the value that a turn gives the variable of a name, if it gives it one. -/
def Turn.given? (name : String) (t : Turn τ) : Option Order :=
  match t.op, t.reply with
  | .call n c, .variable q | .demand n c, .variable q => if n = name then c.given? q else none
  | .setAll true, _ => if t.scope.contains name then some 0 else none
  | _, _ => none

namespace Session

/-- The arms kept under some labels know only names that had a first value. -/
def Dates (taken : List String) (x : Session τ α ω) : Prop :=
  ∀ label ∈ taken, ∀ a ∈ x.shelf.arms label, ∀ name, a.knows name →
    (x.scope.firstOrder name).isSome

theorem Dates.arm {taken : List String} {x : Session τ α ω} (h : x.Dates taken) {ref : ArmRef}
    (href : ref.Among taken) {name : String} (hknows : (x.shelf.arm ref).knows name) :
    (x.scope.firstOrder name).isSome := by
  cases ref with
  | nothing => cases hknows
  | kept label index =>
    rw [Shelf.arm] at hknows
    cases ha : (x.shelf.arms label)[index]? with
    | none =>
      rw [ha] at hknows
      cases hknows
    | some a =>
      rw [ha] at hknows
      exact h label href a (List.mem_of_getElem? ha) name hknows

variable [Storable τ] [Allocator α] [Sink ω] {mode : Mode} {taken : List String}
  {x y : Session τ α ω} {op : Op τ} {r : Reply τ}

/-- The first value that is given is noted, and nothing else is. -/
theorem firstOrder_of_step (hs : x.scope.WellKept) (hdates : x.Dates taken)
    (hown : op.JoinsAmong taken) (h : x.step mode op = .ok (r, y)) (name : String) :
    y.scope.firstOrder name = (x.scope.firstOrder name).or
      (Turn.given? name ⟨op, r, x.told op, y.scope⟩) := by
  cases op with
  | declare d =>
    obtain ⟨p, hp, h⟩ := Violation.bind_eq_ok_iff.mp h
    cases p with
    | error e =>
      cases h
      exact Option.or_none.symm
    | ok p =>
      cases h
      obtain ⟨-, slot, size, he⟩ := declare_eq_ok hp
      rw [he]
      exact (firstOrder_bind d slot false).trans Option.or_none.symm
  | declareAt d slot inherited =>
    simp only [step] at h
    split at h
    · next t ht =>
      cases h
      obtain ⟨-, rfl⟩ := declareAt_eq_ok ht
      exact (firstOrder_bind d slot inherited).trans Option.or_none.symm
    · cases h
      exact Option.or_none.symm
  | reserveInternal ty =>
    obtain ⟨⟨slot, t, slots⟩, hp, h⟩ := Violation.bind_eq_ok_iff.mp h
    cases h
    obtain ⟨size, rfl⟩ := reserveInternal_eq_ok hp
    exact Option.or_none.symm
  | call n c =>
    obtain ⟨⟨q, t⟩, hp, h⟩ := Violation.bind_eq_ok_iff.mp h
    cases h
    rw [hs.firstOrder_call hp]
    cases q with
    | none => rw [Option.bind_none, ite_self]; rfl
    | some q => rfl
  | demand n c =>
    obtain ⟨⟨q, t⟩, hp, h⟩ := Violation.bind_eq_ok_iff.mp h
    cases h
    exact hs.firstOrder_call (call_of_demand hp)
  | setAll initial =>
    cases h
    rw [firstOrder_setAll]
    cases initial with
    | false => rfl
    | true =>
      rw [← contains_setAll true name, Bool.true_and]
      rfl
  | pushLevel =>
    cases h
    exact firstOrder_pushLevel.trans Option.or_none.symm
  | foldLevel =>
    obtain ⟨t, ht, h⟩ := Violation.bind_eq_ok_iff.mp h
    cases h
    rw [foldLevel_eq_stop] at ht
    rw [Mode.eq_of_stop_eq_ok ht]
    exact firstOrder_folded.trans Option.or_none.symm
  | takeArm label =>
    obtain ⟨p, hp, h⟩ := Violation.bind_eq_ok_iff.mp h
    cases h
    rw [takeArm_eq_stop] at hp
    rw [Mode.eq_of_stop_eq_ok hp]
    exact firstOrder_shed.trans Option.or_none.symm
  | joinArms refs exhaustive =>
    cases h
    refine (firstOrder_joinArms hs.nodup exhaustive fun a ha n hknows ↦ ?_).trans
      Option.or_none.symm
    obtain ⟨ref, href, rfl⟩ := List.mem_map.mp ha
    exact hdates.arm (hown ref href) hknows
  | contains | checkAll | recommend | report =>
    cases h
    exact Option.or_none.symm

/-- A name keeps the order of its first value. -/
theorem isSome_firstOrder_of_step (hs : x.scope.WellKept) (hdates : x.Dates taken)
    (hown : op.JoinsAmong taken) (h : x.step mode op = .ok (r, y)) {name : String}
    (hsome : (x.scope.firstOrder name).isSome) : (y.scope.firstOrder name).isSome := by
  rw [firstOrder_of_step hs hdates hown h, Option.isSome_or, hsome, Bool.true_or]

theorem Dates.of_step (hdates : x.Dates taken) (hs : x.scope.WellKept)
    (hown : op.JoinsAmong taken) (h : x.step mode op = .ok (r, y)) :
    y.Dates (op.label?.toList ++ taken) := by
  have hkept {name : String} (hsome : (x.scope.firstOrder name).isSome) :
      (y.scope.firstOrder name).isSome := isSome_firstOrder_of_step hs hdates hown h hsome
  -- Only where an arm is taken is anything put on the shelf.
  have hsame (hshelf : y.shelf = x.shelf) : y.Dates taken := by
    intro label hlabel a ha name hknows
    rw [hshelf] at ha
    exact hkept (hdates label hlabel a ha name hknows)
  cases op with
  | takeArm label =>
    obtain ⟨p, hp, h⟩ := Violation.bind_eq_ok_iff.mp h
    cases h
    rw [takeArm_eq_stop] at hp
    have harm : p.1 = x.scope.lastArm := congrArg Prod.fst (Mode.eq_of_stop_eq_ok hp)
    intro other hother a ha name hknows
    refine hkept ?_
    by_cases he : other = label
    · subst he
      rw [Shelf.arms_keep_self, List.mem_singleton] at ha
      rw [ha, harm] at hknows
      exact hs.isSome_firstOrder_of_lastArm hknows
    · rw [Shelf.arms_keep_of_ne _ _ he] at ha
      rcases List.mem_append.mp hother with hother | hother
      · exact absurd (List.mem_singleton.mp hother) he
      · exact hdates other hother a ha name hknows
  | declare =>
    obtain ⟨p, -, h⟩ := Violation.bind_eq_ok_iff.mp h
    cases p <;> cases h <;> exact hsame rfl
  | declareAt =>
    simp only [step] at h
    split at h <;> cases h <;> exact hsame rfl
  | reserveInternal | call | demand | foldLevel =>
    obtain ⟨p, -, h⟩ := Violation.bind_eq_ok_iff.mp h
    cases h
    exact hsame rfl
  | contains | setAll | pushLevel | joinArms | checkAll | recommend | report =>
    cases h
    exact hsame rfl

theorem firstOrder_of_run {ops : List (Op τ)} {rs : List (Reply τ)} (hs : x.scope.WellKept)
    (hdates : x.Dates taken) (hown : JoinsOwn taken ops) (h : x.run mode ops = .ok (rs, y))
    (name : String) : y.scope.firstOrder name = (x.scope.firstOrder name).or
      ((x.turns mode ops).findSome? (Turn.given? name)) := by
  induction ops generalizing x taken rs with
  | nil =>
    cases h
    exact Option.or_none.symm
  | cons op ops ih =>
    obtain ⟨r, z, qs, hstep, hrun, rfl⟩ := run_cons_eq_ok_iff.mp h
    obtain ⟨hfirst, hrest⟩ := hown
    have hz := (hs.outlives_step hstep).wellKept
    rw [ih hz (hdates.of_step hs hfirst hstep) hrest hrun,
      firstOrder_of_step hs hdates hfirst hstep, Option.or_assoc, turns_cons hstep,
      List.findSome?_cons]
    cases Turn.given? name ⟨op, r, x.told op, z.scope⟩ <;> rfl

/-- What is done after a run may join the arms that were taken in it. -/
theorem Dates.of_run {ops more : List (Op τ)} {rs : List (Reply τ)} (hdates : x.Dates taken)
    (hs : x.scope.WellKept) (hown : JoinsOwn taken (ops ++ more))
    (h : x.run mode ops = .ok (rs, y)) : ∃ taken', y.Dates taken' ∧ JoinsOwn taken' more := by
  induction ops generalizing x taken rs with
  | nil =>
    cases h
    exact ⟨taken, hdates, hown⟩
  | cons op ops ih =>
    obtain ⟨r, z, qs, hstep, hrun, rfl⟩ := run_cons_eq_ok_iff.mp h
    exact ih (hdates.of_step hs hown.1 hstep) (hs.outlives_step hstep).wellKept hown.2 hrun

end Session

/-- An operation that only moves levels, of all variables or of one, or joins arms. -/
def Op.isRegional : Op τ → Bool
  | .pushLevel | .foldLevel | .takeArm _ | .joinArms _ _ => true
  | .call _ c | .demand _ c => c.movesLevel
  | _ => false

theorem given?_of_isRegional {name : String} {t : Turn τ} (h : t.op.isRegional) :
    t.given? name = none := by
  have hcall (n : String) (c : Variable.Call) (q : Variable.Reply τ) (hc : c.movesLevel) :
      (if n = name then c.given? q else none) = none := by
    split
    · cases c <;> first | rfl | cases hc
    · rfl
  obtain ⟨op, r, told, s⟩ := t
  cases op with
  | call n c => cases r <;> first | rfl | exact hcall n c _ h
  | demand n c => cases r <;> first | rfl | exact hcall n c _ h
  | pushLevel | foldLevel | takeArm | joinArms => rfl
  | _ => cases h

/-- The first order of a variable is the order of its first value. Take a run on a scope opened with
any number of levels, in which only arms are joined that were taken in it. At its end each variable
has the order that the first turn of the run gave it, if any turn gave it one: by defining it, by an
assignment that was accepted, or by giving all variables a value, which has the order 0. At what
level that was, and what has become of that level, does not matter. Whatever is done next, the
variable is still there, and its order is kept, or, if there was none yet, is the one that is given
now. Nothing is given by an operation that only moves levels or joins arms. -/
theorem first_order_is_that_of_the_first_value [Storable τ] [Allocator α] [Sink ω] {mode : Mode}
    {depth : Nat} {slots : α} {shelf : Shelf} {sink : ω} {ops : List (Op τ)} {rs : List (Reply τ)}
    {y : Session τ α ω} (hown : JoinsOwn [] ops)
    (hrun : Session.run mode ⟨.opened depth, slots, shelf, sink⟩ ops = .ok (rs, y)) :
    (∀ v ∈ y.scope.bindings, v.firstOrder =
      (Session.turns mode ⟨.opened depth, slots, shelf, sink⟩ ops).findSome?
        (Turn.given? v.name)) ∧
    ∀ op r z, JoinsOwn [] (ops ++ [op]) → y.step mode op = .ok (r, z) →
      ∀ v ∈ y.scope.bindings, ∃ w, z.scope.find? v.name = some w ∧
        w.firstOrder = v.firstOrder.or (Turn.given? v.name ⟨op, r, y.told op, z.scope⟩) ∧
        (op.isRegional → w.firstOrder = v.firstOrder) := by
  have hdates : (⟨.opened depth, slots, shelf, sink⟩ : Session τ α ω).Dates [] :=
    fun _ hlabel ↦ absurd hlabel List.not_mem_nil
  have hy : y.scope.WellKept := ((wellKept_opened depth).outlives_run hrun).wellKept
  constructor
  · intro v hv
    rw [← firstOrder_of_mem hy.nodup hv]
    exact Session.firstOrder_of_run (wellKept_opened depth) hdates hown hrun v.name
  · intro op r z hnext hstep v hv
    obtain ⟨taken, htaken, hjoins, -⟩ := hdates.of_run (wellKept_opened depth) hnext hrun
    have hz := hy.outlives_step hstep
    obtain ⟨w, hw, -⟩ := exists_find?_of_prefix hz.identities (find?_of_mem hy.nodup hv)
    have hfirst := Session.firstOrder_of_step hy htaken hjoins hstep v.name
    rw [firstOrder_of_mem hy.nodup hv, firstOrder, hw, Option.bind_some] at hfirst
    refine ⟨w, hw, hfirst, fun hop ↦ ?_⟩
    rw [hfirst, given?_of_isRegional hop, Option.or_none]

/-- A lenient analysis pops a level that was never pushed, and then takes two arms. Only in the
first of them the variable is defined, and in the second one it is assigned. Its value is lost with
the levels, taken away once more, and then comes back with the arms; after that it is overwritten.
A second variable gets its first value together with all others. -/
theorem first_value_in_arm_is_remembered :
    let d (name : String) : Declaration Layout := ⟨name, ⟨1, false⟩, false, default⟩
    let ops : List (Op Layout) :=
      [.foldLevel, .declareAt (d "x") ⟨0⟩ false, .declareAt (d "y") ⟨1⟩ false, .pushLevel,
        .demand "x" (.define 3), .takeArm "one", .pushLevel, .demand "x" (.assign 5 default),
        .takeArm "two", .demand "x" .undefine, .joinArms [.kept "two" 0, .kept "one" 0] true,
        .setAll true, .demand "x" (.assign 7 default), .demand "x" .pushLevel]
    let x : Session Layout SlotCounter Log := ⟨.opened 0, {}, .empty, .empty⟩
    JoinsOwn [] ops ∧ ∃ rs y, x.run .lenient ops = .ok (rs, y) ∧
      (y.scope.find? "x").map (fun v ↦ (v.levels, v.firstOrder)) =
        some ([some 7, some 7], some 3) ∧
      y.scope.bindings.map (·.firstOrder) = [some 3, some 0] ∧
      (x.turns .lenient ops).findSome? (Turn.given? "x") = some 3 ∧
      ∃ z, y.step .lenient (.joinArms [.kept "two" 0] true) = .ok (.done, z) ∧
        ∃ w, z.scope.find? "y" = some w ∧ w.firstOrder = some 0 := by
  intro d ops x
  have howns (more : List (Op Layout)) (hmore : JoinsOwn ["two", "one"] more) :
      JoinsOwn [] (ops ++ more) := by
    simpa [ops, JoinsOwn, Op.JoinsAmong, Op.label?, ArmRef.Among] using hmore
  have hown : JoinsOwn [] ops := by simpa using howns [] trivial
  obtain ⟨rs, y, hrun, v, w, hbindings, hv, hw, hfound, hall⟩ : ∃ rs y,
      x.run .lenient ops = .ok (rs, y) ∧ ∃ v w, y.scope.bindings = [v, w] ∧
        v.name = "x" ∧ w.name = "y" ∧
        (y.scope.find? "x").map (fun v ↦ (v.levels, v.firstOrder)) =
          some ([some 7, some 7], some 3) ∧
        y.scope.bindings.map (·.firstOrder) = [some 3, some 0] :=
    ⟨_, _, rfl, _, _, rfl, rfl, rfl, rfl, rfl⟩
  obtain ⟨hfirst, hnext⟩ := first_order_is_that_of_the_first_value hown hrun
  obtain ⟨hx, hy⟩ : v.firstOrder = some 3 ∧ w.firstOrder = some 0 := by
    simpa [hbindings] using hall
  have hgiven := hfirst v (by simp [hbindings])
  rw [hx, hv] at hgiven
  obtain ⟨u, hu, -, hsame⟩ := hnext (.joinArms [.kept "two" 0] true) _ _
    (howns _ ⟨by simp [Op.JoinsAmong, ArmRef.Among], trivial⟩) rfl w (by simp [hbindings])
  rw [hw] at hu
  exact ⟨hown, rs, y, hrun, hfound, hall, hgiven.symm, _, rfl, u, hu, (hsame rfl).trans hy⟩

end Scope

end DefiniteAssignment
