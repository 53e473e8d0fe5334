import DefiniteAssignment.Proofs.Flagged.Mirror
import DefiniteAssignment.Proofs.Stack.Shares

/-!
# Every scope is told with flags

Of every scope that comes about, on its own or on a stack, something is told with flags that comes
about in the same way, and of every arm that is taken. So what holds of all that comes about with
flags holds of all scopes and arms. It does not matter how an analysis uses them: levels may be
popped that were never pushed, where that is let pass, those of one variable may be moved alone,
and arms may be joined in scopes they were not taken from.
-/

namespace DefiniteAssignment

variable {τ α ω : Type}

/-- What is told of the scope comes about. -/
abbrev Scope.IsTold (s : Scope τ) : Prop := (Flagged.scope s.flagged).Arises

/-- What is told of the arm comes about. -/
abbrev Arm.IsTold (τ : Type) (a : Arm) : Prop := (Flagged.arm a.flagged : Flagged τ).Arises

/-- What is told of the arms that are kept comes about. -/
abbrev Shelf.IsTold (τ : Type) (shelf : Shelf) : Prop :=
  ∀ label, ∀ a ∈ shelf.arms label, a.IsTold τ

theorem Shelf.isTold_empty : Shelf.empty.IsTold τ := fun _ _ ha ↦ absurd ha List.not_mem_nil

theorem Shelf.IsTold.keep {shelf : Shelf} (h : shelf.IsTold τ) (label : String) {arms : List Arm}
    (harms : ∀ a ∈ arms, a.IsTold τ) : (shelf.keep label arms).IsTold τ := by
  intro other a ha
  by_cases hl : other = label
  · subst hl
    rw [arms_keep_self] at ha
    exact harms a ha
  · rw [arms_keep_of_ne shelf arms hl] at ha
    exact h other a ha

theorem Shelf.IsTold.arm {shelf : Shelf} (h : shelf.IsTold τ) (ref : ArmRef) :
    (shelf.arm ref).IsTold τ := by
  cases ref with
  | nothing => exact .nothing
  | kept label index =>
    rw [Shelf.arm]
    cases ha : (shelf.arms label)[index]? with
    | none => exact .nothing
    | some a => exact h label a (List.mem_of_getElem? ha)

namespace Scope

/-! ## One operation on a scope -/

namespace IsTold

variable {s t : Scope τ} {mode : Mode}

theorem nodup (h : s.IsTold) : s.names.Nodup := by
  have hwell : s.flagged.WellFormed := h.wellFormed
  rw [← names_flagged]
  exact hwell.nodup

/-- How much storage a scope has asked for is not told. -/
theorem bind {d : Declaration τ} (h : s.IsTold) (slot : SlotId) (inherited : Bool) (size : UInt64)
    (hfree : s.contains d.name = false) :
    (({ s with size := size } : Scope τ).bind d slot inherited).IsTold := by
  rw [IsTold, flagged_bind]
  refine Flagged.Arises.bind slot inherited h ?_
  rw [contains_flagged]
  exact hfree

theorem call {name : String} {c : Variable.Call} {r : Option (Variable.Reply τ)} (h : s.IsTold)
    (hcall : s.call mode name c = .ok (r, t)) : t.IsTold := by
  have hflagged : s.flagged.call mode name c = .ok t.flagged := by
    rw [← flagged_call, hcall]
    rfl
  exact Flagged.Arises.call h hflagged

theorem setAll (h : s.IsTold) (initial : Bool) : (s.setAll initial).IsTold := by
  rw [IsTold, flagged_setAll]
  exact Flagged.Arises.setAll initial h

theorem pushLevel (h : s.IsTold) : s.pushLevel.IsTold := by
  rw [IsTold, flagged_pushLevel]
  exact Flagged.Arises.pushLevel h

theorem foldLevel (h : s.IsTold) (hfold : s.foldLevel mode = .ok t) : t.IsTold := by
  have hflagged : s.flagged.foldLevel mode = .ok t.flagged := by
    rw [← flagged_foldLevel, hfold]
    rfl
  exact Flagged.Arises.foldLevel h hflagged

theorem takeArm {a : Arm} (h : s.IsTold) (htake : s.takeArm mode = .ok (a, t)) :
    a.IsTold τ ∧ t.IsTold := by
  have hflagged : s.flagged.takeArm mode = .ok (a.flagged, t.flagged) := by
    rw [← flagged_takeArm h.nodup, htake]
    rfl
  exact ⟨Flagged.Arises.taken h hflagged, Flagged.Arises.takeArm h hflagged⟩

theorem joinArms {arms : List Arm} (h : s.IsTold) (harms : ∀ a ∈ arms, a.IsTold τ)
    (exhaustive : Bool) : (s.joinArms arms exhaustive).IsTold := by
  rw [IsTold, flagged_joinArms h.nodup 0]
  refine Flagged.Arises.joinArms 0 exhaustive h fun b hb ↦ ?_
  obtain ⟨a, ha, rfl⟩ := List.mem_map.mp hb
  exact harms a ha

end IsTold

/-! ## Sessions on a scope -/

namespace Session

/-- What is told of the scope and of the arms that are kept comes about. -/
structure IsTold (x : Session τ α ω) : Prop where
  scope : x.scope.IsTold
  shelf : x.shelf.IsTold τ

variable [Storable τ] [Allocator α] [Sink ω] {mode : Mode} {x y : Session τ α ω}

theorem IsTold.of_step {op : Op τ} {r : Reply τ} (hx : x.IsTold) (h : x.step mode op = .ok (r, y)) :
    y.IsTold ∧ ∀ a, r = .arm a → a.IsTold τ := by
  have hs := hx.scope
  cases op with
  | declare d =>
    obtain ⟨p, hp, h⟩ := Violation.bind_eq_ok_iff.mp h
    cases p with
    | error e =>
      cases h
      exact ⟨hx, by simp⟩
    | ok p =>
      cases h
      obtain ⟨hc, slot, size, he⟩ := declare_eq_ok hp
      refine ⟨⟨?_, hx.shelf⟩, by simp⟩
      rw [he]
      exact hs.bind slot false size hc
  | declareAt d slot inherited =>
    simp only [step] at h
    split at h
    · next t ht =>
      cases h
      obtain ⟨hc, rfl⟩ := declareAt_eq_ok ht
      exact ⟨⟨hs.bind slot inherited x.scope.size hc, hx.shelf⟩, by simp⟩
    · cases h
      exact ⟨hx, by simp⟩
  | reserveInternal ty =>
    obtain ⟨p, hp, h⟩ := Violation.bind_eq_ok_iff.mp h
    cases h
    obtain ⟨size, he⟩ := reserveInternal_eq_ok hp
    refine ⟨⟨?_, hx.shelf⟩, by simp⟩
    rw [he]
    exact hs
  | call name c =>
    obtain ⟨p, hp, h⟩ := Violation.bind_eq_ok_iff.mp h
    cases h
    refine ⟨⟨hs.call hp, hx.shelf⟩, fun a ha ↦ ?_⟩
    cases hq : p.1 <;> rw [hq] at ha <;> cases ha
  | demand name c =>
    obtain ⟨p, hp, h⟩ := Violation.bind_eq_ok_iff.mp h
    cases h
    exact ⟨⟨hs.call (call_of_demand hp), hx.shelf⟩, by simp⟩
  | setAll initial =>
    cases h
    exact ⟨⟨hs.setAll initial, hx.shelf⟩, by simp⟩
  | pushLevel =>
    cases h
    exact ⟨⟨hs.pushLevel, hx.shelf⟩, by simp⟩
  | foldLevel =>
    obtain ⟨t, ht, h⟩ := Violation.bind_eq_ok_iff.mp h
    cases h
    exact ⟨⟨hs.foldLevel ht, hx.shelf⟩, by simp⟩
  | takeArm label =>
    obtain ⟨⟨arm, t⟩, ht, h⟩ := Violation.bind_eq_ok_iff.mp h
    cases h
    obtain ⟨harm, ht⟩ := hs.takeArm ht
    refine ⟨⟨ht, hx.shelf.keep label (List.forall_mem_singleton.mpr harm)⟩, fun a ha ↦ ?_⟩
    cases ha
    exact harm
  | joinArms refs exhaustive =>
    cases h
    refine ⟨⟨hs.joinArms (fun a ha ↦ ?_) exhaustive, hx.shelf⟩, by simp⟩
    obtain ⟨ref, -, rfl⟩ := List.mem_map.mp ha
    exact hx.shelf.arm ref
  | contains | checkAll | recommend | report =>
    cases h
    exact ⟨⟨hs, hx.shelf⟩, by simp⟩

theorem IsTold.of_run {ops : List (Op τ)} {rs : List (Reply τ)} (hx : x.IsTold)
    (h : x.run mode ops = .ok (rs, y)) : y.IsTold ∧ ∀ a, .arm a ∈ rs → a.IsTold τ := by
  obtain ⟨hy, hrs⟩ := invariant_and_replies_of_runBy h hx fun _ _ _ _ _ hz hstep ↦ hz.of_step hstep
  exact ⟨hy, fun a ha ↦ hrs (.arm a) ha a rfl⟩

end Session

end Scope

/-! ## Sessions on a stack -/

namespace Scope

/-- The arms that are part of a share. -/
def Share.arms : Share τ → List Arm
  | .joinArms arms _ => arms
  | _ => []

theorem IsTold.of_perform [Storable τ] {share : Share τ} {s t : Scope τ} {mode : Mode}
    {r : Reply τ} (hs : s.IsTold) (harms : ∀ a ∈ share.arms, a.IsTold τ)
    (h : share.perform mode s = .ok (r, t)) : t.IsTold := by
  cases share with
  | declare d slot =>
    obtain ⟨p, hp, h⟩ := Violation.bind_eq_ok_iff.mp h
    cases p with
    | error e =>
      cases h
      exact hs
    | ok p =>
      cases h
      obtain ⟨hc, slot, size, he⟩ := declare_eq_ok hp
      rw [he]
      exact hs.bind slot false size hc
  | reserveInternal ty slot =>
    obtain ⟨p, hp, h⟩ := Violation.bind_eq_ok_iff.mp h
    cases h
    obtain ⟨size, he⟩ := reserveInternal_eq_ok hp
    rw [he]
    exact hs
  | call name c =>
    obtain ⟨p, hp, h⟩ := Violation.bind_eq_ok_iff.mp h
    cases h
    exact hs.call hp
  | pushLevel =>
    cases h
    exact hs.pushLevel
  | foldLevel =>
    obtain ⟨t', ht, h⟩ := Violation.bind_eq_ok_iff.mp h
    cases h
    exact hs.foldLevel ht
  | takeArm =>
    obtain ⟨p, hp, h⟩ := Violation.bind_eq_ok_iff.mp h
    cases h
    exact (hs.takeArm hp).2
  | joinArms arms exhaustive =>
    cases h
    exact hs.joinArms harms exhaustive

end Scope

namespace Stack

/-- The arms an operation was answered with. -/
def Reply.taken : Reply τ → List Arm
  | .arms as => as
  | .current (.arm a) => [a]
  | _ => []

theorem isTold_of_takeArms {s t : Stack τ} {mode : Mode} {as : List Arm}
    (hs : ∀ c ∈ s.scopes, c.IsTold) (h : s.takeArms mode = .ok (as, t)) :
    ∀ a ∈ as, a.IsTold τ := by
  rw [takeArms_eq_stop] at h
  have htake {c : Scope τ} (hc : c ∈ s.scopes) : c.takeArm mode = .ok (c.lastArm, c.shed) := by
    rw [Scope.takeArm_eq_stop]
    exact Mode.stop_of_mem h hc _
  cases Mode.eq_of_stop_eq_ok h
  intro a ha
  obtain ⟨c, hc, rfl⟩ := List.mem_map.mp ha
  exact ((hs c hc).takeArm (htake hc)).1

namespace Session

/-- What is told of the open scopes and of the arms that are kept comes about. -/
structure IsTold (x : Session τ α ω) : Prop where
  scopes : ∀ c ∈ x.stack.scopes, c.IsTold
  shelf : x.shelf.IsTold τ

theorem isTold_start (config : Config) (slots : α) (sink : ω) :
    (start config slots sink : Session τ α ω).IsTold where
  scopes c hc := by
    rw [List.mem_singleton.mp hc]
    exact .opened 0
  shelf := Shelf.isTold_empty

variable {mode : Mode} {x y : Session τ α ω} {op : Op τ} {r : Reply τ}

/-- The arms that stand at the place of a scope are kept on the shelf. -/
theorem IsTold.arms_shareAt (hx : x.IsTold) {place : Nat} {share : Scope.Share τ}
    (h : x.shareAt place op = some share) : ∀ a ∈ share.arms, a.IsTold τ := by
  cases op with
  | joinArms labels exhaustive =>
    cases h
    intro a ha
    obtain ⟨as, has, ha⟩ := List.mem_filterMap.mp ha
    obtain ⟨label, -, rfl⟩ := List.mem_map.mp has
    cases label with
    | none => cases ha
    | some label => exact hx.shelf label a (List.mem_of_getElem? ha)
  | declare | reserveInternal | call =>
    simp only [shareAt] at h
    split at h <;> cases h
    exact fun _ ha ↦ absurd ha List.not_mem_nil
  | pushLevel | foldLevel | takeArms =>
    cases h
    exact fun _ ha ↦ absurd ha List.not_mem_nil
  | openScope | closeScope | reserve | current | report => cases h

variable [Storable τ]

theorem IsTold.of_shares (hx : x.IsTold) (h : Shares mode x op r y)
    (htaken : ∀ a ∈ r.taken, a.IsTold τ) : y.IsTold where
  scopes d hd := by
    obtain ⟨place, hd⟩ := List.mem_iff_getElem?.mp hd
    cases hc : x.stack.scopes[place]? with
    | none =>
      obtain ⟨-, rfl⟩ := h.opened hc hd
      exact .opened x.stack.depth
    | some c =>
      have htold : c.IsTold := hx.scopes c (List.mem_of_getElem? hc)
      have hperform := h.perform hc hd
      cases hshare : x.shareAt place op with
      | none =>
        rw [hshare, Option.elim_none] at hperform
        rw [hperform]
        exact htold
      | some share =>
        rw [hshare, Option.elim_some] at hperform
        exact htold.of_perform (hx.arms_shareAt hshare) hperform
  shelf := by
    rw [h.shelf]
    cases op with
    | takeArms label =>
      cases r with
      | arms as => exact hx.shelf.keep label htaken
      | _ => exact hx.shelf
    | _ => exact hx.shelf

variable [Allocator α] [Sink ω]

/-- Only a pop of the whole stack, or of its innermost scope, is answered with arms. -/
theorem IsTold.taken_of_step (hx : x.IsTold) (hop : op.isDirect = false)
    (h : x.step mode op = .ok (r, y)) : ∀ a ∈ r.taken, a.IsTold τ := by
  cases op with
  | takeArms label =>
    obtain ⟨p, hp, h⟩ := Violation.bind_eq_ok_iff.mp h
    cases h
    exact isTold_of_takeArms hx.scopes hp
  | current => cases hop
  | closeScope =>
    simp only [step] at h
    split at h <;> cases h <;> exact fun _ ha ↦ absurd ha List.not_mem_nil
  | declare =>
    obtain ⟨p, -, h⟩ := Violation.bind_eq_ok_iff.mp h
    cases p <;> cases h <;> exact fun _ ha ↦ absurd ha List.not_mem_nil
  | call =>
    obtain ⟨⟨q, t⟩, -, h⟩ := Violation.bind_eq_ok_iff.mp h
    cases h
    cases q <;> exact fun _ ha ↦ absurd ha List.not_mem_nil
  | reserveInternal | reserve | foldLevel =>
    obtain ⟨p, -, h⟩ := Violation.bind_eq_ok_iff.mp h
    cases h
    exact fun _ ha ↦ absurd ha List.not_mem_nil
  | openScope | pushLevel | joinArms | report =>
    cases h
    exact fun _ ha ↦ absurd ha List.not_mem_nil

theorem IsTold.of_step (hx : x.IsTold) (h : x.step mode op = .ok (r, y)) :
    y.IsTold ∧ ∀ a ∈ r.taken, a.IsTold τ := by
  cases hop : op.isDirect with
  | false =>
    have htaken := hx.taken_of_step hop h
    exact ⟨hx.of_shares (shares_of_step hop h) htaken, htaken⟩
  | true =>
    cases op with
    | current op =>
      -- The innermost scope is worked on as a scope on its own, with the same shelf.
      obtain ⟨⟨q, z⟩, hz, h⟩ := Violation.bind_eq_ok_iff.mp h
      cases h
      have hinnermost : x.innermost.IsTold :=
        ⟨hx.scopes x.stack.current (List.mem_append_right _ (List.mem_singleton_self _)), hx.shelf⟩
      obtain ⟨hz, harm⟩ := hinnermost.of_step hz
      refine ⟨⟨fun c hc ↦ ?_, hz.shelf⟩, fun a ha ↦ ?_⟩
      · rcases List.mem_append.mp hc with hc | hc
        · exact hx.scopes c (List.mem_append_left _ hc)
        · rw [List.mem_singleton.mp hc]
          exact hz.scope
      · cases q with
        | arm b =>
          rw [List.mem_singleton.mp ha]
          exact harm b rfl
        | _ => cases ha
    | _ => cases hop

theorem IsTold.of_run {ops : List (Op τ)} {rs : List (Reply τ)} (hx : x.IsTold)
    (h : x.run mode ops = .ok (rs, y)) : y.IsTold ∧ ∀ r ∈ rs, ∀ a ∈ r.taken, a.IsTold τ :=
  invariant_and_replies_of_runBy h hx fun _ _ _ _ _ hz hstep ↦ hz.of_step hstep

end Session

end Stack

/-- Levels and arms stay well formed, whatever is done to scopes and stacks. Told with a flag beside
each order, they are well formed in all that comes about. Each variable has a level, each level has
a value exactly if it has an order, and with a value at any level goes the order of the first. An
arm that is taken has exactly the variables with a value at the level that ends, which is the base
level of a variable that has no other, in declaration order and each with its order there; where no
level is pushed it has none. So an arm has an order exactly for the names that it initializes, and
what is put in place of a missing order when arms are joined does not matter. Nothing but what the
orders say is left to be told.

This covers each run on a scope and each run on a stack, with arms of any scopes and with calls
that move the levels of one variable: of every scope and every arm something is told that comes
about so, and to work on a scope is to work on what is told of it. -/
theorem levels_and_arms_stay_well_formed [Storable τ] [Allocator α] [Sink ω] :
    (∀ s : FlaggedScope τ, (Flagged.scope s).Arises →
      (∀ v ∈ s.bindings, v.levels ≠ [] ∧ (∀ l ∈ v.levels, l.initialized ↔ l.order.isSome) ∧
        ((∃ l ∈ v.levels, l.initialized) → v.firstOrder.isSome)) ∧
      (∀ mode a t, s.takeArm mode = .ok (a, t) →
        a.entries = if s.depth = 0 then []
          else (s.bindings.filter (·.initialized)).map fun v ↦ (v.name, v.top.order)) ∧
      ∃ t : Scope τ, t.flagged = s) ∧
    (∀ arms : List FlaggedArm, (∀ a ∈ arms, (Flagged.arm a : Flagged τ).Arises) →
      (∀ a ∈ arms, ∀ name, (a.order name).isSome = a.isInitialized name) ∧
      ∀ fallback fallback',
        FlaggedArm.intersect fallback arms = FlaggedArm.intersect fallback' arms) ∧
    (∀ mode depth slots sink ops rs, ∀ y : Scope.Session τ α ω,
      Scope.Session.run mode ⟨.opened depth, slots, .empty, sink⟩ ops = .ok (rs, y) →
        y.scope.Mirrored ∧ y.IsTold ∧ ∀ a, .arm a ∈ rs → a.IsTold τ) ∧
    ∀ mode config slots sink ops rs, ∀ y : Stack.Session τ α ω,
      (Stack.Session.start config slots sink).run mode ops = .ok (rs, y) →
        (∀ c ∈ y.stack.scopes, c.Mirrored) ∧ y.IsTold ∧ ∀ r ∈ rs, ∀ a ∈ r.taken, a.IsTold τ := by
  refine ⟨fun s hs ↦ ⟨fun v hv ↦ ?_, fun mode a t h ↦ ?_, ?_⟩, fun arms harms ↦ ⟨?_, ?_⟩,
    fun mode depth slots sink ops rs y h ↦ ?_, fun mode config slots sink ops rs y h ↦ ?_⟩
  · have hwell : s.WellFormed := hs.wellFormed
    have hv := hwell.variable_wellFormed v hv
    exact ⟨hv.levels_ne_nil, fun l hl ↦ by rw [hv.agree l hl],
      fun ⟨l, hl, hinit⟩ ↦ hv.dated l hl hinit⟩
  · have hwell : s.WellFormed := hs.wellFormed
    rw [FlaggedScope.takeArm_eq_stop] at h
    cases Mode.eq_of_stop_eq_ok h
    exact hwell.entries_lastArm
  · have hwell : s.WellFormed := hs.wellFormed
    exact hwell.exists_flagged_eq
  · exact fun a ha name ↦ FlaggedArm.WellFormed.isSome_order (harms a ha).wellFormed name
  · exact FlaggedArm.intersect_eq fun a ha ↦ (harms a ha).wellFormed
  · have hx : (⟨.opened depth, slots, .empty, sink⟩ : Scope.Session τ α ω).IsTold :=
      ⟨.opened depth, Shelf.isTold_empty⟩
    obtain ⟨hy, harms⟩ := hx.of_run h
    exact ⟨Scope.mirrored hy.scope.nodup, hy, harms⟩
  · obtain ⟨hy, harms⟩ := (Stack.Session.isTold_start config slots sink).of_run h
    exact ⟨fun c hc ↦ Scope.mirrored (hy.scopes c hc).nodup, hy, harms⟩

/-- A lenient analysis pops a level that was never pushed, folds a level of one variable alone, and
takes two arms where one level is pushed. The first arm has the variable that is stuck at its base
level, with its order there, and the second has nothing. -/
theorem misused_levels_stay_well_formed :
    let d (name : String) : Declaration Layout := ⟨name, ⟨1, false⟩, false, default⟩
    let stuck : Arm := ⟨[("x", 3)]⟩
    let ops : List (Scope.Op Layout) :=
      [.foldLevel, .declareAt (d "x") ⟨0⟩ false, .declareAt (d "y") ⟨1⟩ false, .pushLevel,
        .demand "x" (.define 3), .demand "x" .foldLevel, .takeArm "stuck", .takeArm "none",
        .joinArms [.kept "stuck" 0, .kept "none" 0] true]
    let rs : List (Scope.Reply Layout) :=
      [.done, .done, .done, .done, .variable .done, .variable .done, .arm stuck, .arm .empty, .done]
    let x : Scope.Session Layout SlotCounter Log := .start {} .empty
    ∃ y, x.run .lenient ops = .ok (rs, y) ∧ y.scope.IsTold ∧ stuck.IsTold Layout ∧
      y.scope.flagged.bindings.map (·.levels) = [[⟨true, some 3⟩], [⟨false, none⟩]] ∧
      (∀ v ∈ y.scope.flagged.bindings, (∃ l ∈ v.levels, l.initialized) → v.firstOrder.isSome) ∧
      ∀ name, (stuck.flagged.order name).isSome = stuck.flagged.isInitialized name := by
  intro d stuck ops rs x
  obtain ⟨hscopes, harms, hruns, -⟩ :=
    levels_and_arms_stay_well_formed (τ := Layout) (α := SlotCounter) (ω := Log)
  obtain ⟨y, hy, hlevels⟩ : ∃ y, x.run .lenient ops = .ok (rs, y) ∧
      y.scope.flagged.bindings.map (·.levels) = [[⟨true, some 3⟩], [⟨false, none⟩]] :=
    ⟨_, rfl, rfl⟩
  obtain ⟨-, htold, htaken⟩ := hruns .lenient 0 {} .empty ops rs y hy
  have hstuck : stuck.IsTold Layout := htaken stuck (by decide)
  refine ⟨y, hy, htold.scope, hstuck, hlevels, fun v hv ↦ ?_, fun name ↦ ?_⟩
  · exact ((hscopes y.scope.flagged htold.scope).1 v hv).2.2
  · exact (harms [stuck.flagged] (List.forall_mem_singleton.mpr hstuck)).1 stuck.flagged
      (List.mem_singleton_self _) name

end DefiniteAssignment
