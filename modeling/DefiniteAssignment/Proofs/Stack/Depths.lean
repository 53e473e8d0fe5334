import DefiniteAssignment.Proofs.Contract.InPlace
import DefiniteAssignment.Proofs.Scope.Reached
import DefiniteAssignment.Proofs.Stack.Shares

/-!
# Levels of a stack stay in step

The levels pushed on a stack are counted three times: by the stack, by each of its scopes,
and by each variable as the levels it has. Scopes are opened and closed in the middle of
regions and variables are declared there, and nothing asks for scopes and levels to nest.
The counts agree all the same, as long as nobody moves the levels of one variable or one
scope alone.

A share moves the count of a scope as the operation moves that of the stack, and keeps the
scope in step with its variables. So every operation keeps a stack in step, and every run.
A pop then finds either every scope with a level to give up, or the root without one before
anything has been changed.
-/

namespace DefiniteAssignment

variable {τ α ω : Type}

/-! ## Only sums run over -/

section
variable {mode : Mode} {v : Violation} {size : UInt64}

theorem Mode.eq_of_breach_eq_error {β : Type} {w : Violation} {b : β}
    (h : mode.breach w b = .error v) : v = w := by
  cases mode <;> cases h
  rfl

theorem Mode.eq_overflow_of_addSize {a b : UInt64} (h : mode.addSize a b = .error v) :
    v = .overflow := by
  rw [addSize] at h
  split at h
  · cases h
  · exact eq_of_breach_eq_error h

theorem SlotCounter.eq_overflow_of_reserve {c : SlotCounter}
    (h : c.reserve mode size = .error v) : v = .overflow := by
  rw [reserve_eq_bind] at h
  rcases Violation.bind_eq_error_iff.mp h with h | ⟨slots, -, h⟩
  · split at h
    · cases h
    · exact Mode.eq_of_breach_eq_error h
  · rcases Violation.bind_eq_error_iff.mp h with h | ⟨total, -, h⟩
    · exact Mode.eq_overflow_of_addSize h
    · cases h

namespace Scope

variable {s : Scope τ} {counter : SlotCounter}

theorem eq_overflow_of_grow (h : s.grow mode size = .error v) : v = .overflow := by
  rw [grow] at h
  cases hz : mode.addSize s.size size with
  | ok total =>
    rw [hz] at h
    cases h
  | error w =>
    rw [hz] at h
    cases h
    exact Mode.eq_overflow_of_addSize hz

variable [Storable τ]

theorem eq_overflow_of_declare {d : Declaration τ} (h : s.declare mode counter d = .error v) :
    v = .overflow := by
  rw [declare] at h
  split at h
  · cases h
  · rcases Violation.bind_eq_error_iff.mp h with h | ⟨p, -, h⟩
    · exact SlotCounter.eq_overflow_of_reserve h
    · rcases Violation.bind_eq_error_iff.mp h with h | ⟨t, -, h⟩
      · exact eq_overflow_of_grow h
      · cases h

theorem eq_overflow_of_reserveInternal {ty : τ}
    (h : s.reserveInternal mode counter ty = .error v) : v = .overflow := by
  rcases Violation.bind_eq_error_iff.mp h with h | ⟨t, -, h⟩
  · exact eq_overflow_of_grow h
  · rcases Violation.bind_eq_error_iff.mp h with h | ⟨p, -, h⟩
    · exact SlotCounter.eq_overflow_of_reserve h
    · cases h

end Scope

end

/-! ## One scope -/

namespace Scope

namespace Share

/-- A share that moves the levels of one variable alone. -/
def movesOne : Share τ → Bool
  | call _ c => c.movesLevel
  | _ => false

/-- How many levels are pushed on a scope after a share that finds `n` of them. -/
def levels (n : Nat) : Share τ → Nat
  | pushLevel => n + 1
  | foldLevel | takeArm => n - 1
  | _ => n

end Share

/-- A share keeps a scope in step, unless it moves the levels of one variable alone. -/
theorem InStep.of_perform [Storable τ] {mode : Mode} {s t : Scope τ} {share : Share τ}
    {r : Reply τ} (hs : s.InStep) (hone : share.movesOne = false)
    (h : share.perform mode s = .ok (r, t)) : t.InStep ∧ t.depth = share.levels s.depth := by
  cases share with
  | declare d slot =>
    obtain ⟨p, hp, h⟩ := Violation.bind_eq_ok_iff.mp h
    cases p with
    | error e =>
      cases h
      exact ⟨hs, rfl⟩
    | ok p =>
      cases h
      obtain ⟨hgrows, -⟩ := grows_declare hp
      exact ⟨hgrows.inStep hs, hgrows.depth⟩
  | reserveInternal ty slot =>
    obtain ⟨⟨given, u, g⟩, hp, h⟩ := Violation.bind_eq_ok_iff.mp h
    cases h
    obtain ⟨size, rfl⟩ := reserveInternal_eq_ok hp
    exact ⟨hs.resize size, rfl⟩
  | call name c =>
    obtain ⟨⟨q, u⟩, hp, h⟩ := Violation.bind_eq_ok_iff.mp h
    cases h
    have hframe := hs.frame_call hone hp
    exact ⟨hframe.inStep hs, hframe.depth⟩
  | pushLevel =>
    cases h
    exact ⟨hs.pushLevel, rfl⟩
  | foldLevel =>
    obtain ⟨u, hp, h⟩ := Violation.bind_eq_ok_iff.mp h
    cases h
    refine ⟨hs.of_foldLevel hp, ?_⟩
    rw [foldLevel_eq_stop] at hp
    rw [Mode.eq_of_stop_eq_ok hp]
    exact depth_folded s
  | takeArm =>
    obtain ⟨⟨arm, u⟩, hp, h⟩ := Violation.bind_eq_ok_iff.mp h
    cases h
    refine ⟨hs.of_takeArm hp, ?_⟩
    rw [takeArm_eq_stop] at hp
    rw [(Prod.mk.inj (Mode.eq_of_stop_eq_ok hp)).2]
    exact depth_shed s
  | joinArms arms exhaustive =>
    cases h
    exact ⟨hs.joinArms arms exhaustive, depth_joinArms arms exhaustive s⟩

end Scope

namespace Stack

/-! ## Popping a level -/

theorem InStep.popBreach?_of_depth_eq_zero {s : Stack τ} (hs : s.InStep) (hd : s.depth = 0) :
    s.popBreach? = some .unbalancedPop := by
  rw [← snd_popInPlace .folded,
    popInPlace_of_depth_eq_zero _ hd fun c hc ↦ (hs c hc).2.trans hd]

/-- A level of a stack in step is missing where the stack counts none, and nowhere else. -/
theorem InStep.popBreach?_eq_some_iff {s : Stack τ} (hs : s.InStep) {v : Violation} :
    s.popBreach? = some v ↔ s.depth = 0 ∧ v = .unbalancedPop := by
  by_cases hd : s.depth = 0
  · rw [hs.popBreach?_of_depth_eq_zero hd, Option.some_inj]
    exact ⟨fun h ↦ ⟨hd, h.symm⟩, fun h ↦ h.2.symm⟩
  · rw [hs.popBreach?_eq_none hd]
    exact iff_of_false (Option.some_ne_none v).symm fun h ↦ hd h.1

/-! ## One operation -/

/-- An operation that moves levels, if it moves any, of all scopes and variables alike. -/
def Op.movesAlike : Op τ → Bool
  | .call _ c => !c.movesLevel
  | .current _ => false
  | _ => true

/-- An operation that ends a level. -/
def Op.endsLevel : Op τ → Bool
  | .foldLevel | .takeArms _ => true
  | _ => false

/-- How many levels are pushed after operations that find `n` of them, the pops that find
none not counted. -/
def levelsOpen (n : Nat) (ops : List (Op τ)) : Nat :=
  ops.foldl (fun n op ↦ (op.levels? n).getD n) n

theorem Op.isDirect_of_movesAlike {op : Op τ} (h : op.movesAlike) : op.isDirect = false := by
  cases op with
  | current => cases h
  | _ => rfl

namespace Session

/-- The count of a scope moves with that of the stack. -/
theorem levels_of_shareAt {x : Session τ α ω} {place : Nat} {op : Op τ} {share : Scope.Share τ}
    (h : x.shareAt place op = some share) (n : Nat) : share.levels n = (op.levels? n).getD n := by
  cases op with
  | openScope | closeScope | reserve | current | report => cases h
  | declare | reserveInternal | call =>
    simp only [shareAt] at h
    split at h
    · cases h
      rfl
    · cases h
  | pushLevel | joinArms =>
    cases h
    rfl
  | foldLevel | takeArms =>
    cases h
    exact (Op.getD_levels?_pop n).symm

theorem levels?_of_shareAt_eq_none {x : Session τ α ω} {place : Nat} {op : Op τ}
    (h : x.shareAt place op = none) (n : Nat) : op.levels? n = some n := by
  cases op with
  | pushLevel | foldLevel | takeArms => cases h
  | _ => rfl

theorem movesOne_of_shareAt {x : Session τ α ω} {place : Nat} {op : Op τ}
    {share : Scope.Share τ} (hop : op.movesAlike) (h : x.shareAt place op = some share) :
    share.movesOne = false := by
  cases op with
  | openScope | closeScope | reserve | current | report => cases h
  | declare | reserveInternal =>
    simp only [shareAt] at h
    split at h
    · cases h
      rfl
    · cases h
  | call name c =>
    simp only [shareAt] at h
    split at h
    · cases h
      exact Bool.not_eq_true' _ |>.mp hop
    · cases h
  | pushLevel | joinArms | foldLevel | takeArms =>
    cases h
    rfl

end Session

variable [Storable τ] [Allocator α] [Sink ω] {mode : Mode} {x y : Session τ α ω}

theorem InStep.of_step {op : Op τ} {r : Reply τ} (hs : x.stack.InStep) (hop : op.movesAlike)
    (h : x.step mode op = .ok (r, y)) : y.stack.InStep := by
  have hshares := Session.shares_of_step (Op.isDirect_of_movesAlike hop) h
  intro d hd
  obtain ⟨place, hd⟩ := List.mem_iff_getElem?.mp hd
  rw [hshares.depth]
  cases hc : x.stack.scopes[place]? with
  | none =>
    obtain ⟨rfl, rfl⟩ := hshares.opened hc hd
    exact ⟨Scope.inStep_opened x.stack.depth, rfl⟩
  | some c =>
    obtain ⟨hin, hdepth⟩ := hs.of_getElem? hc
    have hperform := hshares.perform hc hd
    cases hshare : x.shareAt place op with
    | none =>
      rw [hshare, Option.elim_none] at hperform
      rw [hperform, Session.levels?_of_shareAt_eq_none hshare]
      exact ⟨hin, hdepth⟩
    | some share =>
      rw [hshare, Option.elim_some] at hperform
      rw [← Session.levels_of_shareAt hshare, ← hdepth]
      exact hin.of_perform (Session.movesOne_of_shareAt hop hshare) hperform

/-! ## What is breached -/

theorem step_strict_eq_error_iff_of_endsLevel {op : Op τ} {v : Violation} (hop : op.endsLevel) :
    x.step .strict op = .error v ↔ x.stack.popBreach? = some v := by
  cases op with
  | foldLevel =>
    rw [Session.step, foldLevel_eq_stop]
    cases x.stack.popBreach? <;> simp
  | takeArms label =>
    rw [Session.step, takeArms_eq_stop]
    cases x.stack.popBreach? <;> simp
  | _ => cases hop

/-- A stack in step is stopped by a sum that runs over, or by a pop that finds no level. -/
theorem InStep.breach_of_step {op : Op τ} {v : Violation} (hs : x.stack.InStep)
    (hop : op.movesAlike) (h : x.step mode op = .error v) : v = .overflow ∨ v = .unbalancedPop := by
  cases op with
  | openScope | pushLevel | joinArms | report => cases h
  | current => cases hop
  | closeScope =>
    simp only [Session.step] at h
    split at h <;> cases h
  | declare d =>
    rcases Violation.bind_eq_error_iff.mp h with h | ⟨p, -, h⟩
    · rcases Violation.bind_eq_error_iff.mp h with h | ⟨q, -, h⟩
      · exact .inl (Scope.eq_overflow_of_declare h)
      · cases q <;> cases h
    · cases p <;> cases h
  | reserveInternal ty =>
    rcases Violation.bind_eq_error_iff.mp h with h | ⟨p, -, h⟩
    · rcases Violation.bind_eq_error_iff.mp h with h | ⟨q, -, h⟩
      · exact .inl (Scope.eq_overflow_of_reserveInternal h)
      · cases h
    · cases h
  | reserve size =>
    rcases Violation.bind_eq_error_iff.mp h with h | ⟨p, -, h⟩
    · cases hr : x.stack.counter.reserve mode size with
      | ok q =>
        rw [reserve, hr] at h
        cases h
      | error w =>
        rw [reserve, hr] at h
        cases h
        exact .inl (SlotCounter.eq_overflow_of_reserve hr)
    · cases h
  | call name c =>
    rcases Violation.bind_eq_error_iff.mp h with h | ⟨p, -, h⟩
    · rw [call] at h
      cases hv : x.stack.find? name with
      | none =>
        rw [hv] at h
        cases h
      | some u =>
        obtain ⟨q, hq⟩ :=
          u.exists_call_of_movesLevel_eq_false mode (Bool.not_eq_true' _ |>.mp hop)
        simp only [hv, hq] at h
        cases h
    · cases h
  | foldLevel | takeArms =>
    cases mode with
    | strict =>
      have hb := (step_strict_eq_error_iff_of_endsLevel rfl).mp h
      exact .inr (hs.popBreach?_eq_some_iff.mp hb).2
    | lenient =>
      rcases Violation.bind_eq_error_iff.mp h with h | ⟨p, -, h⟩
      · simp only [foldLevel_eq_stop, takeArms_eq_stop, Mode.stop_lenient] at h
        cases h
      · cases h

/-! ## Runs -/

theorem InStep.of_run {ops : List (Op τ)} {rs : List (Reply τ)} (hs : x.stack.InStep)
    (hops : ∀ op ∈ ops, op.movesAlike) (h : x.run mode ops = .ok (rs, y)) :
    y.stack.InStep ∧ y.stack.depth = levelsOpen x.stack.depth ops := by
  induction ops generalizing x rs with
  | nil =>
    cases h
    exact ⟨hs, rfl⟩
  | cons op ops ih =>
    obtain ⟨r, z, qs, hstep, hrun, rfl⟩ := Session.run_cons_eq_ok_iff.mp h
    have hop : op.movesAlike := hops op List.mem_cons_self
    obtain ⟨hin, hdepth⟩ := ih (hs.of_step hop hstep)
      (fun o ho ↦ hops o (List.mem_cons_of_mem op ho)) hrun
    rw [(Session.shares_of_step (Op.isDirect_of_movesAlike hop) hstep).depth] at hdepth
    exact ⟨hin, hdepth⟩

theorem InStep.breach_of_run {ops : List (Op τ)} {v : Violation} (hs : x.stack.InStep)
    (hops : ∀ op ∈ ops, op.movesAlike) (h : x.run mode ops = .error v) :
    v = .overflow ∨ v = .unbalancedPop := by
  induction ops generalizing x with
  | nil => cases h
  | cons op ops ih =>
    have hop : op.movesAlike := hops op List.mem_cons_self
    rcases Session.run_cons_eq_error_iff.mp h with h | ⟨r, z, hstep, hrun⟩
    · exact hs.breach_of_step hop h
    · exact ih (hs.of_step hop hstep) (fun o ho ↦ hops o (List.mem_cons_of_mem op ho)) hrun

/-- The levels of a stack, of its scopes and of their variables stay in step after every
operation of a run, as long as no operation moves those of one variable or of the innermost
scope alone. No variable is ever asked to give up its base level. A level of the stack can be
popped exactly if one is pushed, and where none is, the pop is stopped before it has changed
anything. Any arms may lie on the shelf to begin with, so that others can be joined than
those that the run takes itself. -/
theorem levels_stay_in_step (mode : Mode) (config : Config) (slots : α) (shelf : Shelf)
    (sink : ω) (ops : List (Op τ)) (hops : ∀ op ∈ ops, op.movesAlike) :
    (∀ name, (Session.mk (start config) slots shelf sink).run mode ops ≠
      .error (.basePop name)) ∧
    ∀ before rs y, before <+: ops →
      (Session.mk (start config) slots shelf sink).run mode before = .ok (rs, y) →
        y.stack.depth = levelsOpen 0 before ∧
        (∀ c ∈ y.stack.scopes, c.depth = levelsOpen 0 before ∧
          ∀ v ∈ c.bindings, v.depth = levelsOpen 0 before + 1) ∧
        (∀ op : Op τ, op.endsLevel → ∀ v,
          y.step .strict op = .error v ↔ levelsOpen 0 before = 0 ∧ v = .unbalancedPop) ∧
        (levelsOpen 0 before = 0 →
          y.stack.popInPlace .folded = (y.stack, some .unbalancedPop) ∧
          y.stack.popInPlace .shed = (y.stack, some .unbalancedPop)) := by
  have hstart : (Session.mk (start config) slots shelf sink : Session τ α ω).stack.InStep :=
    inStep_start config
  constructor
  · intro name h
    rcases hstart.breach_of_run hops h with h | h <;> cases h
  · intro before rs y hbefore h
    obtain ⟨hin, hdepth⟩ := hstart.of_run (fun op hop ↦ hops op (hbefore.subset hop)) h
    change y.stack.depth = levelsOpen 0 before at hdepth
    refine ⟨hdepth, ?_, ?_, ?_⟩
    · intro c hc
      obtain ⟨hc, hcd⟩ := hin c hc
      refine ⟨hcd.trans hdepth, ?_⟩
      intro v hv
      rw [Variable.depth, hc.length_enclosing v hv, hcd, hdepth]
    · intro op hop v
      rw [step_strict_eq_error_iff_of_endsLevel hop, hin.popBreach?_eq_some_iff, hdepth]
    · intro hzero
      have hnone : ∀ c ∈ y.stack.scopes, c.depth = 0 := fun c hc ↦
        (hin c hc).2.trans (hdepth.trans hzero)
      exact ⟨popInPlace_of_depth_eq_zero _ (hdepth.trans hzero) hnone,
        popInPlace_of_depth_eq_zero _ (hdepth.trans hzero) hnone⟩

/-- A level pushed inside of a scope that closes before the level ends, and a scope opened
inside of it that stays open. The stack is then left without a level, and so is every
variable that still is there. -/
theorem crossing_levels_stay_in_step :
    let d : Declaration Layout := ⟨"x", ⟨1, false⟩, true, default⟩
    let ops : List (Op Layout) :=
      [.openScope, .declare d, .pushLevel, .closeScope, .openScope, .declare d, .foldLevel]
    (∀ op ∈ ops, op.movesAlike) ∧
      ∃ rs y, (Session.start {} ({} : SlotCounter) Log.empty).run .strict ops = .ok (rs, y) ∧
        y.stack.depth = 0 ∧ (∀ c ∈ y.stack.scopes, ∀ v ∈ c.bindings, v.depth = 1) ∧
        y.stack.current.contains "x" ∧ y.step .strict .foldLevel = .error .unbalancedPop := by
  intro d ops
  have hops : ∀ op ∈ ops, op.movesAlike := by decide
  obtain ⟨hdepth, hscopes, hpop, -⟩ :=
    (levels_stay_in_step .strict {} ({} : SlotCounter) .empty Log.empty ops hops).2 ops _ _
      List.prefix_rfl rfl
  exact ⟨hops, _, _, rfl, hdepth, fun c hc ↦ (hscopes c hc).2, rfl,
    (hpop .foldLevel rfl .unbalancedPop).mpr ⟨rfl, rfl⟩⟩

end Stack

end DefiniteAssignment
