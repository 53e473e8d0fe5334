import DefiniteAssignment.Proofs.Scope.Arising
import DefiniteAssignment.Proofs.Stack.Shares

/-!
# What every scope of a stack keeps

A scope on a stack is a scope like any other. What falls to it of an operation on the stack
it could have been asked to do on its own, with the slot and the arms at hand that belong to
it. So whatever holds of every scope that comes about holds of the scopes of every stack.
-/

namespace DefiniteAssignment

variable {τ α ω : Type}

namespace Scope

/-- An arm that lies at a place of a list is found there again. -/
theorem map_arm_keep (label : String) (arms : List Arm) :
    ((List.range arms.length).map fun i ↦ (Shelf.empty.keep label arms).arm (.kept label i)) =
      arms := by
  refine List.ext_getElem (by simp) fun i _ hi ↦ ?_
  rw [List.getElem_map, List.getElem_range, Shelf.arm, Shelf.arms_keep_self,
    List.getElem?_eq_getElem hi, Option.getD_some]

variable [Storable τ] {mode : Mode}

/-- What falls to a scope is an operation of some session on it. -/
theorem exists_step_of_perform {share : Share τ} {s t : Scope τ} {r : Reply τ}
    (h : share.perform mode s = .ok (r, t)) :
    ∃ (x y : Session τ Given Log) (op : Op τ), x.scope = s ∧ y.scope = t ∧
      x.step mode op = .ok (r, y) := by
  let x (slot : SlotId) : Session τ Given Log := ⟨s, ⟨slot⟩, .empty, .empty⟩
  cases share with
  | declare d slot =>
    obtain ⟨p, hp, h⟩ := Violation.bind_eq_ok_iff.mp h
    refine ⟨x slot, ⟨t, ⟨slot⟩, .empty, .empty⟩, .declare d, rfl, rfl, ?_⟩
    cases p with
    | error e =>
      cases h
      exact Violation.bind_eq_ok_iff.mpr ⟨_, hp, rfl⟩
    | ok p =>
      obtain ⟨u, given⟩ := p
      cases h
      obtain ⟨hc, slot', total, hr, htotal, rfl⟩ := charged_of_declare hp
      cases hr
      simp only [Session.step, x, declare, hc, grow, htotal, Allocator.reserve, Violation.ok_bind]
      rfl
  | reserveInternal ty slot =>
    obtain ⟨⟨given, t', slots⟩, hp, h⟩ := Violation.bind_eq_ok_iff.mp h
    cases h
    exact ⟨x slot, ⟨t, slots, .empty, .empty⟩, .reserveInternal ty, rfl, rfl,
      Violation.bind_eq_ok_iff.mpr ⟨_, hp, rfl⟩⟩
  | call name c =>
    obtain ⟨⟨q, t'⟩, hp, h⟩ := Violation.bind_eq_ok_iff.mp h
    cases h
    exact ⟨x ⟨0⟩, ⟨t, ⟨⟨0⟩⟩, .empty, .empty⟩, .call name c, rfl, rfl,
      Violation.bind_eq_ok_iff.mpr ⟨_, hp, rfl⟩⟩
  | pushLevel =>
    cases h
    exact ⟨x ⟨0⟩, _, .pushLevel, rfl, rfl, rfl⟩
  | foldLevel =>
    obtain ⟨t', hp, h⟩ := Violation.bind_eq_ok_iff.mp h
    cases h
    exact ⟨x ⟨0⟩, ⟨t, ⟨⟨0⟩⟩, .empty, .empty⟩, .foldLevel, rfl, rfl,
      Violation.bind_eq_ok_iff.mpr ⟨_, hp, rfl⟩⟩
  | takeArm =>
    obtain ⟨⟨arm, t'⟩, hp, h⟩ := Violation.bind_eq_ok_iff.mp h
    cases h
    exact ⟨x ⟨0⟩, ⟨t, ⟨⟨0⟩⟩, Shelf.empty.keep "" [arm], .empty⟩, .takeArm "", rfl, rfl,
      Violation.bind_eq_ok_iff.mpr ⟨_, hp, rfl⟩⟩
  | joinArms arms exhaustive =>
    cases h
    refine ⟨⟨s, ⟨⟨0⟩⟩, Shelf.empty.keep "" arms, .empty⟩, ⟨s.joinArms arms exhaustive, ⟨⟨0⟩⟩,
      Shelf.empty.keep "" arms, .empty⟩,
      .joinArms ((List.range arms.length).map (.kept "")) exhaustive, rfl, rfl, ?_⟩
    rw [Session.step, List.map_map, Function.comp_def, map_arm_keep]

theorem Arises.of_perform {share : Share τ} {s t : Scope τ} {r : Reply τ} (hs : s.Arises)
    (h : share.perform mode s = .ok (r, t)) : t.Arises := by
  obtain ⟨x, y, op, rfl, rfl, hstep⟩ := exists_step_of_perform h
  exact hs.step hstep

end Scope

namespace Stack

/-- A stack that comes about in any way, in either mode. Its innermost scope may also be
replaced by another, since it can be handed out. -/
inductive Arises [Storable τ] : Stack τ → Prop
  | start (config : Config) : Arises (.start config)
  | step {α ω : Type} [Allocator α] [Sink ω] {mode : Mode} {x y : Session τ α ω} {op : Op τ}
      {r : Reply τ} : Arises x.stack → x.step mode op = .ok (r, y) → Arises y.stack
  | replace {s : Stack τ} {c : Scope τ} : Arises s → c.Arises →
      Arises { s with current := c }

variable [Storable τ]

/-- The scopes stay such as come about by themselves. -/
theorem scopes_arise_of_step [Allocator α] [Sink ω] {mode : Mode} {x y : Session τ α ω} {op : Op τ}
    {r : Reply τ} (hx : ∀ c ∈ x.stack.scopes, c.Arises) (h : x.step mode op = .ok (r, y)) :
    ∀ c ∈ y.stack.scopes, c.Arises := by
  cases hop : op.isDirect with
  | true =>
    cases op with
    | current op =>
      obtain ⟨⟨q, z⟩, hz, h⟩ := Violation.bind_eq_ok_iff.mp h
      cases h
      intro c hc
      rcases List.mem_append.mp hc with hc | hc
      · exact hx c (List.mem_append_left _ hc)
      · rw [List.mem_singleton.mp hc]
        have hcurrent : x.innermost.scope.Arises :=
          hx x.stack.current (List.mem_append_right _ (List.mem_singleton_self _))
        exact hcurrent.step hz
    | _ => cases hop
  | false =>
    have hshares := Session.shares_of_step hop h
    intro d hd
    obtain ⟨place, hd⟩ := List.mem_iff_getElem?.mp hd
    cases hc : x.stack.scopes[place]? with
    | none =>
      obtain ⟨-, rfl⟩ := hshares.opened hc hd
      exact .opened x.stack.depth
    | some c =>
      have harises : c.Arises := hx c (List.mem_of_getElem? hc)
      have hperform := hshares.perform hc hd
      cases hshare : x.shareAt place op with
      | none =>
        rw [hshare, Option.elim_none] at hperform
        rw [hperform]
        exact harises
      | some share =>
        rw [hshare, Option.elim_some] at hperform
        exact harises.of_perform hperform

theorem Arises.scopes {s : Stack τ} (h : s.Arises) : ∀ c ∈ s.scopes, c.Arises := by
  induction h with
  | start config =>
    intro c hc
    rw [List.mem_singleton.mp hc]
    exact .opened 0
  | step _ hstep ih => exact scopes_arise_of_step ih hstep
  | @replace s c _ hc ih =>
    intro d hd
    rcases List.mem_append.mp hd with hd | hd
    · exact ih d (List.mem_append_left _ hd)
    · rw [List.mem_singleton.mp hd]
      exact hc

theorem Arises.of_run [Allocator α] [Sink ω] {mode : Mode} {x y : Session τ α ω} {ops : List (Op τ)}
    {rs : List (Reply τ)} (h : x.stack.Arises) (hrun : x.run mode ops = .ok (rs, y)) :
    y.stack.Arises :=
  invariant_of_runBy (fun z : Session τ α ω ↦ z.stack.Arises) hrun h
    fun _ _ _ _ _ hz hstep ↦ hz.step hstep

end Stack

end DefiniteAssignment
