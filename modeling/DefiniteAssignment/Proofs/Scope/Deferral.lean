import DefiniteAssignment.Proofs.Scope.Recommendation
import DefiniteAssignment.Proofs.Scope.Sequence
import DefiniteAssignment.Proofs.Scope.Siblings

/-!
# Putting off a declaration

A variable that is declared late gets its levels from the number the scope has counted. One that
is declared at once gets them as they are pushed, and loses them as they are popped. As long as it
is given no value, it stays as it was declared: a copy of a level that knows nothing knows nothing,
a fold of two such levels does not either, and an arm says nothing of it. So at each moment it is
the variable that would be declared there and then.

From the moment of the late declaration on, the two scopes have the same variables, of which one
stands at the front in the one where it was declared at once.
-/

namespace DefiniteAssignment

variable {τ α ω : Type}

namespace Variable

variable (d : Declaration τ) (slot : SlotId) (inherited : Bool) (depth : Nat)

theorem undefine_fresh : (fresh d slot inherited depth).undefine = fresh d slot inherited depth :=
  rfl

theorem pushLevel_fresh :
    (fresh d slot inherited depth).pushLevel = fresh d slot inherited (depth + 1) := rfl

theorem folded_fresh {depth : Nat} (h : depth ≠ 0) :
    (fresh d slot inherited depth).folded = fresh d slot inherited (depth - 1) := by
  cases depth with
  | zero => exact absurd rfl h
  | succ depth => rfl

theorem shed_fresh {depth : Nat} (h : depth ≠ 0) :
    (fresh d slot inherited depth).shed = fresh d slot inherited (depth - 1) := by
  cases depth with
  | zero => exact absurd rfl h
  | succ depth => rfl

theorem settle_fresh {a : Arm} (h : a.order? d.name = none) :
    (fresh d slot inherited depth).settle a = fresh d slot inherited depth := by
  rw [settle, initialized, current_fresh, toDeclaration_fresh, h]
  rfl

theorem popBreach?_fresh {depth : Nat} (h : depth ≠ 0) :
    (fresh d slot inherited depth).popBreach? = none := by
  refine popBreach?_of_ne_nil fun he ↦ h ?_
  rw [fresh, List.replicate_eq_nil_iff] at he
  exact he

end Variable

namespace Scope

/-- The scope as it is where a variable was declared ahead of all others, and was given no value
since. -/
def ahead (d : Declaration τ) (slot : SlotId) (inherited : Bool) (s : Scope τ) : Scope τ :=
  { s with bindings := .fresh d slot inherited s.depth :: s.bindings }

section
variable {d : Declaration τ} {slot : SlotId} {inherited : Bool} {s t : Scope τ} {name : String}

theorem find?_ahead (h : name ≠ d.name) : (s.ahead d slot inherited).find? name = s.find? name :=
  List.find?_cons_of_neg fun hd ↦ h (of_decide_eq_true hd).symm

theorem contains_ahead (h : name ≠ d.name) :
    (s.ahead d slot inherited).contains name = s.contains name := by
  rw [contains, contains, find?_ahead h]

theorem mapAll_ahead {g : Variable τ → Variable τ} {depth : Nat}
    (hg : g (.fresh d slot inherited s.depth) = .fresh d slot inherited depth) :
    (s.ahead d slot inherited).mapAll g depth = (s.mapAll g depth).ahead d slot inherited := by
  rw [mapAll, ahead, List.map_cons, hg]
  rfl

theorem set_ahead (h : name ≠ d.name) (w : Variable τ) :
    (s.ahead d slot inherited).set name w = (s.set name w).ahead d slot inherited :=
  mapAll_ahead (if_neg fun hd ↦ h hd.symm)

theorem undefineAll_ahead :
    (s.ahead d slot inherited).setAll false = (s.setAll false).ahead d slot inherited :=
  mapAll_ahead (Variable.undefine_fresh d slot inherited s.depth)

theorem pushLevel_ahead :
    (s.ahead d slot inherited).pushLevel = s.pushLevel.ahead d slot inherited :=
  mapAll_ahead (Variable.pushLevel_fresh d slot inherited s.depth)

theorem popBreach?_ahead : (s.ahead d slot inherited).popBreach? = s.popBreach? := by
  by_cases hd : s.depth = 0
  · rw [popBreach?, popBreach?, if_pos hd]
    exact if_pos hd
  · rw [popBreach?, popBreach?, if_neg hd]
    refine (if_neg hd).trans ?_
    rw [ahead, List.findSome?_cons, Variable.popBreach?_fresh d slot inherited hd]

theorem folded_ahead : (s.ahead d slot inherited).folded = s.folded.ahead d slot inherited := by
  by_cases hd : s.depth = 0
  · rw [folded, folded, if_pos hd]
    exact if_pos hd
  · have hd' : (s.ahead d slot inherited).depth ≠ 0 := hd
    rw [folded_eq_mapAll hd, folded_eq_mapAll hd']
    exact mapAll_ahead (Variable.folded_fresh d slot inherited hd)

theorem shed_ahead : (s.ahead d slot inherited).shed = s.shed.ahead d slot inherited := by
  by_cases hd : s.depth = 0
  · rw [shed, shed, if_pos hd]
    exact if_pos hd
  · have hd' : (s.ahead d slot inherited).depth ≠ 0 := hd
    rw [shed_eq_mapAll hd, shed_eq_mapAll hd']
    exact mapAll_ahead (Variable.shed_fresh d slot inherited hd)

/-- An arm says nothing of a variable without a value. -/
theorem lastArm_ahead : (s.ahead d slot inherited).lastArm = s.lastArm := rfl

theorem foldLevel_ahead {mode : Mode} (h : s.foldLevel mode = .ok t) :
    (s.ahead d slot inherited).foldLevel mode = .ok (t.ahead d slot inherited) := by
  rw [foldLevel_eq_stop] at h
  rw [foldLevel_eq_stop, popBreach?_ahead, folded_ahead, Mode.stop_eq_self h id,
    Mode.eq_of_stop_eq_ok h]

theorem takeArm_ahead {mode : Mode} {a : Arm} (h : s.takeArm mode = .ok (a, t)) :
    (s.ahead d slot inherited).takeArm mode = .ok (a, t.ahead d slot inherited) := by
  rw [takeArm_eq_stop] at h
  obtain ⟨rfl, rfl⟩ := Prod.mk.inj (Mode.eq_of_stop_eq_ok h)
  rw [takeArm_eq_stop, popBreach?_ahead, lastArm_ahead, shed_ahead, Mode.stop_eq_self h id]

theorem order?_lastArm (hs : s.names.Nodup) (h : s.contains name = false) :
    s.lastArm.order? name = none := by
  rw [lastArm]
  split
  · rfl
  · rw [order?_knowledge hs, current_of_notMem]
    rw [mem_names_iff, h]
    exact Bool.false_ne_true

theorem joinArms_ahead {arms : List Arm} (h : ∀ a ∈ arms, a.order? d.name = none)
    (exhaustive : Bool) : (s.ahead d slot inherited).joinArms arms exhaustive =
      (s.joinArms arms exhaustive).ahead d slot inherited := by
  cases exhaustive with
  | false => rfl
  | true =>
    refine mapAll_ahead (Variable.settle_fresh d slot inherited s.depth ?_)
    -- What all arms know is what the first of them knows, if anything.
    rw [Arm.order?_meet]
    cases arms with
    | nil => rfl
    | cons a arms =>
      rw [List.map_cons, h a List.mem_cons_self, Level.meet]
      exact ite_self none

theorem call_ahead {mode : Mode} {c : Variable.Call} {r : Option (Variable.Reply τ)}
    (hn : name ≠ d.name) (h : s.call mode name c = .ok (r, t)) :
    (s.ahead d slot inherited).call mode name c = .ok (r, t.ahead d slot inherited) := by
  rcases call_eq_ok h with ⟨hv, rfl, rfl⟩ | ⟨v, w, q, hv, hw, rfl, rfl⟩
  · rw [← find?_ahead hn] at hv
    exact call_of_find?_eq_none hv
  · rw [← find?_ahead hn] at hv
    rw [call_of_find?_eq_some hv, hw, ← set_ahead hn]
    rfl

theorem demand_ahead {mode : Mode} {c : Variable.Call} {r : Variable.Reply τ}
    (hn : name ≠ d.name) (h : s.demand mode name c = .ok (r, t)) :
    (s.ahead d slot inherited).demand mode name c = .ok (r, t.ahead d slot inherited) := by
  rcases call_eq_ok (call_of_demand h) with ⟨-, hr, -⟩ | ⟨v, w, q, hv, hw, hr, rfl⟩
  · cases hr
  · cases hr
    rw [← find?_ahead hn] at hv
    rw [demand_of_find?_eq_some mode c hv, hw, ← set_ahead hn]
    rfl

section
variable {d' : Declaration τ} (hn : d'.name ≠ d.name)
include hn

theorem declareAt_ahead (slot' : SlotId) (inherited' : Bool) :
    (s.ahead d slot inherited).declareAt d' slot' inherited' =
      (s.declareAt d' slot' inherited').map (ahead d slot inherited) := by
  rw [declareAt, declareAt, contains_ahead hn]
  split <;> rfl

theorem declare_ahead [Storable τ] [Allocator α] (mode : Mode) (slots : α) :
    (s.ahead d slot inherited).declare mode slots d' =
      (s.declare mode slots d').map fun p ↦
        p.map fun (t, given) ↦ (t.ahead d slot inherited, given) := by
  rw [declare, declare, contains_ahead hn]
  split
  · rfl
  · simp only [grow, ahead]
    cases Allocator.reserve mode slots (Storable.storageSize d'.ty) with
    | error e => rfl
    | ok p => cases mode.addSize s.size (Storable.storageSize d'.ty) <;> rfl

end

theorem reserveInternal_ahead [Storable τ] [Allocator α] (mode : Mode) (slots : α) (ty : τ) :
    (s.ahead d slot inherited).reserveInternal mode slots ty =
      (s.reserveInternal mode slots ty).map fun (id, t, given) ↦
        (id, t.ahead d slot inherited, given) := by
  simp only [reserveInternal, grow, ahead]
  cases mode.addSize s.size (Storable.storageSize ty) with
  | error e => rfl
  | ok total => cases Allocator.reserve mode slots (Storable.storageSize ty) <;> rfl

end

/-! ## Before the declaration -/

/-- An operation that does not call the variable of a name, and does not give all variables a
value. -/
def Op.spares (name : String) : Op τ → Bool
  | .call n _ | .demand n _ => n ≠ name
  | .setAll initial => !initial
  | _ => true

/-- The label an operation keeps an arm under. -/
def Op.label? : Op τ → Option String
  | .takeArm label => some label
  | _ => none

/-- Whether the arms that an operation joins are kept under some labels. -/
def Op.JoinsAmong (labels : List String) : Op τ → Prop
  | .joinArms refs _ => ∀ ref ∈ refs, ref.Among labels
  | _ => True

/-- Whether no arms are joined but those taken before, among the operations or under labels that
are given. -/
def JoinsOwn : List String → List (Op τ) → Prop
  | _, [] => True
  | taken, op :: ops => op.JoinsAmong taken ∧ JoinsOwn (op.label?.toList ++ taken) ops

namespace Session

/-- In the second session a variable was declared ahead of all others, and was given no value
since. It is in none of the arms taken since. -/
structure Ahead (d : Declaration τ) (slot : SlotId) (inherited : Bool) (taken : List String)
    (x y : Session τ α ω) : Prop where
  scope : y.scope = x.scope.ahead d slot inherited
  slots : y.slots = x.slots
  shelf : y.shelf = x.shelf
  silent : ∀ label ∈ taken, ∀ a ∈ x.shelf.arms label, a.order? d.name = none

variable [Storable τ] [Allocator α] [Sink ω] {d : Declaration τ} {slot : SlotId}
  {inherited : Bool} {taken : List String} {mode : Mode} {x y z : Session τ α ω} {op : Op τ}
  {r : Reply τ}

namespace Ahead

omit [Storable τ] [Allocator α] [Sink ω] in
theorem order?_arm (h : Ahead d slot inherited taken x y) {ref : ArmRef} (href : ref.Among taken) :
    (x.shelf.arm ref).order? d.name = none := by
  cases ref with
  | nothing => rfl
  | kept label index =>
    rw [Shelf.arm]
    cases ha : (x.shelf.arms label)[index]? with
    | none => rfl
    | some a => exact h.silent label href a (List.mem_of_getElem? ha)

omit [Storable τ] [Allocator α] [Sink ω] in
/-- An arm that says nothing of the variable is kept. -/
theorem silent_keep (h : Ahead d slot inherited taken x y) (label : String) {a : Arm}
    (ha : a.order? d.name = none) : ∀ l ∈ [label] ++ taken,
      ∀ b ∈ (x.shelf.keep label [a]).arms l, b.order? d.name = none := by
  intro l hl b hb
  by_cases he : l = label
  · subst he
    rw [Shelf.arms_keep_self, List.mem_singleton] at hb
    rw [hb]
    exact ha
  · rw [Shelf.arms_keep_of_ne _ _ he] at hb
    rcases List.mem_append.mp hl with hl | hl
    · exact absurd (List.mem_singleton.mp hl) he
    · exact h.silent l hl b hb

omit [Storable τ] [Allocator α] [Sink ω] in
/-- The scopes and the allocator are exchanged. -/
theorem moved (h : Ahead d slot inherited taken x y) (t : Scope τ) (slots : α) :
    Ahead d slot inherited taken { x with scope := t, slots := slots }
      { y with scope := t.ahead d slot inherited, slots := slots } :=
  ⟨rfl, rfl, h.shelf, h.silent⟩

/-- What is done where the variable is not bound yet is done where it is. -/
theorem step (h : Ahead d slot inherited taken x y) (hx : x.scope.WellKept)
    (hspares : op.spares d.name) (hown : op.JoinsAmong taken) (hstep : x.step mode op = .ok (r, z))
    (hfree : z.scope.contains d.name = false) :
    ∃ q w, y.step mode op = .ok (q, w) ∧
      Ahead d slot inherited (op.label?.toList ++ taken) z w := by
  have hearlier : x.scope.contains d.name = false := by
    rw [Bool.eq_false_iff] at hfree ⊢
    exact fun hbound ↦ hfree ((hx.outlives_step hstep).contains hbound)
  -- Whatever is declared is bound then, and so has another name.
  have hother {d' : Declaration τ} (hd : op.declares? = some d'.name) : d'.name ≠ d.name := by
    intro hn
    rw [hn] at hd
    rw [contains_of_declares hd hstep] at hfree
    cases hfree
  cases op with
  | declare d' =>
    obtain ⟨p, hp, hstep⟩ := Violation.bind_eq_ok_iff.mp hstep
    cases p with
    | error e =>
      cases hstep
      refine ⟨.refused e, y, ?_, h⟩
      rw [Session.step, h.scope, h.slots, declare_ahead (hother rfl), hp]
      rfl
    | ok p =>
      cases hstep
      refine ⟨.done, _, ?_, h.moved p.1 p.2⟩
      rw [Session.step, h.scope, h.slots, declare_ahead (hother rfl), hp]
      rfl
  | declareAt d' slot' inherited' =>
    rw [Session.step] at hstep
    cases hp : x.scope.declareAt d' slot' inherited' with
    | error e =>
      rw [hp] at hstep
      cases hstep
      refine ⟨.refused e, y, ?_, h⟩
      rw [Session.step, h.scope, declareAt_ahead (hother rfl), hp]
      rfl
    | ok t =>
      rw [hp] at hstep
      cases hstep
      refine ⟨.done, _, ?_, h.moved t x.slots⟩
      rw [Session.step, h.scope, ← h.slots, declareAt_ahead (hother rfl), hp]
      rfl
  | reserveInternal ty =>
    obtain ⟨p, hp, hstep⟩ := Violation.bind_eq_ok_iff.mp hstep
    cases hstep
    refine ⟨.slot p.1, _, ?_, h.moved p.2.1 p.2.2⟩
    rw [Session.step, h.scope, h.slots, reserveInternal_ahead, hp]
    rfl
  | contains n =>
    cases hstep
    exact ⟨_, _, rfl, h⟩
  | call n c =>
    obtain ⟨p, hp, hstep⟩ := Violation.bind_eq_ok_iff.mp hstep
    cases hstep
    refine ⟨p.1.elim .absent .variable, _, ?_, h.moved p.2 x.slots⟩
    rw [Session.step, h.scope, ← h.slots, call_ahead (of_decide_eq_true hspares) hp]
    rfl
  | demand n c =>
    obtain ⟨p, hp, hstep⟩ := Violation.bind_eq_ok_iff.mp hstep
    cases hstep
    refine ⟨.variable p.1, _, ?_, h.moved p.2 x.slots⟩
    rw [Session.step, h.scope, ← h.slots, demand_ahead (of_decide_eq_true hspares) hp]
    rfl
  | setAll initial =>
    cases hstep
    cases initial with
    | true => cases hspares
    | false =>
      refine ⟨.done, _, rfl, ?_, h.slots, h.shelf, h.silent⟩
      rw [h.scope, undefineAll_ahead]
  | pushLevel =>
    cases hstep
    refine ⟨.done, _, rfl, ?_, h.slots, h.shelf, h.silent⟩
    rw [h.scope, pushLevel_ahead]
  | foldLevel =>
    obtain ⟨t, ht, hstep⟩ := Violation.bind_eq_ok_iff.mp hstep
    cases hstep
    refine ⟨.done, _, ?_, h.moved t x.slots⟩
    rw [Session.step, h.scope, ← h.slots, foldLevel_ahead ht]
    rfl
  | takeArm label =>
    obtain ⟨⟨a, t⟩, ht, hstep⟩ := Violation.bind_eq_ok_iff.mp hstep
    cases hstep
    have hsilent : a.order? d.name = none := by
      rw [takeArm_eq_stop] at ht
      obtain ⟨rfl, -⟩ := Prod.mk.inj (Mode.eq_of_stop_eq_ok ht)
      exact order?_lastArm hx.nodup hearlier
    refine ⟨.arm a, { y with
      scope := t.ahead d slot inherited, shelf := x.shelf.keep label [a] }, ?_,
      rfl, h.slots, rfl, h.silent_keep label hsilent⟩
    rw [Session.step, h.scope, takeArm_ahead ht, h.shelf]
    rfl
  | joinArms refs exhaustive =>
    cases hstep
    refine ⟨.done, _, rfl, ?_, h.slots, h.shelf, h.silent⟩
    rw [h.scope, h.shelf, joinArms_ahead]
    rintro a ha
    obtain ⟨ref, href, rfl⟩ := List.mem_map.mp ha
    exact h.order?_arm (hown ref href)
  | checkAll | recommend | report =>
    cases hstep
    exact ⟨_, _, rfl, h.scope, h.slots, h.shelf, h.silent⟩

theorem run (h : Ahead d slot inherited taken x y) (hx : x.scope.WellKept) {ops : List (Op τ)}
    {rs : List (Reply τ)} (hspares : ∀ op ∈ ops, op.spares d.name) (hown : JoinsOwn taken ops)
    (hrun : x.run mode ops = .ok (rs, z)) (hfree : z.scope.contains d.name = false) :
    ∃ qs w taken', y.run mode ops = .ok (qs, w) ∧ Ahead d slot inherited taken' z w := by
  induction ops generalizing x y taken rs with
  | nil =>
    cases hrun
    exact ⟨[], y, taken, rfl, h⟩
  | cons op ops ih =>
    obtain ⟨r, x', rs', hstep, hrest, rfl⟩ := run_cons_eq_ok_iff.mp hrun
    have hx' := (hx.outlives_step hstep).wellKept
    have hfree' : x'.scope.contains d.name = false := by
      rw [Bool.eq_false_iff] at hfree ⊢
      exact fun hbound ↦ hfree ((hx'.outlives_run hrest).contains hbound)
    obtain ⟨q, y', hy, h'⟩ := h.step hx (hspares op List.mem_cons_self) hown.1 hstep hfree'
    obtain ⟨qs, w, taken', hqs, hw⟩ :=
      ih h' hx' (fun o ho ↦ hspares o (List.mem_cons_of_mem op ho)) hown.2 hrest
    exact ⟨q :: qs, w, taken', run_cons_eq_ok_iff.mpr ⟨q, y', qs, hy, hqs, rfl⟩, hw⟩

end Ahead

omit [Storable τ] [Allocator α] [Sink ω] in
/-- At the late declaration, the variable that was ahead of all others is added behind them. -/
theorem Ahead.fronted (h : Ahead d slot inherited taken x y) :
    Fronted d.name { x with scope := x.scope.bind d slot inherited } y where
  scope := by
    refine ⟨⟨.fresh d slot inherited x.scope.depth, x.scope.bindings, [], rfl, rfl, ?_⟩, ?_, ?_⟩
    · rw [h.scope, List.append_nil]
      rfl
    · rw [h.scope]
      rfl
    · rw [h.scope]
      rfl
  slots := h.slots
  shelf := h.shelf ▸ .refl x.shelf

/-- A declaration that is accepted finds its name free, and adds its variable. -/
theorem step_declareAt_eq_done (h : x.step mode (.declareAt d slot inherited) = .ok (.done, y)) :
    x.scope.contains d.name = false ∧
      y = { x with scope := x.scope.bind d slot inherited } := by
  rw [step] at h
  split at h
  · next t ht =>
    obtain ⟨hc, rfl⟩ := declareAt_eq_ok ht
    cases h
    exact ⟨hc, rfl⟩
  · cases h

end Session

/-- Declaring late is the same as having declared early. Take a run on a scope opened with any
number of levels, with any arms on the shelf, at the end of which a variable is declared. Before
that, the variable is not called, not all variables are given a value, and only arms that were
taken in the run are joined; no level of a single variable is moved. Then the variable can as well
be declared at the very start. The scope is the same at the end, save that the variable stands at
the front: the same variable, with all its levels, and the same variables besides. And so it stays
whatever is done from there on. The turns are the same but for the sequence in which an arm has
its names and in which reports are made, up to where both runs stop by the same breach, if they
stop. What the sinks get is what the turns report. -/
theorem declaring_late_is_declaring_early [Storable τ] [Allocator α] [Sink ω] {mode : Mode}
    {depth : Nat} {slots : α} {shelf : Shelf} {sink : ω} {d : Declaration τ} {slot : SlotId}
    {inherited : Bool} {before : List (Op τ)} {rs : List (Reply τ)} {late : Session τ α ω}
    (hbefore : ∀ op ∈ before, op.movesOne = false ∧ op.spares d.name)
    (hown : JoinsOwn [] before)
    (hrun : Session.run mode ⟨.opened depth, slots, shelf, sink⟩
      (before ++ [.declareAt d slot inherited]) = .ok (rs ++ [.done], late)) :
    ∃ qs early, Session.run mode ⟨.opened depth, slots, shelf, sink⟩
        (.declareAt d slot inherited :: before) = .ok (.done :: qs, early) ∧
      late.Fronted d.name early ∧
      (∀ name, early.scope.find? name = late.scope.find? name) ∧
      ∀ after, (∀ op ∈ after, op.movesOne = false) →
        (late.turns mode after).Forall₂ (Turn.Fronted d.name) (early.turns mode after) ∧
        Matched (fun p q ↦
            p.1.Forall₂ Reply.Agrees q.1 ∧ p.2.Fronted d.name q.2 ∧
            p.2.sink = emitAll late.sink ((late.turns mode after).flatMap Turn.reports) ∧
            q.2.sink = emitAll early.sink ((early.turns mode after).flatMap Turn.reports))
          (late.run mode after) (early.run mode after) := by
  have hmoves : ∀ op ∈ before, op.movesOne = false := fun op hop ↦ (hbefore op hop).1
  obtain ⟨rs', z, r, hz, hlate, hrs⟩ := Session.run_concat_eq_ok_iff.mp hrun
  obtain ⟨rfl, rfl⟩ := List.append_singleton_inj.mp hrs
  obtain ⟨hfree, rfl⟩ := Session.step_declareAt_eq_done hlate
  -- In the empty scope the variable stands ahead of all others, and there it stays.
  have hahead : Session.Ahead d slot inherited [] ⟨.opened depth, slots, shelf, sink⟩
      ⟨(opened depth : Scope τ).bind d slot inherited, slots, shelf, sink⟩ :=
    ⟨rfl, rfl, rfl, fun _ hl ↦ absurd hl List.not_mem_nil⟩
  obtain ⟨qs, early, taken, hearly, hahead⟩ :=
    hahead.run (wellKept_opened depth) (fun op hop ↦ (hbefore op hop).2) hown hz hfree
  have hearly : Session.run mode ⟨.opened depth, slots, shelf, sink⟩
      (.declareAt d slot inherited :: before) = .ok (.done :: qs, early) :=
    Session.run_cons_eq_ok_iff.mpr ⟨.done, _, qs, rfl, hearly, rfl⟩
  have hfronted := hahead.fronted
  -- Both scopes are in step, since no level of a single variable was moved.
  have hlate' : (z.scope.bind d slot inherited).InStep :=
    (Reached.of_run (.opened depth) hmoves hz).inStep.bind slot inherited hfree
  have hearly' : early.scope.InStep :=
    (Reached.of_run (.opened depth) (List.forall_mem_cons.mpr ⟨rfl, hmoves⟩) hearly).inStep
  refine ⟨qs, early, hearly, hfronted, hfronted.scope.find?_eq hearly'.nodup, fun after hafter ↦ ?_⟩
  obtain ⟨hturns, hmatched⟩ := hfronted.run hlate' hearly' mode hafter
  refine ⟨hturns, ?_⟩
  rcases hmatched.cases with ⟨e, hs, ht⟩ | ⟨p, q, hs, ht, hreplies, hpq⟩
  · rw [hs, ht]
    exact rfl
  · rw [hs, ht]
    exact ⟨hreplies, hpq, Session.sink_of_turns hs, Session.sink_of_turns ht⟩

/-- A variable is declared two levels deep, after an arm was joined, and is given a value there.
Declared at the start, it lives through the arm, through both levels and through a pop that a
lenient analysis lets pass. It ends up as the same variable, and there are the same two warnings,
of which its own comes first. -/
theorem declaring_two_levels_deep_is_declaring_early :
    let d (name : String) : Declaration Layout := ⟨name, ⟨1, false⟩, false, default⟩
    let declaration : Op Layout := .declareAt (d "x") ⟨7⟩ false
    let before : List (Op Layout) :=
      [.foldLevel, .declareAt (d "y") ⟨0⟩ false, .pushLevel, .demand "y" (.define 1),
        .takeArm "arm", .joinArms [.kept "arm" 0] true, .pushLevel, .pushLevel]
    let after : List (Op Layout) :=
      [.demand "x" (.define 2), .takeArm "inner", .joinArms [.kept "inner" 0] true, .foldLevel,
        .foldLevel, .recommend]
    let x : Session Layout SlotCounter Log := ⟨.opened 0, {}, .empty, .empty⟩
    (∀ op ∈ before, op.movesOne = false ∧ op.spares "x") ∧ JoinsOwn [] before ∧
      ∃ rs late qs early, x.run .lenient (before ++ [declaration]) = .ok (rs ++ [.done], late) ∧
        x.run .lenient (declaration :: before) = .ok (.done :: qs, early) ∧
        late.scope.names = ["y", "x"] ∧ early.scope.names = ["x", "y"] ∧
        early.scope.find? "x" = late.scope.find? "x" ∧
        ∃ ps y os z, late.run .lenient after = .ok (ps, y) ∧
          early.run .lenient after = .ok (os, z) ∧
          y.Fronted "x" z ∧ y.scope.current "x" = some 2 ∧
          y.sink.warnings.map (·.kind.name) = ["y", "x"] ∧
          z.sink.warnings.map (·.kind.name) = ["x", "y"] := by
  intro d declaration before after x
  have hbefore : ∀ op ∈ before, op.movesOne = false ∧ op.spares "x" := by decide
  have hown : JoinsOwn [] before := by
    simp [before, JoinsOwn, Op.JoinsAmong, Op.label?, ArmRef.Among]
  obtain ⟨rs, late, hlate, hnames, ps, y, hy, hcurrent, hwarnings⟩ : ∃ rs late,
      x.run .lenient (before ++ [declaration]) = .ok (rs ++ [.done], late) ∧
      late.scope.names = ["y", "x"] ∧
      ∃ ps y, late.run .lenient after = .ok (ps, y) ∧ y.scope.current "x" = some 2 ∧
        y.sink.warnings.map (·.kind.name) = ["y", "x"] := by
    refine ⟨[.done, .done, .done, .variable .done, .arm ⟨[("y", 1)]⟩, .done, .done, .done], _,
      rfl, rfl, ?_⟩
    exact ⟨_, _, rfl, rfl, by decide +kernel⟩
  obtain ⟨qs, early, hearly, hnames', os, z, hz, hwarnings'⟩ : ∃ qs early,
      x.run .lenient (declaration :: before) = .ok (.done :: qs, early) ∧
      early.scope.names = ["x", "y"] ∧
      ∃ os z, early.run .lenient after = .ok (os, z) ∧
        z.sink.warnings.map (·.kind.name) = ["x", "y"] := by
    refine ⟨_, _, rfl, rfl, ?_⟩
    exact ⟨_, _, rfl, by decide +kernel⟩
  obtain ⟨ps', w, hw, -, hfound, hafter⟩ := declaring_late_is_declaring_early hbefore hown hlate
  cases hearly.symm.trans hw
  obtain ⟨-, hmatched⟩ := hafter after (by decide)
  rw [hy, hz] at hmatched
  exact ⟨hbefore, hown, rs, late, _, _, hlate, hearly, hnames, hnames', hfound "x", ps, y, os, z,
    hy, hz, hmatched.2.1, hcurrent, hwarnings, hwarnings'⟩

end Scope

end DefiniteAssignment
