import DefiniteAssignment.Proofs.Scope.Twins

/-!
# What a recommendation is worth

A variable is recommended to be frozen if it was never mutated. Here the recommendation is
followed: the same is done once more, with the variable declared frozen. The two runs go on
together, with values at the same levels, and the variable is mutated in the first exactly if
an assignment of it was refused in the second. So the recommendation is made exactly where no
assignment would be refused by following it.
-/

namespace DefiniteAssignment.Scope

variable {τ α ω : Type}

/-! ## Two scopes -/

/-- Two scopes that differ in one variable, if they bind it. -/
structure Beside (name : String) (told : Bool) (s t : Scope τ) : Prop where
  bindings : s.bindings.Forall₂ (Variable.Beside name told) t.bindings
  size : t.size = s.size
  depth : t.depth = s.depth

/-- A scope that does not bind the name is what it is beside itself. -/
theorem beside_refl {name : String} {s : Scope τ} (told : Bool) (h : s.contains name = false) :
    Beside name told s s := by
  refine ⟨List.forall₂_same.mpr fun v hv ↦ .other ?_, rfl, rfl⟩
  rintro rfl
  have hn : v.name ∈ s.names := List.mem_map_of_mem hv
  rw [mem_names_iff, h] at hn
  cases hn

namespace Beside

variable {name : String} {told : Bool} {s t : Scope τ}

theorem names_eq (h : Beside name told s t) : t.names = s.names :=
  map_eq_of_forall₂ (fun _ _ hvw ↦ hvw.name_eq) h.bindings

theorem contains_eq (h : Beside name told s t) (n : String) : t.contains n = s.contains n := by
  rw [Bool.eq_iff_iff, ← mem_names_iff, ← mem_names_iff, h.names_eq]

theorem find?_cases (h : Beside name told s t) (n : String) :
    (s.find? n = none ∧ t.find? n = none) ∨
      ∃ v w, s.find? n = some v ∧ t.find? n = some w ∧ Variable.Beside name told v w :=
  Variable.Beside.find?_cases h.bindings n

theorem map {told' : Bool} {g g' : Variable τ → Variable τ} (h : Beside name told s t)
    (hg : ∀ v w, Variable.Beside name told v w → Variable.Beside name told' (g v) (g' w))
    (depth : Nat) : Beside name told' (s.mapAll g depth) (t.mapAll g' depth) where
  bindings := by
    simp only [mapAll, List.forall₂_map_left_iff, List.forall₂_map_right_iff]
    exact h.bindings.imp hg
  size := h.size
  depth := rfl

/-- One variable is put in the place of another. Where it is not the one that differs, nothing
is told by that. -/
theorem set {told' : Bool} {n : String} {v w : Variable τ} (h : Beside name told s t)
    (hvw : Variable.Beside name told' v w) (htold : n ≠ name → told' = told) :
    Beside name told' (s.set n v) (t.set n w) := by
  rw [set_eq_mapAll, set_eq_mapAll, h.depth]
  refine h.map (fun u u' hu ↦ ?_) s.depth
  rw [hu.name_eq]
  split
  · exact hvw
  · next hn =>
    cases hu with
    | other hne => exact .other hne
    | twins heq hu =>
      rw [htold fun h ↦ hn (heq.trans h.symm)]
      exact .twins heq hu

/-! ### Operations -/

/-- The scopes after a call, and whether its answer says that a mutation was refused. -/
theorem set_call (h : Beside name told s t) (mode : Mode) {n : String} {c : Variable.Call}
    (hc : n = name → c ≠ .markMutated) {v w : Variable τ} (hv : s.find? n = some v)
    (hvw : Variable.Beside name told v w) :
    Matched (fun p p' ↦ Beside name (told || p'.1.refusesMutation name) (s.set n p.2)
      (t.set n p'.2)) (v.call mode c) (w.call mode c) := by
  have hn : v.name = n := name_of_find? hv
  rcases (hvw.call mode fun h ↦ hc (hn.symm.trans h)).cases with
    ⟨e, hv', hw'⟩ | ⟨⟨q, v'⟩, ⟨q', w'⟩, hv', hw', hvw'⟩
  · rw [hv', hw']
    exact rfl
  · rw [hv', hw']
    refine h.set hvw' fun hne ↦ ?_
    -- What another variable answers is not about this one.
    have hq : q'.refusesMutation name = false := by
      rw [Bool.eq_false_iff]
      intro hq
      have hname := Variable.name_of_refusesMutation hw' hq
      rw [hvw.name_eq, hn] at hname
      exact hne hname
    exact (congrArg (told || ·) hq).trans (Bool.or_false told)

theorem call (h : Beside name told s t) (mode : Mode) {n : String} {c : Variable.Call}
    (hc : n = name → c ≠ .markMutated) :
    Matched (fun p p' ↦ Beside name (told || p'.1.any (·.refusesMutation name)) p.2 p'.2)
      (s.call mode n c) (t.call mode n c) := by
  rcases h.find?_cases n with ⟨hs, ht⟩ | ⟨v, w, hv, hw, hvw⟩
  · rw [call_of_find?_eq_none hs, call_of_find?_eq_none ht]
    have hsame : Beside name (told || false) s t := by rwa [Bool.or_false]
    exact hsame
  · rw [call_of_find?_eq_some hv, call_of_find?_eq_some hw]
    exact (h.set_call mode hc hv hvw).map fun _ _ hst ↦ hst

theorem demand (h : Beside name told s t) (mode : Mode) {n : String} {c : Variable.Call}
    (hc : n = name → c ≠ .markMutated) :
    Matched (fun p p' ↦ Beside name (told || p'.1.refusesMutation name) p.2 p'.2)
      (s.demand mode n c) (t.demand mode n c) := by
  rcases h.find?_cases n with ⟨hs, ht⟩ | ⟨v, w, hv, hw, hvw⟩
  · rw [demand_of_find?_eq_none mode c hs, demand_of_find?_eq_none mode c ht]
    exact rfl
  · rw [demand_of_find?_eq_some mode c hv, demand_of_find?_eq_some mode c hw]
    exact (h.set_call mode hc hv hvw).map fun _ _ hst ↦ hst

theorem popBreach?_eq (h : Beside name told s t) : t.popBreach? = s.popBreach? := by
  have hall : t.bindings.map Variable.popBreach? = s.bindings.map Variable.popBreach? :=
    map_eq_of_forall₂ (fun _ _ hvw ↦ hvw.popBreach?_eq) h.bindings
  have hfirst (u : Scope τ) : u.bindings.findSome? Variable.popBreach? =
      (u.bindings.map Variable.popBreach?).findSome? id := by
    rw [List.findSome?_map, Function.id_comp]
  rw [popBreach?, popBreach?, h.depth, hfirst, hfirst, hall]

theorem pushLevel (h : Beside name told s t) : Beside name told s.pushLevel t.pushLevel where
  bindings := (h.map (fun _ _ ↦ Variable.Beside.map .pushLevel .pushLevel (fun _ ↦ rfl)
    (fun _ _ ↦ rfl) fun _ _ htwins ↦ htwins.pushLevel) s.depth).bindings
  size := h.size
  depth := congrArg (· + 1) h.depth

theorem setAll (h : Beside name told s t) (initial : Bool) :
    Beside name told (s.setAll initial) (t.setAll initial) := by
  rw [setAll_eq_mapAll, setAll_eq_mapAll, h.depth]
  refine h.map (fun v w ↦ ?_) s.depth
  cases initial with
  | true =>
    exact Variable.Beside.map (.define 0) (.define 0) (fun _ ↦ rfl) (fun _ _ ↦ rfl)
      fun _ _ htwins ↦ htwins.define 0 0
  | false =>
    exact Variable.Beside.map .undefine .undefine (fun _ ↦ rfl) (fun _ _ ↦ rfl)
      fun _ _ htwins ↦ htwins.undefine

theorem folded (h : Beside name told s t) : Beside name told s.folded t.folded := by
  rw [Scope.folded, Scope.folded, h.depth]
  split
  · exact h
  · refine h.map (fun _ _ ↦ Variable.Beside.map .folded .folded (fun v ↦ ?_) (fun _ _ ↦ rfl)
      fun _ _ htwins ↦ htwins.folded) _
    exact Variable.name_eq_of_identity v.identity_folded

theorem shed (h : Beside name told s t) : Beside name told s.shed t.shed := by
  rw [Scope.shed, Scope.shed, h.depth]
  split
  · exact h
  · refine h.map (fun _ _ ↦ Variable.Beside.map .shed .shed (fun v ↦ ?_) (fun _ _ ↦ rfl)
      fun _ _ htwins ↦ htwins.shed) _
    exact Variable.name_eq_of_identity v.identity_shed

/-- What is known of a name is as much in both, and the same of every other name. -/
theorem current (h : Beside name told s t) (n : String) :
    (t.current n).isSome = (s.current n).isSome ∧ (n ≠ name → t.current n = s.current n) := by
  rw [Scope.current, Scope.current]
  rcases h.find?_cases n with ⟨hs, ht⟩ | ⟨v, w, hv, hw, hvw⟩
  · rw [hs, ht]
    exact ⟨rfl, fun _ ↦ rfl⟩
  · rw [hv, hw]
    refine ⟨hvw.initialized_eq, fun hn ↦ ?_⟩
    cases hvw with
    | other => rfl
    | twins hname => exact absurd ((name_of_find? hv).symm.trans hname) hn

theorem lastArm (h : Beside name told s t) (hs : s.names.Nodup) :
    Arm.Beside name s.lastArm t.lastArm := by
  have ht : t.names.Nodup := by rwa [h.names_eq]
  rw [Scope.lastArm, Scope.lastArm, h.depth]
  split
  · exact Arm.beside_refl name .empty
  · intro n
    rw [order?_knowledge hs, order?_knowledge ht]
    exact h.current n

theorem joinArms (h : Beside name told s t) {as bs : List Arm}
    (hab : as.Forall₂ (Arm.Beside name) bs) (exhaustive : Bool) :
    Beside name told (s.joinArms as exhaustive) (t.joinArms bs exhaustive) := by
  cases exhaustive with
  | false => exact h
  | true =>
    have hmeet := Arm.beside_meet hab
    rw [joinArms_true, joinArms_true, h.depth]
    refine h.map (fun _ _ ↦ Variable.Beside.map _ _ (fun v ↦ ?_) (fun v hn ↦ ?_)
      fun _ _ htwins ↦ ?_) s.depth
    · exact Variable.name_eq_of_identity (v.identity_settle _)
    · rw [Variable.settle, Variable.settle, (hmeet v.name).2 hn]
    · exact htwins.settle hmeet

/-! ### Declarations -/

theorem bind {d e : Declaration τ} {slot : SlotId} {inherited : Bool} (h : Beside name told s t)
    (hde : Variable.Beside name told (.fresh d slot inherited s.depth)
      (.fresh e slot inherited s.depth)) :
    Beside name told (s.bind d slot inherited) (t.bind e slot inherited) := by
  refine ⟨List.rel_append h.bindings ?_, h.size, h.depth⟩
  rw [h.depth]
  exact .cons hde .nil

theorem resize (h : Beside name told s t) (size : UInt64) :
    Beside name told ({ s with size := size } : Scope τ) { t with size := size } :=
  ⟨h.bindings, rfl, h.depth⟩

theorem declareAt (h : Beside name told s t) (d : Declaration τ) (slot : SlotId)
    (inherited frozen : Bool)
    (hfresh : s.contains d.name = false → Variable.Beside name told
      (.fresh d slot inherited s.depth)
      (.fresh { d with frozen := frozen } slot inherited s.depth)) :
    Matched (Beside name told) (s.declareAt d slot inherited)
      (t.declareAt { d with frozen := frozen } slot inherited) := by
  rw [Scope.declareAt, Scope.declareAt, h.contains_eq]
  cases hd : s.contains d.name with
  | true => exact rfl
  | false => exact h.bind (hfresh hd)

variable [Storable τ] [Allocator α]

/-- A declaration reserves as much whether it says that the variable is frozen or not. -/
theorem declare (h : Beside name told s t) (mode : Mode) (slots : α) (d : Declaration τ)
    (frozen : Bool)
    (hfresh : s.contains d.name = false → ∀ slot, Variable.Beside name told
      (.fresh d slot false s.depth) (.fresh { d with frozen := frozen } slot false s.depth)) :
    Matched (Matched fun p p' ↦ Beside name told p.1 p'.1 ∧ p'.2 = p.2)
      (s.declare mode slots d) (t.declare mode slots { d with frozen := frozen }) := by
  rw [Scope.declare, Scope.declare, h.contains_eq]
  cases hd : s.contains d.name with
  | true => exact rfl
  | false =>
    refine (matched_refl (Allocator.reserve mode slots (Storable.storageSize d.ty))).bind ?_
    rintro ⟨slot, given⟩ _ rfl
    simp only [grow_eq_stop, Mode.bind_stop, h.size]
    exact matched_stop mode _ ⟨(h.resize _).bind (hfresh hd slot), rfl⟩

theorem reserveInternal (h : Beside name told s t) (mode : Mode) (slots : α) (ty : τ) :
    Matched (fun p p' ↦ Beside name told p.2.1 p'.2.1 ∧ p'.2.2 = p.2.2)
      (s.reserveInternal mode slots ty) (t.reserveInternal mode slots ty) := by
  simp only [Scope.reserveInternal, grow_eq_stop, Mode.bind_stop, h.size]
  refine matched_stop mode _ ?_
  refine (matched_refl (Allocator.reserve mode slots (Storable.storageSize ty))).bind ?_
  rintro ⟨slot, given⟩ _ rfl
  exact ⟨h.resize _, rfl⟩

end Beside

/-! ## Two sessions -/

/-- The answer that an assignment of the variable was refused. -/
def Reply.refuses (name : String) : Reply τ → Bool
  | .variable q => q.refusesMutation name
  | _ => false

/-- An operation by which the analysis says for itself that the variable is mutated. -/
def Op.marks (name : String) : Op τ → Bool
  | .call n .markMutated | .demand n .markMutated => n = name
  | _ => false

/-- The variable that an operation declares. -/
def Op.declares? : Op τ → Option String
  | .declare d | .declareAt d _ _ => some d.name
  | _ => none

/-- A declaration that says whether the variable is frozen. -/
def Op.freezing (frozen : Bool) : Op τ → Op τ
  | .declare d => .declare { d with frozen := frozen }
  | .declareAt d slot inherited => .declareAt { d with frozen := frozen } slot inherited
  | op => op

namespace Session

/-- Two sessions whose scopes, and whose arms that are kept, differ in one variable. -/
structure Beside (name : String) (told : Bool) (x y : Session τ α ω) : Prop where
  scope : Scope.Beside name told x.scope y.scope
  slots : y.slots = x.slots
  arms (label : String) : (x.shelf.arms label).Forall₂ (Arm.Beside name) (y.shelf.arms label)

namespace Beside

variable {name : String} {told : Bool} {x y : Session τ α ω}

theorem arm (h : Beside name told x y) (ref : ArmRef) :
    Arm.Beside name (x.shelf.arm ref) (y.shelf.arm ref) := by
  cases ref with
  | nothing => exact Arm.beside_refl name .empty
  | kept label index => exact Arm.beside_getElem? (h.arms label) index

theorem keep (h : Beside name told x y) {a b : Arm} (hab : Arm.Beside name a b)
    (label other : String) : ((x.shelf.keep label [a]).arms other).Forall₂ (Arm.Beside name)
      ((y.shelf.keep label [b]).arms other) := by
  by_cases hl : other = label
  · subst hl
    rw [Shelf.arms_keep_self, Shelf.arms_keep_self]
    exact .cons hab .nil
  · rw [Shelf.arms_keep_of_ne _ _ hl, Shelf.arms_keep_of_ne _ _ hl]
    exact h.arms other

/-- The answer to anything but an assignment tells nothing. -/
theorem untold {r : Reply τ} (h : Beside name told x y) (hr : r.refuses name = false) :
    Beside name (told || r.refuses name) x y := by
  rwa [hr, Bool.or_false]

variable [Storable τ] [Allocator α] [Sink ω]

theorem declare (h : Beside name told x y) (mode : Mode) (d : Declaration τ) (frozen : Bool)
    (hfresh : x.scope.contains d.name = false → ∀ slot, Variable.Beside name told
      (.fresh d slot false x.scope.depth)
      (.fresh { d with frozen := frozen } slot false x.scope.depth)) :
    Matched (fun p p' ↦ Beside name (told || p'.1.refuses name) p.2 p'.2)
      (x.step mode (.declare d)) (y.step mode (.declare { d with frozen := frozen })) := by
  rw [Session.step, Session.step, h.slots]
  refine (h.scope.declare mode x.slots d frozen hfresh).bind fun p p' hp ↦ ?_
  rcases hp.cases with ⟨e, rfl, rfl⟩ | ⟨⟨s, given⟩, ⟨t, _⟩, rfl, rfl, hst, rfl⟩
  · exact h.untold rfl
  · exact untold ⟨hst, rfl, h.arms⟩ rfl

theorem declareAt (h : Beside name told x y) (mode : Mode) (d : Declaration τ) (slot : SlotId)
    (inherited frozen : Bool)
    (hfresh : x.scope.contains d.name = false → Variable.Beside name told
      (.fresh d slot inherited x.scope.depth)
      (.fresh { d with frozen := frozen } slot inherited x.scope.depth)) :
    Matched (fun p p' ↦ Beside name (told || p'.1.refuses name) p.2 p'.2)
      (x.step mode (.declareAt d slot inherited))
      (y.step mode (.declareAt { d with frozen := frozen } slot inherited)) := by
  rw [Session.step, Session.step]
  rcases (h.scope.declareAt d slot inherited frozen hfresh).cases with
    ⟨e, hs, ht⟩ | ⟨s, t, hs, ht, hst⟩
  · rw [hs, ht]
    exact h.untold rfl
  · rw [hs, ht]
    exact untold ⟨hst, h.slots, h.arms⟩ rfl

theorem step (h : Beside name told x y) (mode : Mode) {op : Op τ} (hx : x.scope.names.Nodup)
    (hbound : x.scope.contains name) (hop : op.marks name = false) :
    Matched (fun p p' ↦ Beside name (told || p'.1.refuses name) p.2 p'.2)
      (x.step mode op) (y.step mode op) := by
  have hother {d : Declaration τ} (hd : x.scope.contains d.name = false) : d.name ≠ name := by
    intro hn
    rw [hn, hbound] at hd
    cases hd
  cases op with
  | declare d => exact h.declare mode d d.frozen fun hd _ ↦ .other (hother hd)
  | declareAt d slot inherited =>
    exact h.declareAt mode d slot inherited d.frozen fun hd ↦ .other (hother hd)
  | reserveInternal ty =>
    rw [Session.step, Session.step, h.slots]
    refine (h.scope.reserveInternal mode x.slots ty).bind ?_
    rintro ⟨slot, s, given⟩ ⟨slot', t, _⟩ ⟨hst, rfl⟩
    exact untold ⟨hst, rfl, h.arms⟩ rfl
  | contains n => exact h.untold rfl
  | call n c =>
    have hc : n = name → c ≠ .markMutated := by
      rintro hn rfl
      exact of_decide_eq_false hop hn
    refine (h.scope.call mode hc).bind ?_
    rintro ⟨q, s⟩ ⟨q', t⟩ hst
    cases q' with
    | none => exact ⟨hst, h.slots, h.arms⟩
    | some q' => exact ⟨hst, h.slots, h.arms⟩
  | demand n c =>
    have hc : n = name → c ≠ .markMutated := by
      rintro hn rfl
      exact of_decide_eq_false hop hn
    refine (h.scope.demand mode hc).bind ?_
    rintro ⟨q, s⟩ ⟨q', t⟩ hst
    exact ⟨hst, h.slots, h.arms⟩
  | setAll initial => exact untold ⟨h.scope.setAll initial, h.slots, h.arms⟩ rfl
  | pushLevel => exact untold ⟨h.scope.pushLevel, h.slots, h.arms⟩ rfl
  | foldLevel =>
    simp only [Session.step, foldLevel_eq_stop, Mode.bind_stop, h.scope.popBreach?_eq]
    exact matched_stop mode _ (untold ⟨h.scope.folded, h.slots, h.arms⟩ rfl)
  | takeArm label =>
    simp only [Session.step, takeArm_eq_stop, Mode.bind_stop, h.scope.popBreach?_eq]
    exact matched_stop mode _
      (untold ⟨h.scope.shed, h.slots, h.keep (h.scope.lastArm hx) label⟩ rfl)
  | joinArms arms exhaustive =>
    refine untold ⟨h.scope.joinArms ?_ exhaustive, h.slots, h.arms⟩ rfl
    rw [List.forall₂_map_left_iff, List.forall₂_map_right_iff, List.forall₂_same]
    exact fun ref _ ↦ h.arm ref
  | checkAll span kindOf => exact untold ⟨h.scope, h.slots, h.arms⟩ rfl
  | recommend => exact untold ⟨h.scope, h.slots, h.arms⟩ rfl
  | report r => exact untold ⟨h.scope, h.slots, h.arms⟩ rfl

/-- What the answers in the second run tell. -/
theorem run (h : Beside name told x y) (mode : Mode) {ops : List (Op τ)}
    (hx : x.scope.WellKept) (hbound : x.scope.contains name)
    (hops : ∀ op ∈ ops, op.marks name = false) :
    Matched (fun p p' ↦ Beside name (told || p'.1.any (·.refuses name)) p.2 p'.2)
      (x.run mode ops) (y.run mode ops) := by
  induction ops generalizing x y told with
  | nil =>
    have hsame : Beside name (told || false) x y := by rwa [Bool.or_false]
    exact hsame
  | cons op ops ih =>
    rw [Session.run_cons, Session.run_cons]
    rcases (h.step mode hx.nodup hbound (hops op List.mem_cons_self)).cases with
      ⟨e, hs, ht⟩ | ⟨⟨r, x'⟩, ⟨r', y'⟩, hs, ht, h'⟩
    · rw [hs, ht]
      exact rfl
    · rw [hs, ht]
      have hx' := hx.outlives_step hs
      refine (ih h' hx'.wellKept (hx'.contains hbound)
        fun o ho ↦ hops o (List.mem_cons_of_mem op ho)).bind ?_
      rintro ⟨qs, p⟩ ⟨qs', p'⟩ hp
      simpa only [Matched, List.any_cons, Bool.or_assoc] using hp

end Beside

section
variable {name : String} {mode : Mode} {x y : Session τ α ω} {op : Op τ} {r : Reply τ}
variable [Storable τ] [Allocator α] [Sink ω]

/-- An assignment can only be refused by a variable that is there. -/
theorem contains_of_refuses (h : x.step mode op = .ok (r, y)) (hr : r.refuses name) :
    x.scope.contains name := by
  have hfound {n : String} {c : Variable.Call} {q : Option (Variable.Reply τ)} {s : Scope τ}
      (hcall : x.scope.call mode n c = .ok (q, s)) (hq : q.any (·.refusesMutation name)) :
      x.scope.contains name := by
    rcases call_eq_ok hcall with ⟨-, rfl, -⟩ | ⟨v, w, q, hv, hw, rfl, -⟩
    · cases hq
    · have hn : n = name :=
        (name_of_find? hv).symm.trans (Variable.name_of_refusesMutation hw hq)
      rw [contains, ← hn, hv]
      rfl
  cases op with
  | call n c =>
    obtain ⟨⟨q, s⟩, hcall, h⟩ := Violation.bind_eq_ok_iff.mp h
    cases h
    refine hfound hcall ?_
    cases q with
    | none => cases hr
    | some q => exact hr
  | demand n c =>
    obtain ⟨⟨q, s⟩, hcall, h⟩ := Violation.bind_eq_ok_iff.mp h
    cases h
    exact hfound (call_of_demand hcall) hr
  | declare d =>
    obtain ⟨p, -, h⟩ := Violation.bind_eq_ok_iff.mp h
    cases p <;> cases h <;> cases hr
  | declareAt d slot inherited =>
    rw [step] at h
    split at h <;> cases h <;> cases hr
  | reserveInternal | foldLevel | takeArm =>
    obtain ⟨p, -, h⟩ := Violation.bind_eq_ok_iff.mp h
    cases h
    cases hr
  | contains | setAll | pushLevel | joinArms | checkAll | recommend | report =>
    cases h
    cases hr

/-- Before a variable is declared, no assignment of it is refused. -/
theorem not_refuses_of_run {ops : List (Op τ)} {rs : List (Reply τ)} (hx : x.scope.WellKept)
    (h : x.run mode ops = .ok (rs, y)) (hy : y.scope.contains name = false) :
    rs.any (·.refuses name) = false := by
  induction ops generalizing x rs with
  | nil =>
    cases h
    rfl
  | cons op ops ih =>
    obtain ⟨r, z, qs, hstep, hrun, rfl⟩ := run_cons_eq_ok_iff.mp h
    have hz := hx.outlives_step hstep
    have hr : r.refuses name = false := by
      rw [Bool.eq_false_iff]
      intro hr
      have hend :=
        (hz.trans (hz.wellKept.outlives_run hrun)).contains (contains_of_refuses hstep hr)
      rw [hy] at hend
      cases hend
    rw [List.any_cons, hr, ih hz.wellKept hrun, Bool.or_self]

/-- A name is bound once it was declared, by that declaration or by one before it. -/
theorem contains_of_declares (hop : op.declares? = some name) (h : x.step mode op = .ok (r, y)) :
    y.scope.contains name := by
  have hbind {s : Scope τ} {d : Declaration τ} {slot : SlotId} {inherited : Bool} :
      (s.bind d slot inherited).contains d.name := by
    rw [← mem_names_iff, names_bind]
    exact List.mem_append_right _ (List.mem_singleton_self d.name)
  cases op with
  | declare d =>
    cases hop
    obtain ⟨p, hp, h⟩ := Violation.bind_eq_ok_iff.mp h
    cases p with
    | error e =>
      cases h
      exact (declare_eq_refused hp).1
    | ok p =>
      cases h
      obtain ⟨-, slot, size, he⟩ := declare_eq_ok hp
      rw [he]
      exact hbind
  | declareAt d slot inherited =>
    cases hop
    cases hd : x.scope.contains d.name with
    | true =>
      rw [step, Scope.declareAt, if_pos hd] at h
      cases h
      exact hd
    | false =>
      rw [step, Scope.declareAt, hd] at h
      cases h
      exact hbind
  | _ => cases hop

/-- The name is unbound where it is declared. -/
theorem beside_of_declares (hx : x.scope.contains name = false) (hop : op.declares? = some name) :
    Matched (fun p p' ↦ Beside name (false || p'.1.refuses name) p.2 p'.2)
      (x.step mode (op.freezing false)) (x.step mode (op.freezing true)) := by
  have hself : Beside name false x x := by
    refine ⟨beside_refl false hx, rfl, fun label ↦ List.forall₂_same.mpr fun a _ ↦ ?_⟩
    exact Arm.beside_refl name a
  cases op with
  | declare d =>
    cases hop
    exact hself.declare mode { d with frozen := false } true fun _ slot ↦
      .twins rfl (.fresh d slot _ _)
  | declareAt d slot inherited =>
    cases hop
    exact hself.declareAt mode { d with frozen := false } slot inherited true fun _ ↦
      .twins rfl (.fresh d slot _ _)
  | _ => cases hop

/-- The two runs, with the question whether an assignment was refused in the second. -/
theorem beside_run {before after : List (Op τ)} {rs : List (Reply τ)} {z : Session τ α ω}
    (hx : x.scope.WellKept) (hbefore : x.run mode before = .ok (rs, z))
    (hunbound : z.scope.contains name = false) (hop : op.declares? = some name)
    (hafter : ∀ o ∈ after, o.marks name = false) :
    Matched (fun p p' ↦ Beside name (p'.1.any (·.refuses name)) p.2 p'.2 ∧
        p.2.scope.WellKept ∧ p.2.scope.contains name)
      (x.run mode (before ++ op.freezing false :: after))
      (x.run mode (before ++ op.freezing true :: after)) := by
  have hz := (hx.outlives_run hbefore).wellKept
  have hrs := not_refuses_of_run hx hbefore hunbound
  simp only [run_append, hbefore, Violation.ok_bind, run_cons]
  have hdeclares : (op.freezing false).declares? = some name := by
    cases op <;> exact hop
  rcases (beside_of_declares hunbound hop).cases with ⟨e, hs, ht⟩ | ⟨⟨r, x'⟩, ⟨r', y'⟩, hs, ht, h⟩
  · rw [hs, ht]
    exact rfl
  · rw [hs, ht]
    have hx' := hz.outlives_step hs
    have hbound := contains_of_declares hdeclares hs
    rcases (h.run mode hx'.wellKept hbound hafter).cases with
      ⟨e, hs', ht'⟩ | ⟨⟨qs, y⟩, ⟨qs', y'⟩, hs', ht', h'⟩
    · simp only [Violation.ok_bind, hs', ht']
      exact rfl
    · simp only [Violation.ok_bind, hs', ht']
      have hy := hx'.wellKept.outlives_run hs'
      refine ⟨?_, hy.wellKept, hy.contains hbound⟩
      rw [List.any_append, hrs, List.any_cons]
      exact h'

end

end Session

/-! ## What the two tell -/

namespace Beside

variable {name : String} {told : Bool} {s t : Scope τ}

theorem levels_eq (h : Beside name told s t) :
    t.bindings.map (fun v ↦ (v.name, v.levels.map Option.isSome)) =
      s.bindings.map fun v ↦ (v.name, v.levels.map Option.isSome) :=
  map_eq_of_forall₂ (fun _ _ hvw ↦ by rw [hvw.name_eq, hvw.map_isSome_levels]) h.bindings

theorem ensureInitialized_eq (h : Beside name told s t) (n : String) (span : Span) :
    (t.find? n).map (·.ensureInitialized span) = (s.find? n).map (·.ensureInitialized span) := by
  rcases h.find?_cases n with ⟨hs, ht⟩ | ⟨v, w, hv, hw, hvw⟩
  · rw [hs, ht]
  · rw [hv, hw, Option.map_some, Option.map_some, hvw.ensureInitialized_eq]

theorem uninitialized_eq [Storable τ] (h : Beside name told s t) (span : Span)
    (kindOf : String → ErrorKind) : t.uninitialized span kindOf = s.uninitialized span kindOf := by
  have hall : t.bindings.map (fun v ↦ (v.lacksValue, v.name)) =
      s.bindings.map fun v ↦ (v.lacksValue, v.name) :=
    map_eq_of_forall₂ (fun _ _ hvw ↦ by rw [hvw.lacksValue_eq, hvw.name_eq]) h.bindings
  have hlist (u : Scope τ) : u.uninitialized span kindOf =
      ((u.bindings.map fun v ↦ (v.lacksValue, v.name)).filter (·.1)).map fun p ↦
        ⟨kindOf p.2, span⟩ := by
    rw [List.filter_map, List.map_map]
    rfl
  rw [hlist, hlist, hall]

/-- Any sink gets the same from a check of the two scopes, and as much of it. -/
theorem checkAll_eq [Storable τ] [Sink ω] (h : Beside name told s t) (span : Span)
    (kindOf : String → ErrorKind) (sink : ω) :
    t.checkAll span kindOf sink = s.checkAll span kindOf sink := by
  rw [checkAll, checkAll, h.uninitialized_eq]

/-- The variable is there, and is mutated if that was told. -/
theorem exists_twins (h : Beside name told s t) (hbound : s.contains name) :
    ∃ v w, s.find? name = some v ∧ t.find? name = some w ∧ Variable.Twins told v w := by
  rcases h.find?_cases name with ⟨hs, -⟩ | ⟨v, w, hv, hw, hvw⟩
  · rw [contains, hs] at hbound
    cases hbound
  · cases hvw with
    | other hn => exact absurd (name_of_find? hv) hn
    | twins _ htwins => exact ⟨v, w, hv, hw, htwins⟩

end Beside

/-- A log gets the recommendations behind the warnings it has. -/
theorem recommend_log (s : Scope τ) (log : Log) :
    s.recommend log = { log with warnings := log.warnings ++ s.unmutated } :=
  log.emitAll_warnings s.unmutated

/-- A variable is recommended to be frozen if it could be. -/
theorem exists_neverMutated_iff {s : Scope τ} {name : String} {v : Variable τ}
    (hs : s.names.Nodup) (hv : s.find? name = some v) :
    (∃ w ∈ s.unmutated, w.kind = .neverMutated name) ↔ v.couldBeFrozen := by
  constructor
  · rintro ⟨w, hw, hkind⟩
    obtain ⟨u, hu, rfl⟩ := List.mem_map.mp hw
    obtain ⟨hu, hcould⟩ := List.mem_filter.mp hu
    rwa [← eq_of_name hs hv hu (WarningKind.neverMutated.inj hkind)]
  · intro hcould
    refine ⟨_, List.mem_map_of_mem (List.mem_filter.mpr ⟨mem_of_find? hv, hcould⟩), ?_⟩
    rw [name_of_find? hv]

/-- A recommendation to freeze a variable can be followed exactly where it is made. Take two runs
of the same operations on a scope opened with any number of levels, of which the first declares a
variable that is not frozen, and the second declares it frozen. It is not bound before that, and
nobody says for himself that it is mutated. Then both runs are stopped by the same breach, or both
go through, however far the operations reach. In the two scopes each variable has values at the
same levels. So whoever asks for the value of one variable is told the same, and a check of all of
them hands any sink the same reports and counts as many. The variable is mutated in the first run
if and only if an assignment of it was refused in the second. And so it is recommended to be
frozen in the first run, in the advice that a log gets behind the warnings it has, if and only if
the second, in which it is frozen, refused nothing. -/
theorem recommended_iff_freezing_refuses_nothing [Storable τ] [Allocator α] [Sink ω] (mode : Mode)
    (depth : Nat) (slots : α) (shelf : Shelf) (sink : ω) {name : String} {op : Op τ}
    {before after : List (Op τ)} {rs : List (Reply τ)} {z : Session τ α ω} :
    let x : Session τ α ω := ⟨.opened depth, slots, shelf, sink⟩
    x.run mode before = .ok (rs, z) → z.scope.contains name = false → op.declares? = some name →
    (∀ o ∈ after, o.marks name = false) →
      Matched (fun (_, y) (answers, y') ↦
          let refused := ∃ r ∈ answers, r.refuses name
          y'.scope.bindings.map (fun v ↦ (v.name, v.levels.map Option.isSome)) =
              y.scope.bindings.map (fun v ↦ (v.name, v.levels.map Option.isSome)) ∧
            (∀ n span, (y'.scope.find? n).map (·.ensureInitialized span) =
              (y.scope.find? n).map (·.ensureInitialized span)) ∧
            (∀ {κ : Type} [Sink κ] (seen : κ) span kindOf,
              y'.scope.checkAll span kindOf seen = y.scope.checkAll span kindOf seen) ∧
            (∃ v, y.scope.find? name = some v ∧ (v.mutated ↔ refused)) ∧
            ∀ log : Log, ∃ advice,
              y.scope.recommend log = { log with warnings := log.warnings ++ advice } ∧
                ((∃ w ∈ advice, w.kind = .neverMutated name) ↔ ¬refused))
        (x.run mode (before ++ op.freezing false :: after))
        (x.run mode (before ++ op.freezing true :: after)) := by
  intro x hbefore hunbound hop hafter
  rcases (Session.beside_run (wellKept_opened depth) hbefore hunbound hop hafter).cases with
    ⟨e, hs, ht⟩ | ⟨⟨_, y⟩, ⟨answers, y'⟩, hs, ht, h, hy, hbound⟩
  · rw [hs, ht]
    exact rfl
  · rw [hs, ht]
    obtain ⟨v, w, hv, -, htwins⟩ := h.scope.exists_twins hbound
    have hrefused : v.mutated ↔ ∃ r ∈ answers, r.refuses name := by
      rw [htwins.mutated, List.any_eq_true]
    refine ⟨h.scope.levels_eq, h.scope.ensureInitialized_eq,
      fun seen span kindOf ↦ h.scope.checkAll_eq span kindOf seen, ⟨v, hv, hrefused⟩,
      fun log ↦ ⟨y.scope.unmutated, y.scope.recommend_log log, ?_⟩⟩
    rw [exists_neverMutated_iff hy.nodup hv, ← hrefused, Variable.couldBeFrozen, htwins.frozen,
      Bool.not_false, Bool.true_and, Bool.not_eq_true', Bool.not_eq_true]

/-- A variable that is assigned once more in an arm. Where it is frozen the assignment is refused,
and the arm brings back another order, but a value all the same, so a check finds fault with the
other variable alone. That one is recommended to be frozen, and the one that was reassigned is
not. -/
theorem reassigned_in_arm_not_recommended :
    let x : Session Layout SlotCounter Log := ⟨.opened 0, {}, .empty, .empty⟩
    let op : Op Layout := .declare ⟨"x", ⟨1, false⟩, false, default⟩
    let after : List (Op Layout) :=
      [.call "x" (.define 1), .pushLevel, .call "x" (.assign 2 default), .takeArm "arm",
        .call "x" .undefine, .joinArms [.kept "arm" 0] true,
        .declare ⟨"y", ⟨1, false⟩, false, default⟩]
    let found : Log := ⟨[⟨.uninitializedInstance "y", default⟩], []⟩
    ∃ rs y answers y', x.run .strict (op.freezing false :: after) = .ok (rs, y) ∧
      x.run .strict (op.freezing true :: after) = .ok (answers, y') ∧
      y.scope.current "x" = some 2 ∧ y'.scope.current "x" = some 1 ∧
      (∃ r ∈ answers, r.refuses "x") ∧
      y.scope.checkAll default .uninitializedInstance Log.empty = (1, found) ∧
      y'.scope.checkAll default .uninitializedInstance Log.empty = (1, found) ∧
      (∃ w ∈ (y.scope.recommend Log.empty).warnings, w.kind = .neverMutated "y") ∧
      ¬∃ w ∈ (y.scope.recommend Log.empty).warnings, w.kind = .neverMutated "x" := by
  intro x op after found
  have hafter : ∀ o ∈ after, o.marks "x" = false := by decide
  obtain ⟨rs, y, hy, hcurrent, hcheck, hother⟩ : ∃ rs y,
      x.run .strict (op.freezing false :: after) = .ok (rs, y) ∧ y.scope.current "x" = some 2 ∧
        y.scope.checkAll default .uninitializedInstance Log.empty = (1, found) ∧
        ∃ w ∈ (y.scope.recommend Log.empty).warnings, w.kind = .neverMutated "y" :=
    ⟨_, _, rfl, rfl, rfl, _, List.mem_cons_self, rfl⟩
  obtain ⟨answers, y', hy', hcurrent', hrefused⟩ : ∃ answers y',
      x.run .strict (op.freezing true :: after) = .ok (answers, y') ∧
        y'.scope.current "x" = some 1 ∧ answers.any (·.refuses "x") := ⟨_, _, rfl, rfl, rfl⟩
  have hbefore : x.run .strict [] = .ok ([], x) := rfl
  have hop : op.declares? = some "x" := rfl
  have h := recommended_iff_freezing_refuses_nothing .strict 0 _ .empty Log.empty hbefore rfl hop
    hafter
  rw [List.nil_append, List.nil_append, hy, hy'] at h
  obtain ⟨-, -, hsame, -, hadvice⟩ := h
  have hcheck' : y'.scope.checkAll default .uninitializedInstance Log.empty = (1, found) :=
    (hsame Log.empty default .uninitializedInstance).trans hcheck
  have hanswer := List.any_eq_true.mp hrefused
  obtain ⟨advice, hlog, hname⟩ := hadvice Log.empty
  have hwarnings : (y.scope.recommend Log.empty).warnings = advice := by
    rw [hlog]
    rfl
  refine ⟨rs, y, answers, y', hy, hy', hcurrent, hcurrent', hanswer, hcheck, hcheck', hother, ?_⟩
  rw [hwarnings]
  exact fun hw ↦ hname.mp hw hanswer

end DefiniteAssignment.Scope
