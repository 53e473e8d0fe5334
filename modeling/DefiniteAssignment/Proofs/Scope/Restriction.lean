import DefiniteAssignment.Arm.Shelf
import DefiniteAssignment.Proofs.Contract.Scope
import DefiniteAssignment.Proofs.Scope.Reached

/-!
# Scopes restricted to some names

A scope, an arm or the shelf with everything taken out that is about names outside of a
given set. Each operation on a scope commutes with this. An operation on all variables does
to those that are left what it did to all of them. An operation on one variable does the
same where its name is in the set, and nothing where it is not. Joining arms commutes as
well: the meet of arms is taken name by name, although an arm holds the facts of all
variables in one sequence.

Where an operation can break the contract, it cannot do so on fewer variables if it does not
do so on all of them.
-/

namespace DefiniteAssignment

variable {τ : Type} {N : String → Bool}

/-! ## Arms -/

namespace Arm

/-- What an arm says about the names in a set. -/
def restrict (N : String → Bool) (a : Arm) : Arm := ⟨a.entries.filter fun e ↦ N e.1⟩

theorem order?_restrict (a : Arm) {name : String} (h : N name) :
    (a.restrict N).order? name = a.order? name := by
  rw [restrict, order?, lookup_filter_key N, if_pos h]
  rfl

theorem restrict_ofLevels (taken : List (Level × Variable τ)) :
    (ofLevels taken).restrict N = ofLevels (taken.filter fun p ↦ N p.2.name) := by
  induction taken with
  | nil => rfl
  | cons p taken ih =>
    obtain ⟨l, v⟩ := p
    simp only [restrict, ofLevels, mk.injEq] at ih
    cases hN : N v.name <;> cases l <;> simp [restrict, ofLevels, hN, ih]

end Arm

namespace Shelf

/-- What lies on the shelf, as far as it is about the names in a set. -/
def restrict (N : String → Bool) (s : Shelf) : Shelf :=
  ⟨s.stock.map fun p ↦ (p.1, p.2.map (·.restrict N))⟩

theorem arms_restrict (s : Shelf) (label : String) :
    (s.restrict N).arms label = (s.arms label).map (·.restrict N) := by
  obtain ⟨stock⟩ := s
  induction stock with
  | nil => rfl
  | cons p stock ih =>
    obtain ⟨key, kept⟩ := p
    simp only [arms, restrict, List.map_cons, List.lookup_cons] at ih ⊢
    split
    · rfl
    · exact ih

theorem arm_restrict (s : Shelf) (ref : ArmRef) :
    (s.restrict N).arm ref = (s.arm ref).restrict N := by
  cases ref with
  | nothing => rfl
  | kept label index =>
    rw [arm, arm, arms_restrict, List.getElem?_map]
    cases (s.arms label)[index]? <;> rfl

end Shelf

/-- All that matters of an arm for a variable is what it says of its name. -/
theorem Variable.settle_congr {a b : Arm} {v : Variable τ}
    (h : a.order? v.name = b.order? v.name) : v.settle a = v.settle b := by
  unfold settle
  rw [h]

namespace Scope

/-- The bindings of the names in a set, in the sequence in which they stand. -/
def restrict (N : String → Bool) (s : Scope τ) : Scope τ :=
  { s with bindings := s.bindings.filter fun v ↦ N v.name }

section
variable {s t : Scope τ} {name : String}

@[simp] theorem depth_restrict (s : Scope τ) : (s.restrict N).depth = s.depth := rfl

/-! ## Names -/

theorem find?_restrict (s : Scope τ) (h : N name) :
    (s.restrict N).find? name = s.find? name := by
  rw [find?, find?, restrict, List.find?_filter]
  congr 1
  funext v
  by_cases hv : v.name = name
  · simp [hv, h]
  · simp [hv]

theorem contains_restrict (s : Scope τ) (h : N name) :
    (s.restrict N).contains name = s.contains name := by
  rw [contains, find?_restrict s h, contains]

/-! ## All variables -/

theorem filter_map_of_name {g : Variable τ → Variable τ} (hg : ∀ v, (g v).name = v.name)
    (vs : List (Variable τ)) :
    (vs.map g).filter (fun v ↦ N v.name) = (vs.filter fun v ↦ N v.name).map g := by
  rw [List.filter_map]
  simp only [Function.comp_def, hg]

theorem restrict_mapAll {g : Variable τ → Variable τ} (hg : ∀ v, (g v).name = v.name)
    (depth : Nat) (s : Scope τ) :
    (s.mapAll g depth).restrict N = (s.restrict N).mapAll g depth := by
  simp only [restrict, mapAll, filter_map_of_name hg]

theorem restrict_setAll (initial : Bool) (s : Scope τ) :
    (s.setAll initial).restrict N = (s.restrict N).setAll initial :=
  restrict_mapAll (fun v ↦ Variable.name_eq_of_identity (identity_setAll initial v)) _ s

theorem restrict_pushLevel (s : Scope τ) :
    s.pushLevel.restrict N = (s.restrict N).pushLevel :=
  restrict_mapAll (fun v ↦ Variable.name_eq_of_identity v.identity_pushLevel) _ s

/-- All variables are left in the same way, or none where no level is pushed. -/
theorem restrict_left {g : Variable τ → Variable τ} (hg : ∀ v, (g v).name = v.name)
    (s : Scope τ) :
    (if s.depth = 0 then s else s.mapAll g (s.depth - 1)).restrict N =
      if s.depth = 0 then s.restrict N else (s.restrict N).mapAll g (s.depth - 1) := by
  split
  · rfl
  · exact restrict_mapAll hg _ s

theorem restrict_folded (s : Scope τ) : s.folded.restrict N = (s.restrict N).folded :=
  restrict_left (fun v ↦ Variable.name_eq_of_identity v.identity_folded) s

theorem restrict_shed (s : Scope τ) : s.shed.restrict N = (s.restrict N).shed :=
  restrict_left (fun v ↦ Variable.name_eq_of_identity v.identity_shed) s

theorem restrict_knowledge (s : Scope τ) : s.knowledge.restrict N = (s.restrict N).knowledge := by
  rw [knowledge, Arm.restrict_ofLevels, List.filter_map]
  rfl

theorem restrict_lastArm (s : Scope τ) : s.lastArm.restrict N = (s.restrict N).lastArm := by
  rw [lastArm, lastArm, depth_restrict]
  split
  · rfl
  · exact restrict_knowledge s

theorem popBreach?_restrict (h : s.popBreach? = none) : (s.restrict N).popBreach? = none := by
  rw [popBreach?] at h ⊢
  split at h
  · cases h
  · next hd =>
    rw [depth_restrict, if_neg hd, List.findSome?_eq_none_iff]
    intro v hv
    exact List.findSome?_eq_none_iff.mp h v (List.mem_of_mem_filter hv)

theorem foldLevel_restrict {mode : Mode} (h : s.foldLevel mode = .ok t) :
    (s.restrict N).foldLevel mode = .ok (t.restrict N) := by
  rw [foldLevel_eq_stop] at h ⊢
  rw [Mode.stop_eq_self h popBreach?_restrict, Mode.eq_of_stop_eq_ok h, restrict_folded]

theorem takeArm_restrict {mode : Mode} {arm : Arm} (h : s.takeArm mode = .ok (arm, t)) :
    (s.restrict N).takeArm mode = .ok (arm.restrict N, t.restrict N) := by
  rw [takeArm_eq_stop] at h ⊢
  rw [Mode.stop_eq_self h popBreach?_restrict]
  cases Mode.eq_of_stop_eq_ok h
  rw [restrict_lastArm, restrict_shed]

theorem restrict_joinArms (arms : List Arm) (exhaustive : Bool) (s : Scope τ) :
    (s.joinArms arms exhaustive).restrict N =
      (s.restrict N).joinArms (arms.map (·.restrict N)) exhaustive := by
  cases exhaustive with
  | false => rfl
  | true =>
    rw [joinArms_true, joinArms_true,
      restrict_mapAll fun v ↦ Variable.name_eq_of_identity (v.identity_settle _)]
    rw [mapAll, mapAll]
    congr 1
    apply List.map_congr_left
    intro v hv
    apply Variable.settle_congr
    have hN : N v.name := (List.mem_filter.mp hv).2
    rw [Arm.order?_meet, Arm.order?_meet, List.map_map]
    congr 1
    exact List.map_congr_left fun a _ ↦ (a.order?_restrict hN).symm

/-! ## One variable -/

theorem restrict_set {v : Variable τ} (s : Scope τ) (hv : v.name = name) :
    (s.set name v).restrict N = (s.restrict N).set name v := by
  apply restrict_mapAll
  intro w
  split
  · next hw => rw [hv, hw]
  · rfl

/-- A variable outside of the set is not seen to change. -/
theorem restrict_set_of_false {v : Variable τ} (s : Scope τ) (hv : v.name = name)
    (h : N name = false) : (s.set name v).restrict N = s.restrict N := by
  have hset : ∀ w ∈ (s.restrict N).bindings, (if w.name = name then v else w) = w := by
    intro w hw
    apply if_neg
    intro hname
    have hN : N w.name := (List.mem_filter.mp hw).2
    rw [hname, h] at hN
    cases hN
  rw [restrict_set s hv, set, List.map_congr_left hset, List.map_id']

theorem name_of_call {mode : Mode} {c : Variable.Call} {v w : Variable τ} {q : Variable.Reply τ}
    (hv : s.find? name = some v) (hw : v.call mode c = .ok (q, w)) : w.name = name := by
  rw [Variable.toDeclaration_call hw]
  exact name_of_find? hv

theorem call_restrict {mode : Mode} {c : Variable.Call} {r : Option (Variable.Reply τ)}
    (hN : N name) (h : s.call mode name c = .ok (r, t)) :
    (s.restrict N).call mode name c = .ok (r, t.restrict N) := by
  rcases call_eq_ok h with ⟨hv, rfl, rfl⟩ | ⟨v, w, q, hv, hw, rfl, rfl⟩
  · rw [← find?_restrict t hN] at hv
    exact call_of_find?_eq_none hv
  · have hname : w.name = name := name_of_call hv hw
    rw [← find?_restrict s hN] at hv
    rw [call_of_find?_eq_some hv, hw, restrict_set s hname]
    rfl

theorem restrict_of_call {mode : Mode} {c : Variable.Call} {r : Option (Variable.Reply τ)}
    (hN : N name = false) (h : s.call mode name c = .ok (r, t)) :
    t.restrict N = s.restrict N := by
  rcases call_eq_ok h with ⟨-, -, rfl⟩ | ⟨v, w, q, hv, hw, -, rfl⟩
  · rfl
  · exact restrict_set_of_false s (name_of_call hv hw) hN

theorem demand_restrict {mode : Mode} {c : Variable.Call} {r : Variable.Reply τ} (hN : N name)
    (h : s.demand mode name c = .ok (r, t)) :
    (s.restrict N).demand mode name c = .ok (r, t.restrict N) := by
  rcases call_eq_ok (call_of_demand h) with ⟨-, hr, -⟩ | ⟨v, w, q, hv, hw, hr, rfl⟩
  · cases hr
  · cases hr
    have hname : w.name = name := name_of_call hv hw
    rw [← find?_restrict s hN] at hv
    rw [demand_of_find?_eq_some _ _ hv, hw, restrict_set s hname]
    rfl

/-! ## Declaring -/

theorem declareAt_restrict {d : Declaration τ} {slot : SlotId} {inherited : Bool}
    (hN : N d.name) (s : Scope τ) :
    (s.restrict N).declareAt d slot inherited =
      (s.declareAt d slot inherited).map (restrict N) := by
  rw [declareAt, declareAt, contains_restrict s hN]
  split
  · rfl
  · simp [Except.map, restrict, bind, List.filter_append, hN]

theorem restrict_of_declareAt {d : Declaration τ} {slot : SlotId} {inherited : Bool}
    (hN : N d.name = false) (h : s.declareAt d slot inherited = .ok t) :
    t.restrict N = s.restrict N := by
  obtain ⟨-, rfl⟩ := declareAt_eq_ok h
  simp [restrict, bind, List.filter_append, hN]

end

end Scope

end DefiniteAssignment
