import DefiniteAssignment.Proofs.Scope.Below
import DefiniteAssignment.Proofs.Scope.Joining
import DefiniteAssignment.Proofs.Scope.Twins

/-!
# Traces

An arm gives back what was known before it, but not all that it did is undone. A variable that
it mutated stays mutated, and one that it gave its first value keeps the order of that. These
traces are found by whatever comes after the arm, and nothing looks at them: no call of those
that give a variable its value, take it or ask for it, and nothing that moves levels or joins
arms. What is done to a scope with traces on it is therefore answered as without them, and
leaves it with the same traces.

Of the orders of first values nothing can be said, since only the first arm that gives a value
notes it. They are left out of what is compared. Mutations add up.
-/

namespace DefiniteAssignment

variable {τ β : Type}

namespace Variable

/-- The variable without the order of its first value. -/
def undated (v : Variable τ) : Variable τ := { v with firstOrder := none }

/-- The variable with traces of something that mutated it, if `m`, and may have given it its
first value. -/
def traced (m : Bool) (v : Variable τ) : Variable τ :=
  { v with mutated := v.mutated || m, firstOrder := none }

@[simp] theorem identity_undated (v : Variable τ) : v.undated.identity = v.identity := rfl
@[simp] theorem identity_traced (m : Bool) (v : Variable τ) :
    (v.traced m).identity = v.identity := rfl

@[simp] theorem traced_false (v : Variable τ) : v.traced false = v.undated := by
  rw [traced, Bool.or_false, undated]

/-- Traces add up. -/
theorem traced_traced (m n : Bool) (v : Variable τ) :
    (v.traced m).traced n = v.traced (m || n) := by
  simp only [traced, Bool.or_assoc]

/-- Changes variables without a look at traces. -/
def Blind (g : Variable τ → Variable τ) : Prop :=
  ∀ (m : Bool) (v : Variable τ), (g (v.traced m)).undated = (g v).traced m

theorem blind_define (order : Order) : Blind (define order : Variable τ → Variable τ) :=
  fun _ _ ↦ rfl

theorem blind_markMutated_define (order : Order) :
    Blind fun v : Variable τ ↦ v.markMutated.define order := fun _ _ ↦ rfl

theorem blind_undefine : Blind (undefine : Variable τ → Variable τ) := fun _ _ ↦ rfl

theorem blind_pushLevel : Blind (pushLevel : Variable τ → Variable τ) := fun _ _ ↦ rfl

theorem blind_folded : Blind (folded : Variable τ → Variable τ) := by
  intro m v
  have he : (v.traced m).enclosing = v.enclosing := rfl
  rw [folded, folded, he]
  split <;> rfl

theorem blind_shed : Blind (shed : Variable τ → Variable τ) := by
  intro m v
  have he : (v.traced m).enclosing = v.enclosing := rfl
  rw [shed, shed, he]
  split <;> rfl

theorem blind_settle (a : Arm) : Blind (settle a : Variable τ → Variable τ) := by
  intro m v
  have hi : (v.traced m).initialized = v.initialized := rfl
  have hn : (v.traced m).name = v.name := rfl
  rw [settle, settle, hi, hn]
  split
  · rfl
  · split <;> rfl

section
variable {m : Bool} {v w : Variable τ}

/-- Variables that differ in traces alone. -/
theorem undated_eq_traced (hi : w.identity = v.identity)
    (hc : w.current = v.current) (he : w.enclosing = v.enclosing)
    (hm : w.mutated = (v.mutated || m)) : w.undated = v.traced m := by
  obtain ⟨d, slot, inherited, mutated, current, enclosing, first⟩ := w
  cases hi
  cases hc
  cases he
  cases hm
  rfl

/-- What is done to a variable with traces leaves the same traces. -/
theorem Blind.undated_eq {g : Variable τ → Variable τ} (hg : Blind g)
    (h : w.undated = v.traced m) : (g w).undated = (g v).traced m := by
  rw [← traced_false, ← hg, traced_false, h, hg]

/-- The calls that give a variable its value, take it, or ask for it. -/
def Call.touches : Call → Bool
  | .define _ | .undefine | .assign _ _ | .ensureInitialized _ => true
  | _ => false

theorem Call.movesLevel_of_touches {c : Call} (hc : c.touches) : c.movesLevel = false := by
  cases c <;> first | rfl | cases hc

/-- Such a call is answered as without the traces. -/
theorem matched_call (mode : Mode) {c : Call} (hc : c.touches) (h : w.undated = v.traced m) :
    Matched (fun p p' ↦ p'.1 = p.1 ∧ p'.2.undated = p.2.traced m)
      (v.call mode c) (w.call mode c) := by
  have hn : w.name = v.name := congrArg (·.name) h
  have hi : w.initialized = v.initialized := (congrArg initialized h :)
  have hf : w.frozen = v.frozen := congrArg (·.frozen) h
  cases c with
  | define order => exact ⟨rfl, (blind_define order).undated_eq h⟩
  | undefine => exact ⟨rfl, blind_undefine.undated_eq h⟩
  | assign order span =>
    simp only [call, assign, hn, hi, hf]
    cases v.initialized with
    | false => exact ⟨rfl, (blind_define order).undated_eq h⟩
    | true =>
      cases v.frozen with
      | true => exact ⟨rfl, h⟩
      | false => exact ⟨rfl, (blind_markMutated_define order).undated_eq h⟩
  | ensureInitialized span =>
    simp only [call, ensureInitialized, hn, hi]
    cases v.initialized with
    | true => exact ⟨rfl, h⟩
    | false => exact ⟨rfl, h⟩
  | _ => cases hc

end

end Variable

namespace Scope

/-! ## Scopes with traces -/

/-- The scope without the orders of first values. -/
def undated (s : Scope τ) : Scope τ := s.mapAll .undated s.depth

/-- The scope with traces of something that mutated the variables of the names `m`. -/
def traced (m : String → Bool) (s : Scope τ) : Scope τ :=
  s.mapAll (fun v ↦ v.traced (m v.name)) s.depth

/-- The second scope is the first with traces on it. -/
def Trails (m : String → Bool) (s t : Scope τ) : Prop := t.undated = s.traced m

theorem traced_false (s : Scope τ) : s.traced (fun _ ↦ false) = s.undated :=
  mapAll_congr fun v _ ↦ v.traced_false

theorem traced_traced (m n : String → Bool) (s : Scope τ) :
    (s.traced m).traced n = s.traced fun name ↦ m name || n name :=
  mapAll_mapAll.trans (mapAll_congr fun v _ ↦ v.traced_traced (m v.name) (n v.name))

section
variable {m n : String → Bool} {s t u : Scope τ}

theorem Trails.trans (h : Trails m s t) (h' : Trails n t u) :
    Trails (fun name ↦ m name || n name) s u := by
  have ht : t.traced n = t.undated.traced n := by
    simp only [traced, undated, mapAll_mapAll]
    rfl
  rw [Trails, h', ht, h, traced_traced]

/-- What takes no notice of traces is the same of both. -/
theorem Trails.congr {f : Scope τ → β} (hf : ∀ m s, f (s.traced m) = f s) (h : Trails m s t) :
    f t = f s := by
  rw [← hf (fun _ ↦ false) t, traced_false, h, hf]

theorem Trails.depth_eq (h : Trails m s t) : t.depth = s.depth := h.congr fun _ _ ↦ rfl

theorem Trails.popBreach?_eq (h : Trails m s t) : t.popBreach? = s.popBreach? := by
  refine h.congr fun m s ↦ ?_
  rw [popBreach?, popBreach?, traced, mapAll, List.findSome?_map]
  rfl

theorem Trails.lastArm_eq (h : Trails m s t) : t.lastArm = s.lastArm := by
  refine h.congr fun m s ↦ ?_
  simp only [lastArm, knowledge, Arm.ofLevels, traced, mapAll, List.filterMap_map]
  rfl

theorem Trails.initializedNames_eq (h : Trails m s t) :
    t.initializedNames = s.initializedNames := by
  refine h.congr fun m s ↦ ?_
  simp only [initializedNames, traced, mapAll, List.filter_map, List.map_map]
  rfl

/-- Either a name is bound in neither, or it means a variable and the variable with traces. -/
theorem Trails.find?_cases (h : Trails m s t) (name : String) :
    (s.find? name = none ∧ t.find? name = none) ∨ ∃ v w, s.find? name = some v ∧
      t.find? name = some w ∧ v.name = name ∧ w.undated = v.traced (m name) := by
  have ht : t.undated.find? name = (t.find? name).map .undated :=
    find?_mapAll (fun v _ ↦ v.identity_undated) name
  have hs : (s.traced m).find? name = (s.find? name).map fun v ↦ v.traced (m v.name) :=
    find?_mapAll (fun v _ ↦ v.identity_traced (m v.name)) name
  rw [h, hs] at ht
  cases hv : s.find? name with
  | none =>
    rw [hv] at ht
    exact .inl ⟨rfl, Option.map_eq_none_iff.mp ht.symm⟩
  | some v =>
    rw [hv] at ht
    obtain ⟨w, hw, hvw⟩ := Option.map_eq_some_iff.mp ht.symm
    simp only [name_of_find? hv] at hvw
    exact .inr ⟨v, w, rfl, hw, name_of_find? hv, hvw⟩

/-! ## What is done to them -/

theorem Trails.mapAll {g : Variable τ → Variable τ} (h : Trails m s t) (hg : Variable.Blind g)
    (hname : ∀ v, (g v).name = v.name) (depth : Nat) :
    Trails m (s.mapAll g depth) (t.mapAll g depth) := by
  have hboth (n : String → Bool) (u : Scope τ) :
      ((u.traced n).mapAll g depth).undated = (u.mapAll g depth).traced n := by
    simp only [traced, undated, mapAll_mapAll]
    refine mapAll_congr fun v _ ↦ ?_
    rw [Function.comp_apply, Function.comp_apply, Function.comp_apply, hg, hname]
  rw [Trails, ← traced_false, ← hboth, traced_false, h, hboth]

theorem Trails.set {name : String} {v w : Variable τ} (h : Trails m s t) (hv : v.name = name)
    (hvw : w.undated = v.traced (m name)) : Trails m (s.set name v) (t.set name w) := by
  have ht : (t.set name w).undated = t.undated.set name w.undated := by
    simp only [undated, set_eq_mapAll, mapAll_mapAll]
    refine mapAll_congr fun u _ ↦ ?_
    exact apply_ite Variable.undated _ _ _
  have hs : (s.set name v).traced m = (s.traced m).set name (v.traced (m name)) := by
    simp only [traced, set_eq_mapAll, mapAll_mapAll]
    refine mapAll_congr fun u _ ↦ ?_
    rw [← hv]
    exact apply_ite (fun u : Variable τ ↦ u.traced (m u.name)) _ _ _
  rw [Trails, ht, hs, h, hvw]

theorem Trails.set_call (h : Trails m s t) (mode : Mode) {name : String} {c : Variable.Call}
    (hc : c.touches) {v w : Variable τ} (hv : v.name = name)
    (hvw : w.undated = v.traced (m name)) :
    Matched (fun p p' ↦ p'.1 = p.1 ∧ Trails m (s.set name p.2) (t.set name p'.2))
      (v.call mode c) (w.call mode c) := by
  rcases (Variable.matched_call mode hc hvw).cases with
    ⟨e, hs, ht⟩ | ⟨⟨q, v'⟩, ⟨q', w'⟩, hs, ht, hq, hvw'⟩
  · rw [hs, ht]
    exact rfl
  · rw [hs, ht]
    have hname : v'.name = v.name := congrArg (·.name) (Variable.toDeclaration_call hs)
    exact ⟨hq, h.set (hname.trans hv) hvw'⟩

theorem Trails.call (h : Trails m s t) (mode : Mode) (name : String) {c : Variable.Call}
    (hc : c.touches) : Matched (fun p p' ↦ p'.1 = p.1 ∧ Trails m p.2 p'.2)
      (s.call mode name c) (t.call mode name c) := by
  rcases h.find?_cases name with ⟨hs, ht⟩ | ⟨v, w, hs, ht, hv, hvw⟩
  · rw [call_of_find?_eq_none hs, call_of_find?_eq_none ht]
    exact ⟨rfl, h⟩
  · rw [call_of_find?_eq_some hs, call_of_find?_eq_some ht]
    exact (h.set_call mode hc hv hvw).map fun _ _ hst ↦ ⟨congrArg some hst.1, hst.2⟩

theorem Trails.demand (h : Trails m s t) (mode : Mode) (name : String) {c : Variable.Call}
    (hc : c.touches) : Matched (fun p p' ↦ p'.1 = p.1 ∧ Trails m p.2 p'.2)
      (s.demand mode name c) (t.demand mode name c) := by
  rcases h.find?_cases name with ⟨hs, ht⟩ | ⟨v, w, hs, ht, hv, hvw⟩
  · rw [demand_of_find?_eq_none mode c hs, demand_of_find?_eq_none mode c ht]
    exact rfl
  · rw [demand_of_find?_eq_some mode c hs, demand_of_find?_eq_some mode c ht]
    exact (h.set_call mode hc hv hvw).map fun _ _ hst ↦ hst

theorem Trails.setAll (h : Trails m s t) (initial : Bool) :
    Trails m (s.setAll initial) (t.setAll initial) := by
  rw [setAll_eq_mapAll, setAll_eq_mapAll, h.depth_eq]
  cases initial with
  | true => exact h.mapAll (Variable.blind_define 0) (fun _ ↦ rfl) s.depth
  | false => exact h.mapAll Variable.blind_undefine (fun _ ↦ rfl) s.depth

theorem Trails.pushLevel (h : Trails m s t) : Trails m s.pushLevel t.pushLevel := by
  have ht : t.pushLevel = t.mapAll .pushLevel (s.depth + 1) := by
    rw [← h.depth_eq]
    rfl
  rw [ht]
  exact h.mapAll Variable.blind_pushLevel (fun _ ↦ rfl) (s.depth + 1)

theorem Trails.folded (h : Trails m s t) : Trails m s.folded t.folded := by
  rw [Scope.folded, Scope.folded, h.depth_eq]
  split
  · exact h
  · exact h.mapAll Variable.blind_folded
      (fun v ↦ Variable.name_eq_of_identity v.identity_folded) _

theorem Trails.shed (h : Trails m s t) : Trails m s.shed t.shed := by
  rw [Scope.shed, Scope.shed, h.depth_eq]
  split
  · exact h
  · exact h.mapAll Variable.blind_shed (fun v ↦ Variable.name_eq_of_identity v.identity_shed) _

theorem Trails.joinArms (h : Trails m s t) (arms : List Arm) (exhaustive : Bool) :
    Trails m (s.joinArms arms exhaustive) (t.joinArms arms exhaustive) := by
  cases exhaustive with
  | false => exact h
  | true =>
    rw [joinArms_true, joinArms_true, h.depth_eq]
    exact h.mapAll (Variable.blind_settle _)
      (fun v ↦ Variable.name_eq_of_identity (v.identity_settle _)) s.depth

end

/-! ## Where nothing but traces is left -/

section
variable {s t : Scope τ}

/-- The names of the variables that were mutated. -/
def mutated (s : Scope τ) (name : String) : Bool := (s.find? name).any (·.mutated)

theorem mutated_of_mem (hs : s.names.Nodup) {v : Variable τ} (hv : v ∈ s.bindings) :
    s.mutated v.name = v.mutated := by
  rw [mutated, find?_of_mem hs hv]
  rfl

/-- To mutate again what was mutated before leaves no other traces. -/
theorem trails_mutated (hs : s.names.Nodup) : Trails s.mutated s s := by
  refine mapAll_congr fun v hv ↦ ?_
  rw [mutated_of_mem hs hv, Variable.traced, Bool.or_self, Variable.undated]

theorem mutated_of_trails {m : String → Bool} (h : Trails m t t) {v : Variable τ}
    (hv : v ∈ t.bindings) (hm : m v.name) : v.mutated := by
  have heq := List.map_inj_left.mp (congrArg bindings h) v hv
  have hmutated : v.mutated = (v.mutated || m v.name) := congrArg (·.mutated) heq
  rw [hmutated, hm, Bool.or_true]

/-- A scope that was worked on, is known as much of, and has no mutation undone in it, differs
in traces alone. -/
theorem Frame.trails (h : Frame s t) (hs : s.InStep)
    (hcurrent : ∀ name, t.current name = s.current name)
    (hmutated : ∀ v ∈ t.bindings, s.mutated v.name → v.mutated) : Trails t.mutated s t := by
  have hview : ∀ v w, s.find? v.name = some v → t.find? v.name = some w →
      w.current = v.current ∧ w.enclosing = v.enclosing ∧
        w.mutated = (v.mutated || t.mutated v.name) := by
    intro v w hv hw
    refine ⟨?_, ?_, ?_⟩
    · rw [← current_of_find? hw, hcurrent, current_of_find? hv]
    · rw [← around_of_find? hw, h.around, around_of_find? hv]
    · have hkept := hmutated w (mem_of_find? hw)
      rw [name_of_find? hw, mutated, hv] at hkept
      rw [mutated, hw]
      cases hm : v.mutated with
      | false => rfl
      | true => exact hkept hm
  obtain ⟨old, new, hbindings, hold, hnew⟩ := continues_of_prefix (P := fun _ ↦ True)
    hs.nodup (h.inStep hs).nodup (h.identities ▸ List.prefix_rfl) hview fun _ _ _ ↦ trivial
  obtain rfl : new = [] := by
    refine List.eq_nil_iff_forall_not_mem.mpr fun w hw ↦ (hnew w hw).1 ?_
    rw [← names_congr h.identities]
    exact List.mem_map_of_mem (hbindings ▸ List.mem_append_right old hw)
  rw [List.append_nil] at hbindings
  have hall : t.bindings.map .undated =
      s.bindings.map fun v ↦ v.traced (t.mutated v.name) := by
    rw [hbindings]
    exact map_eq_of_forall₂ (fun v w hvw ↦
      Variable.undated_eq_traced hvw.1 hvw.2.1 hvw.2.2.1 hvw.2.2.2) hold
  rw [Trails, undated, traced, mapAll, mapAll, hall, h.size, h.depth]

end

end Scope

end DefiniteAssignment
