import DefiniteAssignment.Proofs.Contract.Scope
import DefiniteAssignment.Proofs.Lists
import DefiniteAssignment.Proofs.Scope.Arising

/-!
# Scopes that differ in one word

Two scopes on which the same is done, except that one variable was declared frozen in the
second and not in the first. From the first assignment that the second refuses, the variable
has different orders in the two. They are copied into regions, folded back, taken with arms
and joined again, and so they differ wherever the variable is recorded. What never differs is
whether it has a value: at no level of the variable and in no arm. And all else is equal, since
an operation looks at nothing of a variable but whether it has a value, apart from its orders,
which it only hands on.

The two scopes are told apart by the one question whether an assignment was refused so far,
which the first of them answers as well: its variable is mutated if so.
-/

namespace DefiniteAssignment

variable {τ α ω : Type}

/-! ## Two analyses at once -/

section
variable {ε β γ δ : Type}

/-- Two analyses that both go on, with results that are related, or are stopped by the same
error. -/
def Matched (R : α → β → Prop) : Except ε α → Except ε β → Prop
  | .ok a, .ok b => R a b
  | .error e, .error f => e = f
  | _, _ => False

variable {R : α → β → Prop} {S : γ → δ → Prop} {x : Except ε α} {y : Except ε β}

/-- Two analyses that are matched are stopped both, or go on both. -/
theorem Matched.cases (h : Matched R x y) :
    (∃ e, x = .error e ∧ y = .error e) ∨ ∃ a b, x = .ok a ∧ y = .ok b ∧ R a b := by
  cases x with
  | error e =>
    cases y with
    | error f => exact .inl ⟨e, rfl, congrArg _ (Eq.symm h)⟩
    | ok b => cases h
  | ok a =>
    cases y with
    | error f => cases h
    | ok b => exact .inr ⟨a, b, rfl, rfl, h⟩

theorem Matched.bind {f : α → Except ε γ} {g : β → Except ε δ} (h : Matched R x y)
    (hfg : ∀ a b, R a b → Matched S (f a) (g b)) : Matched S (x >>= f) (y >>= g) := by
  rcases h.cases with ⟨e, rfl, rfl⟩ | ⟨a, b, rfl, rfl, hab⟩
  · exact rfl
  · exact hfg a b hab

theorem Matched.map {f : α → γ} {g : β → δ} (h : Matched R x y)
    (hfg : ∀ a b, R a b → S (f a) (g b)) : Matched S (x.map f) (y.map g) := by
  rcases h.cases with ⟨e, rfl, rfl⟩ | ⟨a, b, rfl, rfl, hab⟩
  · exact rfl
  · exact hfg a b hab

theorem matched_refl (x : Except ε α) : Matched Eq x x := by
  cases x <;> exact rfl

theorem matched_stop {x : Except Violation α} {y : Except Violation β} (mode : Mode)
    (breach? : Option Violation) (h : Matched R x y) :
    Matched R (mode.stop breach? x) (mode.stop breach? y) := by
  cases mode with
  | lenient => exact h
  | strict =>
    cases breach? with
    | none => exact h
    | some v => exact rfl

end

/-! ## One variable -/

namespace Variable

/-- The answer that a frozen variable has a value already. Only an assignment is answered so. -/
def Reply.refusesMutation (name : String) : Reply τ → Bool
  | .refused ⟨.frozenMutation n, _⟩ => n = name
  | _ => false

theorem name_of_refusesMutation {mode : Mode} {c : Call} {v w : Variable τ} {q : Reply τ}
    {name : String} (h : v.call mode c = .ok (q, w)) (hq : q.refusesMutation name) :
    v.name = name := by
  cases c with
  | assign order span =>
    rcases call_assign_cases h with ⟨-, -, rfl, -⟩ | ⟨-, -, rfl, -⟩ | ⟨-, rfl, -⟩
    · exact of_decide_eq_true hq
    · cases hq
    · cases hq
  | ensureInitialized span =>
    simp only [call, ensureInitialized] at h
    split at h
    · cases h
      cases hq
    · next he =>
      split at he <;> cases he
      cases h
      cases hq
  | foldLevel =>
    rw [call, foldLevel_eq_stop, Mode.map_stop] at h
    cases Mode.eq_of_stop_eq_ok h
    cases hq
  | takeLevel =>
    rw [call, takeLevel_eq_stop, Mode.map_stop] at h
    cases Mode.eq_of_stop_eq_ok h
    cases hq
  | read | define | undefine | markMutated | pushLevel =>
    cases h
    cases hq

/-- A variable that is not frozen beside one that is. They have values at the same levels, and
`told` is whether the first was given a value while it had one. -/
structure Twins (told : Bool) (v w : Variable τ) : Prop where
  declaration : w.toDeclaration = { v.toDeclaration with frozen := true }
  frozen : v.frozen = false
  inherited : w.inherited = v.inherited
  mutated : v.mutated = told
  current : w.current.isSome = v.current.isSome
  enclosing : w.enclosing.map Option.isSome = v.enclosing.map Option.isSome

section
variable {told : Bool} {v w : Variable τ}

namespace Twins

theorem fresh (d : Declaration τ) (slot : SlotId) (inherited : Bool) (depth : Nat) :
    Twins false (.fresh { d with frozen := false } slot inherited depth)
      (.fresh { d with frozen := true } slot inherited depth) := ⟨rfl, rfl, rfl, rfl, rfl, rfl⟩

theorem name_eq (h : Twins told v w) : w.name = v.name := by rw [h.declaration]

theorem initialized_eq (h : Twins told v w) : w.initialized = v.initialized := h.current

theorem define (h : Twins told v w) (order order' : Order) :
    Twins told (v.define order) (w.define order') :=
  ⟨h.declaration, h.frozen, h.inherited, h.mutated, rfl, h.enclosing⟩

theorem undefine (h : Twins told v w) : Twins told v.undefine w.undefine :=
  ⟨h.declaration, h.frozen, h.inherited, h.mutated, rfl, h.enclosing⟩

theorem pushLevel (h : Twins told v w) : Twins told v.pushLevel w.pushLevel where
  declaration := h.declaration
  frozen := h.frozen
  inherited := h.inherited
  mutated := h.mutated
  current := h.current
  enclosing := by
    rw [enclosing_pushLevel, enclosing_pushLevel, List.map_cons, List.map_cons, h.current,
      h.enclosing]

/-- Either both are at their base levels, or neither is. -/
theorem enclosing_cases (h : Twins told v w) :
    (v.enclosing = [] ∧ w.enclosing = []) ∨ ∃ l m outer outer',
      v.enclosing = l :: outer ∧ w.enclosing = m :: outer' ∧ m.isSome = l.isSome ∧
        outer'.map Option.isSome = outer.map Option.isSome := by
  have he := h.enclosing
  cases hv : v.enclosing with
  | nil =>
    rw [hv, List.map_nil, List.map_eq_nil_iff] at he
    exact .inl ⟨rfl, he⟩
  | cons l outer =>
    rw [hv, List.map_cons, List.map_eq_cons_iff] at he
    obtain ⟨m, outer', hw, hl, ho⟩ := he
    exact .inr ⟨l, m, outer, outer', rfl, hw, hl, ho⟩

theorem leave (h : Twins told v w) {l m : Level} {outer outer' : List Level}
    (hl : m.isSome = l.isSome) (ho : outer'.map Option.isSome = outer.map Option.isSome) :
    Twins told (v.leave l outer) (w.leave m outer') :=
  ⟨h.declaration, h.frozen, h.inherited, h.mutated, hl, ho⟩

theorem folded (h : Twins told v w) : Twins told v.folded w.folded := by
  rcases h.enclosing_cases with ⟨hv, hw⟩ | ⟨l, m, outer, outer', hv, hw, hl, ho⟩
  · rwa [Variable.folded, Variable.folded, hv, hw]
  · rw [folded_of_enclosing hv, folded_of_enclosing hw]
    refine h.leave ?_ ho
    rw [Level.isSome_fold, Level.isSome_fold, hl, h.current]

theorem shed (h : Twins told v w) : Twins told v.shed w.shed := by
  rcases h.enclosing_cases with ⟨hv, hw⟩ | ⟨l, m, outer, outer', hv, hw, hl, ho⟩
  · rwa [Variable.shed, Variable.shed, hv, hw]
  · rw [shed_of_enclosing hv, shed_of_enclosing hw]
    exact h.leave hl ho

theorem popBreach?_eq (h : Twins told v w) : w.popBreach? = v.popBreach? := by
  have hd : w.depth = v.depth := by
    have hl := congrArg List.length h.enclosing
    rw [List.length_map, List.length_map] at hl
    rw [depth, depth, hl]
  rw [popBreach?, popBreach?, hd, h.name_eq]

/-- A call is answered alike as long as nobody says for himself that the variable is mutated,
save that the second variable refuses an assignment where the first is mutated by it. -/
theorem call (h : Twins told v w) (mode : Mode) {c : Call} (hc : c ≠ .markMutated) :
    Matched (fun p p' ↦ Twins (told || p'.1.refusesMutation v.name) p.2 p'.2)
      (v.call mode c) (w.call mode c) := by
  have same {v' w' : Variable τ} (h' : Twins told v' w') : Twins (told || false) v' w' := by
    rwa [Bool.or_false]
  cases c with
  | read => exact same h
  | define order => exact same (h.define order order)
  | undefine => exact same h.undefine
  | markMutated => exact absurd rfl hc
  | pushLevel => exact same h.pushLevel
  | assign order span =>
    simp only [Variable.call, assign, h.initialized_eq]
    cases hi : v.initialized with
    | false => exact same (h.define order order)
    | true =>
      have hw : w.frozen = true := by rw [h.declaration]
      rw [h.frozen, hw]
      -- The first is given the new order, the second keeps the one it has.
      have hrefuses : (Reply.refused (τ := τ) ⟨.frozenMutation w.name, span⟩).refusesMutation
          v.name = true := decide_eq_true h.name_eq
      have hsome : w.current.isSome = true := h.initialized_eq.trans hi
      have htwins : Twins true (v.markMutated.define order) w :=
        ⟨h.declaration, h.frozen, h.inherited, rfl, hsome, h.enclosing⟩
      have htold : Twins (told || true) (v.markMutated.define order) w := by
        rwa [Bool.or_true]
      rw [← hrefuses] at htold
      exact htold
  | ensureInitialized span =>
    simp only [Variable.call, ensureInitialized, h.initialized_eq]
    cases v.initialized with
    | false => exact same h
    | true => exact same h
  | foldLevel =>
    simp only [Variable.call, foldLevel_eq_stop, Mode.map_stop, h.popBreach?_eq]
    exact matched_stop mode _ (same h.folded)
  | takeLevel =>
    simp only [Variable.call, takeLevel_eq_stop, Mode.map_stop, h.popBreach?_eq]
    exact matched_stop mode _ (same h.shed)

end Twins

/-- Two variables of a scope and its twin: the one that differs, or any other, which is equal. -/
inductive Beside (name : String) (told : Bool) : Variable τ → Variable τ → Prop
  | other {v : Variable τ} : v.name ≠ name → Beside name told v v
  | twins {v w : Variable τ} : v.name = name → Twins told v w → Beside name told v w

namespace Beside

variable {name : String}

theorem name_eq (h : Beside name told v w) : w.name = v.name := by
  cases h with
  | other => rfl
  | twins _ h => exact h.name_eq

theorem initialized_eq (h : Beside name told v w) : w.initialized = v.initialized := by
  cases h with
  | other => rfl
  | twins _ h => exact h.initialized_eq

theorem popBreach?_eq (h : Beside name told v w) : w.popBreach? = v.popBreach? := by
  cases h with
  | other => rfl
  | twins _ h => exact h.popBreach?_eq

theorem map_isSome_levels (h : Beside name told v w) :
    w.levels.map Option.isSome = v.levels.map Option.isSome := by
  cases h with
  | other => rfl
  | twins _ h =>
    simp only [levels, List.map_append, List.map_reverse, List.map_cons, List.map_nil, h.current,
      h.enclosing]

theorem lacksValue_eq [Storable τ] (h : Beside name told v w) : w.lacksValue = v.lacksValue := by
  cases h with
  | other => rfl
  | twins _ h => rw [lacksValue, lacksValue, h.initialized_eq, h.inherited, h.declaration]

theorem ensureInitialized_eq (h : Beside name told v w) (span : Span) :
    w.ensureInitialized span = v.ensureInitialized span := by
  rw [ensureInitialized, ensureInitialized, h.initialized_eq, h.name_eq]

/-- The question whether a call was refused concerns the one variable alone, since what another
answers is about itself. -/
theorem call (h : Beside name told v w) (mode : Mode) {c : Call}
    (hc : v.name = name → c ≠ .markMutated) :
    Matched (fun p p' ↦ Beside name (told || p'.1.refusesMutation name) p.2 p'.2)
      (v.call mode c) (w.call mode c) := by
  cases h with
  | other hn =>
    cases hv : v.call mode c with
    | error e => exact rfl
    | ok p =>
      have hname : p.2.name = v.name := congrArg (·.name) (toDeclaration_call hv)
      exact .other (by rwa [hname])
  | twins hn h =>
    rcases (h.call mode (hc hn)).cases with ⟨e, hv, hw⟩ | ⟨p, p', hv, hw, htwins⟩
    · rw [hv, hw]
      exact rfl
    · rw [hv, hw]
      have hname : p.2.name = v.name := congrArg (·.name) (toDeclaration_call hv)
      rw [hn] at htwins hname
      exact .twins hname htwins

/-- What a name means in two lists of variables. -/
theorem find?_cases {vs ws : List (Variable τ)} (h : vs.Forall₂ (Beside name told) ws)
    (n : String) :
    (vs.find? (·.name = n) = none ∧ ws.find? (·.name = n) = none) ∨
      ∃ v w, vs.find? (·.name = n) = some v ∧ ws.find? (·.name = n) = some w ∧
        Beside name told v w := by
  induction h with
  | nil => exact .inl ⟨rfl, rfl⟩
  | @cons v w vs ws hvw _ ih =>
    rw [List.find?_cons, List.find?_cons, hvw.name_eq]
    cases decide (v.name = n) with
    | true => exact .inr ⟨v, w, rfl, rfl, hvw⟩
    | false => exact ih

/-- The two are changed in ways that may differ for the one variable alone. -/
theorem map (g g' : Variable τ → Variable τ) (hname : ∀ v, (g v).name = v.name)
    (hother : ∀ v, v.name ≠ name → g' v = g v)
    (htwins : ∀ v w, Twins told v w → Twins told (g v) (g' w))
    (h : Beside name told v w) : Beside name told (g v) (g' w) := by
  cases h with
  | other hn =>
    rw [hother v hn]
    exact .other (by rwa [hname])
  | twins hn h => exact .twins (by rwa [hname]) (htwins v w h)

end Beside

end

end Variable

/-! ## Arms -/

/-- Whether anything comes of regions depends on nothing but where something was known. -/
theorem Level.isSome_meet_congr {ls ms : List Level}
    (h : ms.map Option.isSome = ls.map Option.isSome) :
    (meet ms).isSome = (meet ls).isSome := by
  have hall (ns : List Level) : ns.all Option.isSome = (ns.map Option.isSome).all id := by
    rw [List.all_map, Function.id_comp]
  cases ls with
  | nil => rw [List.map_eq_nil_iff.mp h]
  | cons l ls =>
    cases ms with
    | nil => cases h
    | cons m ms =>
      rw [isSome_meet _ (List.cons_ne_nil m ms), isSome_meet _ (List.cons_ne_nil l ls), hall, h,
        ← hall]

/-- Two arms that know the same names, and of all names but one the same orders. -/
def Arm.Beside (name : String) (a b : Arm) : Prop :=
  ∀ n, (b.order? n).isSome = (a.order? n).isSome ∧ (n ≠ name → b.order? n = a.order? n)

namespace Arm

theorem beside_refl (name : String) (a : Arm) : Beside name a a := fun _ ↦ ⟨rfl, fun _ ↦ rfl⟩

theorem beside_meet {name : String} {as bs : List Arm}
    (h : List.Forall₂ (Beside name) as bs) : Beside name (meet as) (meet bs) := by
  intro n
  rw [order?_meet, order?_meet]
  constructor
  · apply Level.isSome_meet_congr
    rw [List.map_map, List.map_map]
    exact map_eq_of_forall₂ (fun a b hab ↦ (hab n).1) h
  · intro hn
    rw [map_eq_of_forall₂ (fun a b hab ↦ (hab n).2 hn) h]

theorem beside_getElem? {name : String} {as bs : List Arm}
    (h : as.Forall₂ (Beside name) bs) (index : Nat) :
    Beside name (as[index]?.getD .empty) (bs[index]?.getD .empty) := by
  induction h generalizing index with
  | nil => exact beside_refl name .empty
  | cons hab _ ih =>
    cases index with
    | zero => exact hab
    | succ index => exact ih index

end Arm

/-- What the first arm says of a variable, and the second of its twin. -/
theorem Variable.Twins.settle {told : Bool} {v w : Variable τ} {a b : Arm} {name : String}
    (h : Twins told v w) (hab : Arm.Beside name a b) : Twins told (v.settle a) (w.settle b) := by
  rw [Variable.settle, Variable.settle, h.initialized_eq, h.name_eq]
  cases v.initialized with
  | true => exact h
  | false =>
    have hknown := (hab v.name).1
    cases ha : a.order? v.name with
    | none =>
      rw [ha, Option.isSome_none, Option.isSome_eq_false_iff, Option.isNone_iff_eq_none] at hknown
      rw [hknown]
      exact h
    | some order =>
      rw [ha, Option.isSome_some] at hknown
      obtain ⟨order', hb⟩ := Option.isSome_iff_exists.mp hknown
      rw [hb]
      exact h.define order order'

end DefiniteAssignment
