import DefiniteAssignment.Proofs.Flow.Induction
import DefiniteAssignment.Proofs.Scope.Arising
import DefiniteAssignment.Flow.Touch

/-!
# What becomes of one variable

A flow that touches the variables of a scope is told here for one variable alone and without a
stack of levels: what is known of it at the end, whether it was mutated, and the order of its
first value. A region starts from what was known before it, and what it learns is folded into
that. Arms start from there one after the other. Each leaves behind whether it mutated the
variable and whether it gave it its first value, and nothing else, but the arms after it do not
look at these.

The main statement is that the walk through a flow does to each variable of a scope what is told
here, and nothing else. The levels around the current one do not come into it. An arm notes first
values as it goes, so that a join has none to note, and this is why the join can be told as a
change of the current level alone.
-/

namespace DefiniteAssignment

variable {τ : Type}

/-! ## What is kept of a variable -/

namespace Variable

/-- The variable where something else is known of it. -/
def knowing (l : Level) (v : Variable τ) : Variable τ := { v with current := l }

/-- The variable where other levels lie around its current one. -/
def under (outer : List Level) (v : Variable τ) : Variable τ := { v with enclosing := outer }

@[simp] theorem current_knowing (l : Level) (v : Variable τ) : (v.knowing l).current = l := rfl
@[simp] theorem knowing_current (v : Variable τ) : v.knowing v.current = v := rfl
@[simp] theorem knowing_knowing (l m : Level) (v : Variable τ) :
    (v.knowing l).knowing m = v.knowing m := rfl

theorem knowing_of_current {l : Level} {v : Variable τ} (h : v.current = l) : v.knowing l = v :=
  h ▸ v.knowing_current

theorem pushLevel_eq_under (v : Variable τ) : v.pushLevel = v.under (v.current :: v.enclosing) :=
  rfl

theorem assign_under (order : Order) (span : Span) (outer : List Level) (v : Variable τ) :
    (v.under outer).assign order span = (v.assign order span).map (under outer) := by
  have hinitialized : (v.under outer).initialized = v.initialized := rfl
  have hfrozen : (v.under outer).frozen = v.frozen := rfl
  rw [assign, assign, hinitialized, hfrozen]
  split
  · split <;> rfl
  · rfl

/-- A value that is known was noted when it was given, if it was the first. -/
def Noted (v : Variable τ) : Prop := v.current.isSome → v.firstOrder.isSome

theorem Dated.noted {v : Variable τ} (h : v.Dated) : v.Noted := h v.current List.mem_cons_self

/-- What is kept of a variable by all that happens at its current level. -/
structure Follows (v w : Variable τ) : Prop where
  identity : w.identity = v.identity
  enclosing : w.enclosing = v.enclosing
  first : v.firstOrder.isSome → w.firstOrder.isSome
  noted : v.Noted → w.Noted

section
variable {u v w : Variable τ}

namespace Follows

theorem refl (v : Variable τ) : Follows v v := ⟨rfl, rfl, id, id⟩

theorem trans (h : Follows u v) (h' : Follows v w) : Follows u w :=
  ⟨h'.identity.trans h.identity, h'.enclosing.trans h.enclosing, h'.first ∘ h.first,
    h'.noted ∘ h.noted⟩

theorem name_eq (h : Follows v w) : w.name = v.name := name_eq_of_identity h.identity

theorem define (order : Order) (v : Variable τ) : Follows v (v.define order) := by
  have hfirst : (v.define order).firstOrder.isSome := by
    rw [Variable.define]
    cases v.firstOrder <;> rfl
  exact ⟨rfl, rfl, fun _ ↦ hfirst, fun _ _ ↦ hfirst⟩

theorem assign {order : Order} {span : Span} (h : v.assign order span = .ok w) :
    Follows v w := by
  unfold Variable.assign at h
  split at h
  · split at h <;> cases h
    exact ⟨rfl, rfl, (define order v).first, (define order v).noted⟩
  · cases h
    exact define order v

theorem undefine (v : Variable τ) : Follows v v.undefine :=
  ⟨rfl, rfl, id, fun _ h ↦ absurd h Bool.false_ne_true⟩

/-- What was known before may be known again, and what was noted may be known. -/
theorem knowing (h : Follows v w) {l : Level}
    (hl : v.Noted → l.isSome → v.current.isSome ∨ w.firstOrder.isSome) :
    Follows v (w.knowing l) where
  identity := h.identity
  enclosing := h.enclosing
  first := h.first
  noted hv hsome := (hl hv hsome).elim (fun hc ↦ h.first (hv hc)) id

end Follows

/-- Where a first value is noted, to learn of an arm is to change the current level. -/
theorem settle_eq_knowing {a : Arm} (hfirst : (a.order? v.name).isSome → v.firstOrder.isSome) :
    v.settle a = v.knowing (Level.fold v.current (a.order? v.name)) := by
  cases hc : v.current with
  | some order =>
    rw [settle_of_initialized a (by rw [initialized, hc]; rfl), Level.fold_some, ← hc,
      knowing_current]
  | none =>
    rw [settle, initialized, hc, Option.isSome_none, if_neg Bool.false_ne_true, Level.fold_none]
    cases ha : a.order? v.name with
    | none =>
      change v = v.knowing none
      rw [← hc, knowing_current]
    | some order =>
      obtain ⟨first, hf⟩ := Option.isSome_iff_exists.mp (hfirst (by rw [ha]; rfl))
      simp [define, knowing, hf]

end

end Variable

/-! ## The effect of a flow -/

/-- What a touch makes of a variable. -/
def Touch.effect : Touch → Variable τ → Variable τ
  | define name order, v => if v.name = name then v.define order else v
  | assign name order span, v =>
    if v.name = name then
      match v.assign order span with
      | .ok w => w
      | .error _ => v
    else v
  | undefine name, v => if v.name = name then v.undefine else v
  | setAll initial, v => if initial then v.define 0 else v.undefine

namespace Flow

mutual

/-- What a flow makes of a variable. -/
def effect : Flow Touch → Variable τ → Variable τ
  | skip, v => v
  | act t, v => t.effect v
  | seq first second, v => second.effect (first.effect v)
  | region body, v =>
    let w := body.effect v
    w.knowing (Level.fold v.current w.current)
  | branch arms exhaustive, v =>
    let after := armEffects arms v
    if exhaustive then after.2.knowing (Level.fold v.current (Level.meet after.1)) else after.2

/-- What each of several arms knows of a variable at its end, and the variable after all of
them, with what was known before them. -/
def armEffects : List (Flow Touch) → Variable τ → List Level × Variable τ
  | [], v => ([], v)
  | arm :: arms, v =>
    let w := arm.effect v
    let after := armEffects arms (w.knowing v.current)
    (w.current :: after.1, after.2)

end

end Flow

namespace Touch

variable {mode : Mode} {s : Scope τ}

theorem follows_effect (t : Touch) (v : Variable τ) : v.Follows (t.effect v) := by
  cases t with
  | define name order =>
    simp only [effect]
    split
    · exact .define order v
    · exact .refl v
  | assign name order span =>
    simp only [effect]
    split
    · split
      · next w hw => exact .assign hw
      · exact .refl v
    · exact .refl v
  | undefine name =>
    simp only [effect]
    split
    · exact .undefine v
    · exact .refl v
  | setAll initial =>
    cases initial with
    | true => exact .define 0 v
    | false => exact .undefine v

/-- A touch does not look at the levels around the current one. -/
theorem effect_under (t : Touch) (outer : List Level) (v : Variable τ) :
    t.effect (v.under outer) = (t.effect v).under outer := by
  have hname : (v.under outer).name = v.name := rfl
  cases t with
  | define name order =>
    rw [effect, effect, hname]
    split <;> rfl
  | undefine name =>
    rw [effect, effect, hname]
    split <;> rfl
  | assign name order span =>
    rw [effect, effect, hname, Variable.assign_under]
    split
    · cases v.assign order span <;> rfl
    · rfl
  | setAll initial => cases initial <;> rfl

/-- A call that goes through whatever the variable is does to the variable of the name what it
does to any. -/
theorem map_call {name : String} {c : Variable.Call} {g : Variable τ → Variable τ}
    (hs : s.names.Nodup) (hg : ∀ v : Variable τ, (v.call mode c).map Prod.snd = .ok (g v)) :
    (s.call mode name c).map Prod.snd =
      .ok (s.mapAll (fun v ↦ if v.name = name then g v else v) s.depth) := by
  cases hv : s.find? name with
  | none =>
    have hmap : ∀ v ∈ s.bindings, (if v.name = name then g v else v) = v := by
      intro v hmem
      apply if_neg
      rintro rfl
      exact Scope.find?_eq_none_iff.mp hv (List.mem_map_of_mem hmem)
    rw [Scope.call_of_find?_eq_none hv, Scope.mapAll, List.map_congr_left hmap, List.map_id']
    rfl
  | some v =>
    rw [Scope.call_of_find?_eq_some hv]
    cases hcall : v.call mode c with
    | error e =>
      have hgv := hg v
      rw [hcall] at hgv
      cases hgv
    | ok p =>
      have hgv := hg v
      rw [hcall] at hgv
      have hp : p.2 = g v := Except.ok.inj hgv
      simp only [Except.map, Scope.set_eq_mapAll, Scope.mapAll, hp]
      congr 2
      refine List.map_congr_left fun u hu ↦ ?_
      split
      · next hn => rw [Scope.eq_of_name hs hv hu hn]
      · rfl

theorem perform_eq_mapAll (t : Touch) (hs : s.names.Nodup) :
    t.perform mode s = .ok (s.mapAll t.effect s.depth) := by
  cases t with
  | define name order => exact map_call hs fun v ↦ rfl
  | assign name order span =>
    refine map_call hs fun v ↦ ?_
    simp only [Variable.call]
    cases v.assign order span <;> rfl
  | undefine name => exact map_call hs fun v ↦ rfl
  | setAll initial => rfl

end Touch

namespace Flow

/-! ### What the effect keeps -/

theorem follows_region {v w : Variable τ} (h : v.Follows w) :
    v.Follows (w.knowing (Level.fold v.current w.current)) := by
  refine h.knowing fun hv hl ↦ ?_
  rw [Level.isSome_fold, Bool.or_eq_true] at hl
  exact hl.imp_right (h.noted hv)

/-- Arms bring back what was known before them, and each value that one of them ends with is
noted. -/
theorem follows_armEffects (arms : List (Flow Touch))
    (h : ∀ arm ∈ arms, ∀ v : Variable τ, v.Follows (arm.effect v)) (v : Variable τ) :
    v.Follows (armEffects arms v).2 ∧ (armEffects arms v).2.current = v.current ∧
      (v.Noted → ∀ l ∈ (armEffects arms v).1, l.isSome →
        (armEffects arms v).2.firstOrder.isSome) := by
  induction arms generalizing v with
  | nil => exact ⟨.refl v, rfl, fun _ l hl ↦ absurd hl List.not_mem_nil⟩
  | cons arm arms ih =>
    have harm := h arm List.mem_cons_self v
    have hback : v.Follows ((arm.effect v).knowing v.current) := harm.knowing fun _ ↦ .inl
    obtain ⟨hrest, hcurrent, hlevels⟩ :=
      ih (fun a ha ↦ h a (List.mem_cons_of_mem arm ha)) ((arm.effect v).knowing v.current)
    refine ⟨hback.trans hrest, hcurrent, fun hv l hl hsome ↦ ?_⟩
    rcases List.mem_cons.mp hl with rfl | hl
    · exact hrest.first (harm.noted hv hsome)
    · exact hlevels (hback.noted hv) l hl hsome

theorem isSome_of_isSome_meet {ls : List Level} (h : (Level.meet ls).isSome) :
    ∃ l ∈ ls, l.isSome := by
  cases ls with
  | nil => cases h
  | cons l ls =>
    rw [Level.isSome_meet _ (List.cons_ne_nil l ls), List.all_eq_true] at h
    exact ⟨l, List.mem_cons_self, h l List.mem_cons_self⟩

/-- What all arms know at their ends has been noted. -/
theorem noted_meet {arms : List (Flow Touch)} {v : Variable τ}
    (h : ∀ arm ∈ arms, ∀ v : Variable τ, v.Follows (arm.effect v)) (hv : v.Noted)
    (hmeet : (Level.meet (armEffects arms v).1).isSome) :
    (armEffects arms v).2.firstOrder.isSome := by
  obtain ⟨l, hl, hsome⟩ := isSome_of_isSome_meet hmeet
  exact (follows_armEffects arms h v).2.2 hv l hl hsome

theorem follows_effect (f : Flow Touch) (v : Variable τ) : v.Follows (f.effect v) := by
  induction f generalizing v with
  | skip => exact .refl v
  | act t => exact t.follows_effect v
  | seq first second ih₁ ih₂ => exact (ih₁ v).trans (ih₂ _)
  | region body ih => exact follows_region (ih v)
  | branch arms exhaustive ih =>
    have harms := (follows_armEffects arms ih v).1
    rw [effect]
    split
    · refine harms.knowing fun hv hl ↦ ?_
      rw [Level.isSome_fold, Bool.or_eq_true] at hl
      exact hl.imp_right (noted_meet ih hv)
    · exact harms

theorem armEffects_under {arms : List (Flow Touch)}
    (h : ∀ arm ∈ arms, ∀ (outer : List Level) (v : Variable τ),
      arm.effect (v.under outer) = (arm.effect v).under outer)
    (outer : List Level) (v : Variable τ) :
    armEffects arms (v.under outer) =
      ((armEffects arms v).1, (armEffects arms v).2.under outer) := by
  induction arms generalizing v with
  | nil => rfl
  | cons arm arms ih =>
    have hknowing : ((arm.effect v).under outer).knowing (v.under outer).current =
        ((arm.effect v).knowing v.current).under outer := rfl
    rw [armEffects, h arm List.mem_cons_self, hknowing,
      ih fun a ha ↦ h a (List.mem_cons_of_mem arm ha)]
    rfl

/-- A flow does not look at the levels around the current one. -/
theorem effect_under (f : Flow Touch) (outer : List Level) (v : Variable τ) :
    f.effect (v.under outer) = (f.effect v).under outer := by
  induction f generalizing outer v with
  | skip => rfl
  | act t => exact t.effect_under outer v
  | seq first second ih₁ ih₂ => rw [effect, effect, ih₁, ih₂]
  | region body ih =>
    rw [effect, ih]
    rfl
  | branch arms exhaustive ih =>
    rw [effect, armEffects_under ih]
    cases exhaustive <;> rfl

/-! ### Leaving what was entered -/

section
variable (f : Flow Touch) (v : Variable τ)

theorem enclosing_effect_pushLevel :
    (f.effect v.pushLevel).enclosing = v.current :: v.enclosing :=
  (follows_effect f v.pushLevel).enclosing

theorem current_effect_pushLevel : (f.effect v.pushLevel).current = (f.effect v).current := by
  rw [Variable.pushLevel_eq_under, effect_under]
  rfl

theorem leave_effect_pushLevel (l : Level) :
    (f.effect v.pushLevel).leave l v.enclosing = (f.effect v).knowing l := by
  rw [Variable.pushLevel_eq_under, effect_under, ← (follows_effect f v).enclosing]
  rfl

theorem folded_effect_pushLevel : (f.effect v.pushLevel).folded =
    (f.effect v).knowing (Level.fold v.current (f.effect v).current) := by
  rw [Variable.folded_of_enclosing (enclosing_effect_pushLevel f v), current_effect_pushLevel,
    leave_effect_pushLevel]

theorem shed_effect_pushLevel : (f.effect v.pushLevel).shed = (f.effect v).knowing v.current := by
  rw [Variable.shed_of_enclosing (enclosing_effect_pushLevel f v), leave_effect_pushLevel]

end

end Flow

/-! ## The walk through a scope -/

namespace Scope

section
variable {s : Scope τ} {g : Variable τ → Variable τ}

/-- A scope in step, all of whose values were noted. -/
structure Steady (s : Scope τ) : Prop where
  inStep : s.InStep
  noted : ∀ v ∈ s.bindings, v.Noted

theorem Reached.steady [Storable τ] {mode : Mode} (h : s.Reached mode) : s.Steady :=
  ⟨h.inStep, fun v hv ↦ (h.arises.wellKept.dated v hv).noted⟩

namespace Steady

theorem pushLevel (hs : s.Steady) : s.pushLevel.Steady where
  inStep := hs.inStep.pushLevel
  noted w hw := by
    obtain ⟨v, hv, rfl⟩ := List.mem_map.mp hw
    exact hs.noted v hv

theorem mapAll (hs : s.Steady) (hg : ∀ v : Variable τ, v.Follows (g v)) :
    (s.mapAll g s.depth).Steady where
  inStep := hs.inStep.mapAll (fun v _ ↦ (hg v).identity) fun v hv ↦
    (congrArg List.length (hg v).enclosing).trans (hs.inStep.length_enclosing v hv)
  noted w hw := by
    obtain ⟨v, hv, rfl⟩ := List.mem_map.mp hw
    exact (hg v).noted (hs.noted v hv)

end Steady

end

end Scope

namespace Flow

variable {mode : Mode} {s : Scope τ}

section
variable (f : Flow Touch)

theorem mapAll_pushLevel : s.pushLevel.mapAll f.effect s.pushLevel.depth =
    s.mapAll (fun v ↦ f.effect v.pushLevel) (s.depth + 1) := Scope.mapAll_mapAll

variable (hs : s.Steady)
include hs

theorem inStep_walked : (s.mapAll (fun v ↦ f.effect v.pushLevel) (s.depth + 1)).InStep :=
  mapAll_pushLevel f ▸ (hs.pushLevel.mapAll (follows_effect f)).inStep

/-- A flow that was entered and walked through is left as a region. -/
theorem foldLevel_walked : (s.pushLevel.mapAll f.effect s.pushLevel.depth).foldLevel mode =
    .ok (s.mapAll
      (fun v ↦ (f.effect v).knowing (Level.fold v.current (f.effect v).current)) s.depth) := by
  have hd := Nat.succ_ne_zero s.depth
  rw [mapAll_pushLevel, (inStep_walked f hs).foldLevel hd, Scope.folded_eq_mapAll hd,
    Scope.mapAll_mapAll]
  exact congrArg _ (Scope.mapAll_congr fun v _ ↦ folded_effect_pushLevel f v)

variable (mode) in
/-- A flow that was entered and walked through is left as an arm. -/
theorem takeArm_walked : ∃ arm,
    (s.pushLevel.mapAll f.effect s.pushLevel.depth).takeArm mode =
        .ok (arm, s.mapAll (fun v ↦ (f.effect v).knowing v.current) s.depth) ∧
      ∀ v ∈ s.bindings, arm.order? v.name = (f.effect v).current := by
  have hd := Nat.succ_ne_zero s.depth
  rw [mapAll_pushLevel, (inStep_walked f hs).takeArm hd, Scope.shed_eq_mapAll hd,
    Scope.mapAll_mapAll]
  refine ⟨_, congrArg (Except.ok ∘ Prod.mk _) (Scope.mapAll_congr fun v _ ↦
    shed_effect_pushLevel f v), fun v hv ↦ ?_⟩
  rw [(inStep_walked f hs).order?_knowledge,
    Scope.current_mapAll fun w _ ↦ (follows_effect f w.pushLevel).identity,
    hs.inStep.find?_of_mem hv]
  exact current_effect_pushLevel f v

end

/-- Arms are walked through one after the other, and each of them says of every variable what
was known of it at its end. -/
theorem walkArms_eq_mapAll {arms : List (Flow Touch)}
    (h : ∀ arm ∈ arms, ∀ s : Scope τ, s.Steady →
      arm.walk mode (Touch.perform mode) s = .ok (s.mapAll arm.effect s.depth))
    (hs : s.Steady) :
    ∃ taken, walkArms mode (Touch.perform mode) arms s =
        .ok (taken, s.mapAll (fun v ↦ (armEffects arms v).2) s.depth) ∧
      ∀ v ∈ s.bindings, taken.map (·.order? v.name) = (armEffects arms v).1 := by
  induction arms generalizing s with
  | nil =>
    exact ⟨[], congrArg (Except.ok ∘ Prod.mk []) s.mapAll_id.symm, fun _ _ ↦ rfl⟩
  | cons arm arms ih =>
    obtain ⟨taken, htake, harm⟩ := takeArm_walked mode arm hs
    have hback : ∀ v : Variable τ, v.Follows ((arm.effect v).knowing v.current) :=
      fun v ↦ (follows_effect arm v).knowing fun _ ↦ .inl
    obtain ⟨rest, hrest, harms⟩ :=
      ih (fun a ha ↦ h a (List.mem_cons_of_mem arm ha)) (hs.mapAll hback)
    refine ⟨taken :: rest, ?_, fun v hv ↦ ?_⟩
    · rw [walkArms_cons_of_ok (h arm List.mem_cons_self _ hs.pushLevel) htake hrest,
        Scope.mapAll_mapAll]
      rfl
    · have hrest := harms _ (List.mem_map_of_mem hv)
      rw [(hback v).name_eq] at hrest
      rw [List.map_cons, harm v hv, hrest]
      rfl

/-- The walk through a flow does to each variable what becomes of it alone. -/
theorem walk_eq_mapAll (f : Flow Touch) (hs : s.Steady) :
    f.walk mode (Touch.perform mode) s = .ok (s.mapAll f.effect s.depth) := by
  induction f generalizing s with
  | skip => exact congrArg Except.ok s.mapAll_id.symm
  | act t => exact t.perform_eq_mapAll hs.inStep.nodup
  | seq first second ih₁ ih₂ =>
    rw [walk, ih₁ hs, Violation.ok_bind, ih₂ (hs.mapAll (follows_effect first)),
      Scope.mapAll_mapAll]
    rfl
  | region body ih =>
    rw [walk_region_of_ok (ih hs.pushLevel) (foldLevel_walked body hs)]
    rfl
  | branch arms exhaustive ih =>
    obtain ⟨taken, hwalk, hlevels⟩ := walkArms_eq_mapAll ih hs
    rw [walk, hwalk, Violation.ok_bind]
    change Except.ok (Scope.joinArms taken exhaustive _) = _
    cases exhaustive with
    | false => rfl
    | true =>
      rw [Scope.joinArms_true, Scope.mapAll_mapAll]
      refine congrArg _ (Scope.mapAll_congr fun v hv ↦ ?_)
      obtain ⟨harms, hcurrent, -⟩ := follows_armEffects arms (fun arm _ ↦ follows_effect arm) v
      have hmeet : (Arm.meet taken).order? (armEffects arms v).2.name =
          Level.meet (armEffects arms v).1 := by
        rw [Arm.order?_meet, harms.name_eq, hlevels v hv]
      rw [Function.comp_apply, Variable.settle_eq_knowing, hmeet, hcurrent]
      · rfl
      · rw [hmeet]
        exact noted_meet (fun arm _ ↦ follows_effect arm) (hs.noted v hv)

end Flow

end DefiniteAssignment
