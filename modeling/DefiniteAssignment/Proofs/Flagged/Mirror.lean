import DefiniteAssignment.Proofs.Flagged.WellFormed
import DefiniteAssignment.Proofs.Scope.Restriction

/-!
# Levels told with flags

A level that is an order or nothing can be told with a flag beside the order, and so can all that
has levels or orders in it: variables, arms and scopes. To work on a scope and then to tell it with
flags is to tell it so first and to work on that, for all that is done to scopes. A join is a loop
there, which gives values to variables one by one, and an arm is told its names one by one. Both
rest on distinct names.

Conversely whatever is well-formed is told of something, since a flag that agrees with its order
says nothing more.
-/

namespace DefiniteAssignment

variable {τ : Type}

def Level.flagged (l : Level) : FlaggedLevel := ⟨l.isSome, l⟩

theorem Level.flagged_order {l : FlaggedLevel} (h : l.initialized = l.order.isSome) :
    flagged l.order = l := by
  rw [flagged, ← h]

/-! ## Variables -/

namespace Variable

def flagged (v : Variable τ) : FlaggedVariable τ where
  toDeclaration := v.toDeclaration
  slot := v.slot
  inherited := v.inherited
  mutated := v.mutated
  levels := (v.current :: v.enclosing).map Level.flagged
  firstOrder := v.firstOrder

variable (v : Variable τ)

@[simp] theorem toDeclaration_flagged : v.flagged.toDeclaration = v.toDeclaration := rfl

@[simp] theorem initialized_flagged : v.flagged.initialized = v.initialized := rfl

theorem flagged_fresh (d : Declaration τ) (slot : SlotId) (inherited : Bool) (depth : Nat) :
    (fresh d slot inherited depth).flagged = .fresh d slot inherited depth := by
  induction depth with
  | zero => rfl
  | succ depth ih => exact congrArg FlaggedVariable.pushLevel ih

theorem flagged_define (order : Order) : (v.define order).flagged = v.flagged.define order := by
  rw [define, flagged, FlaggedVariable.define]
  cases h : v.firstOrder with
  | none => simp only [flagged, h]; rfl
  | some o => simp only [flagged, h]; rfl

theorem flagged_undefine : v.undefine.flagged = v.flagged.undefine := rfl

theorem flagged_pushLevel : v.pushLevel.flagged = v.flagged.pushLevel := rfl

theorem flagged_folded : v.folded.flagged = v.flagged.folded := by
  rw [folded, FlaggedVariable.folded]
  cases he : v.enclosing with
  | nil => simp only [flagged, he]; rfl
  | cons l outer =>
    simp only [flagged, he, leave]
    cases l <;> cases v.current <;> rfl

theorem flagged_shed : v.shed.flagged = v.flagged.shed := by
  rw [shed, FlaggedVariable.shed]
  cases he : v.enclosing with
  | nil => simp only [flagged, he]; rfl
  | cons l outer => simp only [flagged, he, leave]; rfl

theorem popBreach?_flagged : v.flagged.popBreach? = v.popBreach? := by
  rw [popBreach?, FlaggedVariable.popBreach?, depth]
  cases he : v.enclosing with
  | nil => simp only [flagged, he]; rfl
  | cons l outer => simp only [flagged, he]; rfl

theorem flagged_call (mode : Mode) (c : Call) :
    (v.call mode c).map (fun p ↦ p.2.flagged) = v.flagged.call mode c := by
  cases c with
  | define order => exact congrArg Except.ok (v.flagged_define order)
  | assign order span =>
    rw [call, assign, FlaggedVariable.call, FlaggedVariable.assign, initialized_flagged,
      toDeclaration_flagged]
    cases v.initialized with
    | false => exact congrArg Except.ok (v.flagged_define order)
    | true =>
      cases v.frozen with
      | false => exact congrArg Except.ok (v.markMutated.flagged_define order)
      | true => rfl
  | ensureInitialized span =>
    rw [call, ensureInitialized]
    split <;> rfl
  | foldLevel =>
    rw [call, FlaggedVariable.call, foldLevel_eq_stop, FlaggedVariable.foldLevel_eq_stop,
      popBreach?_flagged, Mode.map_stop, Mode.map_stop, ← flagged_folded]
    rfl
  | takeLevel =>
    rw [call, FlaggedVariable.call, takeLevel_eq_stop, FlaggedVariable.takeLevel_eq_stop,
      popBreach?_flagged, Mode.map_stop, Mode.map_stop, Mode.map_stop, ← flagged_shed]
    rfl
  | read | undefine | markMutated | pushLevel => rfl

theorem settle_singleton (e : String × Order) :
    v.settle ⟨[e]⟩ =
      if v.name = e.1 then (if v.initialized then v else v.define e.2) else v := by
  rw [settle, Arm.order?, List.lookup_cons, List.lookup_nil]
  by_cases hn : v.name = e.1
  · rw [if_pos hn, hn, beq_self_eq_true]
  · rw [if_neg hn, beq_eq_false_iff_ne.mpr hn]
    exact ite_self v

theorem settle_cons (e : String × Order) (es : List (String × Order)) :
    v.settle ⟨e :: es⟩ = (v.settle ⟨[e]⟩).settle ⟨es⟩ := by
  rw [settle_singleton]
  by_cases hn : v.name = e.1
  · rw [if_pos hn]
    cases hi : v.initialized with
    | true => rw [if_pos rfl, settle_of_initialized _ hi, settle_of_initialized _ hi]
    | false =>
      have horder : Arm.order? ⟨e :: es⟩ v.name = some e.2 := by
        rw [Arm.order?, List.lookup_cons, hn, beq_self_eq_true]
      rw [if_neg Bool.false_ne_true, settle_of_initialized _ (v.initialized_define e.2), settle, hi,
        horder]
      rfl
  · rw [if_neg hn]
    refine settle_congr ?_
    rw [Arm.order?, List.lookup_cons, beq_eq_false_iff_ne.mpr hn]
    rfl

end Variable

/-! ## Arms -/

namespace Arm

def flagged (a : Arm) : FlaggedArm := ⟨a.entries.map fun e ↦ (e.1, some e.2)⟩

theorem isInitialized_flagged (a : Arm) (name : String) :
    a.flagged.isInitialized name = a.knows name := by
  obtain ⟨entries⟩ := a
  rw [FlaggedArm.isInitialized, flagged, knows, order?]
  induction entries with
  | nil => rfl
  | cons e es ih =>
    rw [List.map_cons, List.lookup_cons, List.lookup_cons]
    cases name == e.1 with
    | true => rfl
    | false => exact ih

/-- What all arms know is what all of them were told, whatever would be made up. -/
theorem intersect_flagged (fallback : Order) (arms : List Arm) :
    FlaggedArm.intersect fallback (arms.map flagged) = (meet arms).entries := by
  cases arms with
  | nil => rfl
  | cons first rest =>
    rw [List.map_cons, FlaggedArm.intersect, meet, flagged, List.filter_map, List.map_map]
    simp only [Function.comp_def, List.all_map, isInitialized_flagged, Option.getD_some]
    exact List.map_id' _

end Arm

/-! ## Scopes -/

namespace Scope

def flagged (s : Scope τ) : FlaggedScope τ := ⟨s.bindings.map Variable.flagged, s.depth⟩

section
variable (s : Scope τ)

theorem names_flagged : s.flagged.names = s.names := by
  rw [FlaggedScope.names, flagged, List.map_map]
  rfl

theorem find?_flagged (name : String) :
    s.flagged.find? name = (s.find? name).map Variable.flagged := by
  rw [FlaggedScope.find?, flagged, List.find?_map]
  rfl

theorem contains_flagged (name : String) : s.flagged.contains name = s.contains name := by
  rw [FlaggedScope.contains, find?_flagged, Option.isSome_map, contains]

theorem flagged_mapAll {g : Variable τ → Variable τ} {g' : FlaggedVariable τ → FlaggedVariable τ}
    (hg : ∀ v, (g v).flagged = g' v.flagged) (depth : Nat) :
    (s.mapAll g depth).flagged = ⟨s.flagged.bindings.map g', depth⟩ := by
  simp only [flagged, mapAll, List.map_map, Function.comp_def, hg]

theorem flagged_set (name : String) (v : Variable τ) :
    (s.set name v).flagged = s.flagged.set name v.flagged := by
  refine s.flagged_mapAll (fun w ↦ ?_) s.depth
  rw [Variable.toDeclaration_flagged]
  split <;> rfl

theorem flagged_bind (d : Declaration τ) (slot : SlotId) (inherited : Bool) :
    (s.bind d slot inherited).flagged = s.flagged.bind d slot inherited := by
  rw [bind, flagged, FlaggedScope.bind, List.map_append, List.map_singleton,
    Variable.flagged_fresh]
  rfl

theorem flagged_call (mode : Mode) (name : String) (c : Variable.Call) :
    (s.call mode name c).map (fun p ↦ p.2.flagged) = s.flagged.call mode name c := by
  rw [FlaggedScope.call, find?_flagged]
  cases hv : s.find? name with
  | none =>
    rw [call_of_find?_eq_none hv]
    rfl
  | some v =>
    rw [call_of_find?_eq_some hv, Option.map_some]
    simp only [← v.flagged_call mode c]
    cases v.call mode c with
    | error e => rfl
    | ok p => exact congrArg Except.ok (s.flagged_set name p.2)

theorem flagged_setAll (initial : Bool) :
    (s.setAll initial).flagged = s.flagged.setAll initial := by
  refine s.flagged_mapAll (fun v ↦ ?_) s.depth
  cases initial with
  | true => exact v.flagged_define 0
  | false => exact v.flagged_undefine

theorem flagged_pushLevel : s.pushLevel.flagged = s.flagged.pushLevel :=
  s.flagged_mapAll Variable.flagged_pushLevel (s.depth + 1)

theorem popBreach?_flagged : s.flagged.popBreach? = s.popBreach? := by
  rw [FlaggedScope.popBreach?, popBreach?, flagged, List.findSome?_map]
  simp only [Function.comp_def, Variable.popBreach?_flagged]

theorem flagged_foldLevel (mode : Mode) :
    (s.foldLevel mode).map flagged = s.flagged.foldLevel mode := by
  have hfolded : s.folded.flagged = s.flagged.folded := by
    rw [folded, FlaggedScope.folded]
    by_cases hd : s.depth = 0
    · rw [if_pos hd]
      exact (if_pos hd).symm
    · rw [if_neg hd]
      exact (s.flagged_mapAll Variable.flagged_folded _).trans (if_neg hd).symm
  rw [foldLevel_eq_stop, FlaggedScope.foldLevel_eq_stop, popBreach?_flagged, Mode.map_stop,
    ← hfolded]
  rfl

end

theorem entries_flagged_knowledge (vs : List (Variable τ)) :
    (Arm.ofLevels (vs.map fun v ↦ (v.current, v))).flagged.entries =
      ((vs.map Variable.flagged).filter (·.initialized)).map fun v ↦ (v.name, v.top.order) := by
  induction vs with
  | nil => rfl
  | cons v vs ih =>
    simp only [Arm.ofLevels, Arm.flagged] at ih ⊢
    cases hc : v.current with
    | none =>
      have hi : ¬v.flagged.initialized := by simp [Variable.initialized, hc]
      rw [List.map_cons, List.map_cons, hc, List.filter_cons_of_neg hi]
      exact ih
    | some o =>
      have hi : v.flagged.initialized := by simp [Variable.initialized, hc]
      have htop : v.flagged.top.order = some o := hc
      rw [List.map_cons, List.map_cons, hc, List.filter_cons_of_pos hi, List.map_cons, htop, ← ih]
      rfl

/-- Told its names one by one, an arm knows what the scope knows. -/
theorem flagged_lastArm {s : Scope τ} (hs : s.names.Nodup) :
    s.lastArm.flagged = s.flagged.lastArm := by
  rw [lastArm, FlaggedScope.lastArm]
  by_cases hd : s.depth = 0
  · rw [if_pos hd]
    exact (if_pos hd).symm
  · have hnames : (s.flagged.bindings.map (·.name)).Nodup := by
      rw [← FlaggedScope.names, names_flagged]
      exact hs
    rw [if_neg hd]
    refine Eq.trans ?_ (if_neg hd).symm
    ext1
    rw [FlaggedArm.entries_foldl_tell {} hnames fun _ _ ↦ List.not_mem_nil, List.nil_append]
    exact entries_flagged_knowledge s.bindings

theorem flagged_takeArm {s : Scope τ} (hs : s.names.Nodup) (mode : Mode) :
    (s.takeArm mode).map (fun p ↦ (p.1.flagged, p.2.flagged)) = s.flagged.takeArm mode := by
  have hshed : s.shed.flagged = s.flagged.shed := by
    rw [shed, FlaggedScope.shed]
    by_cases hd : s.depth = 0
    · rw [if_pos hd]
      exact (if_pos hd).symm
    · rw [if_neg hd]
      exact (s.flagged_mapAll Variable.flagged_shed _).trans (if_neg hd).symm
  rw [takeArm_eq_stop, FlaggedScope.takeArm_eq_stop, popBreach?_flagged, Mode.map_stop, ← hshed,
    ← flagged_lastArm hs]
  rfl

theorem flagged_learn {s : Scope τ} (hs : s.names.Nodup) (e : String × Order) :
    (s.mapAll (.settle ⟨[e]⟩) s.depth).flagged = s.flagged.learn e := by
  have hid (h : ∀ u ∈ s.bindings, u.name = e.1 → u.initialized) :
      (s.mapAll (.settle ⟨[e]⟩) s.depth).flagged = s.flagged := by
    have hsettle : ∀ u ∈ s.bindings, u.settle ⟨[e]⟩ = id u := by
      intro u hu
      rw [Variable.settle_singleton]
      split
      · next hn => exact if_pos (h u hu hn)
      · rfl
    rw [mapAll_congr hsettle, mapAll_id]
  cases hv : s.find? e.1 with
  | none =>
    rw [FlaggedScope.learn, find?_flagged, hv]
    exact hid fun u hu hn ↦ absurd (List.mem_map.mpr ⟨u, hu, hn⟩) (find?_eq_none_iff.mp hv)
  | some v =>
    rw [FlaggedScope.learn, find?_flagged, hv, Option.map_some]
    cases hi : v.initialized with
    | true =>
      simp only [Variable.initialized_flagged, hi, if_true]
      refine hid fun u hu hn ↦ ?_
      rw [eq_of_name hs hv hu hn]
      exact hi
    | false =>
      have hsettle : ∀ u ∈ s.bindings,
          u.settle ⟨[e]⟩ = if u.name = e.1 then v.define e.2 else u := by
        intro u hu
        rw [Variable.settle_singleton]
        split
        · next hn => rw [eq_of_name hs hv hu hn, hi, if_neg Bool.false_ne_true]
        · rfl
      simp only [Variable.initialized_flagged, hi, Bool.false_eq_true, if_false]
      rw [mapAll_congr hsettle, ← set_eq_mapAll, flagged_set, Variable.flagged_define]

/-- To settle all variables by an arm is to learn its entries one by one. -/
theorem flagged_settle {s : Scope τ} (hs : s.names.Nodup) (a : Arm) :
    (s.mapAll (.settle a) s.depth).flagged = a.entries.foldl .learn s.flagged := by
  obtain ⟨entries⟩ := a
  induction entries generalizing s with
  | nil => rw [show Variable.settle ⟨[]⟩ = id from funext Variable.settle_empty, mapAll_id]; rfl
  | cons e es ih =>
    have hs' : (s.mapAll (.settle ⟨[e]⟩) s.depth).names.Nodup := by
      rw [names_congr (identities_mapAll fun v _ ↦ v.identity_settle _)]
      exact hs
    have hsettle : (Variable.settle ⟨e :: es⟩ : Variable τ → Variable τ) =
        Variable.settle ⟨es⟩ ∘ Variable.settle ⟨[e]⟩ := funext fun v ↦ v.settle_cons e es
    rw [List.foldl_cons, ← flagged_learn hs, ← ih hs', hsettle]
    exact congrArg flagged mapAll_mapAll.symm

theorem flagged_joinArms {s : Scope τ} (hs : s.names.Nodup) (fallback : Order) (arms : List Arm)
    (exhaustive : Bool) : (s.joinArms arms exhaustive).flagged =
      s.flagged.joinArms fallback (arms.map Arm.flagged) exhaustive := by
  cases exhaustive with
  | false => rfl
  | true =>
    rw [joinArms_true, flagged_settle hs, FlaggedScope.joinArms, if_pos rfl, Arm.intersect_flagged]

/-- To work on a scope and to tell it with flags then is to tell it with flags and to work on
that. -/
structure Mirrored (s : Scope τ) : Prop where
  bind (d : Declaration τ) (slot : SlotId) (inherited : Bool) :
    (s.bind d slot inherited).flagged = s.flagged.bind d slot inherited
  call (mode : Mode) (name : String) (c : Variable.Call) :
    (s.call mode name c).map (fun p ↦ p.2.flagged) = s.flagged.call mode name c
  setAll (initial : Bool) : (s.setAll initial).flagged = s.flagged.setAll initial
  pushLevel : s.pushLevel.flagged = s.flagged.pushLevel
  foldLevel (mode : Mode) : (s.foldLevel mode).map flagged = s.flagged.foldLevel mode
  takeArm (mode : Mode) :
    (s.takeArm mode).map (fun p ↦ (p.1.flagged, p.2.flagged)) = s.flagged.takeArm mode
  joinArms (fallback : Order) (arms : List Arm) (exhaustive : Bool) :
    (s.joinArms arms exhaustive).flagged =
      s.flagged.joinArms fallback (arms.map Arm.flagged) exhaustive

theorem mirrored {s : Scope τ} (hs : s.names.Nodup) : s.Mirrored where
  bind := s.flagged_bind
  call := s.flagged_call
  setAll := s.flagged_setAll
  pushLevel := s.flagged_pushLevel
  foldLevel := s.flagged_foldLevel
  takeArm := flagged_takeArm hs
  joinArms := flagged_joinArms hs

end Scope

/-! ## Without flags -/

/-- A variable as the orders alone tell it. -/
def FlaggedVariable.plain (v : FlaggedVariable τ) : Variable τ where
  toDeclaration := v.toDeclaration
  slot := v.slot
  inherited := v.inherited
  mutated := v.mutated
  current := v.top.order
  enclosing := v.levels.tail.map (·.order)
  firstOrder := v.firstOrder

theorem FlaggedVariable.WellFormed.flagged_plain {v : FlaggedVariable τ} (h : v.WellFormed) :
    v.plain.flagged = v := by
  have hlevels : (v.levels.map (·.order)).map Level.flagged = v.levels := by
    rw [List.map_map]
    exact (List.map_congr_left fun l hl ↦ Level.flagged_order (h.agree l hl)).trans (List.map_id' _)
  have htop : v.top.order :: v.levels.tail.map (·.order) = v.levels.map (·.order) := by
    rw [top]
    cases hl : v.levels with
    | nil => exact absurd hl h.levels_ne_nil
    | cons l rest => rfl
  rw [plain, Variable.flagged, htop, hlevels]

/-- A well-formed scope is told of a scope, since its flags say nothing more than its orders. -/
theorem FlaggedScope.WellFormed.exists_flagged_eq {s : FlaggedScope τ} (h : s.WellFormed) :
    ∃ t : Scope τ, t.flagged = s := by
  refine ⟨{ bindings := s.bindings.map FlaggedVariable.plain, depth := s.depth }, ?_⟩
  have hbindings : (s.bindings.map FlaggedVariable.plain).map Variable.flagged = s.bindings := by
    rw [List.map_map]
    exact (List.map_congr_left fun v hv ↦ (h.variable_wellFormed v hv).flagged_plain).trans
      (List.map_id' _)
  rw [Scope.flagged, hbindings]

end DefiniteAssignment
