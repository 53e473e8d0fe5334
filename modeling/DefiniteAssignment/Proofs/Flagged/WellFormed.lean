import DefiniteAssignment.Proofs.Flagged.Basic
import Mathlib.Data.List.Nodup

/-!
# Flags and orders go together

Whatever is done to scopes in which flags are kept beside orders, a variable has a level, each of
its levels has an order exactly if it has a value, and with a value at any level goes the order of
the first. The writers of a level write both parts of it; everything else copies levels, drops
them, or keeps the one or the other. No pop takes the only level.

An arm is told the name of each variable once, since a scope binds each name once. So it has
exactly the variables that have a value at the level that ends, with the orders they have there,
and nothing is made up when arms are joined.
-/

namespace DefiniteAssignment

variable {τ : Type}

/-! ## One variable -/

namespace FlaggedVariable

variable {v w : FlaggedVariable τ} {mode : Mode}

/-- A variable has a level, its levels have an order exactly if they have a value, and with a value
at any of them goes the order of the first. -/
structure WellFormed (v : FlaggedVariable τ) : Prop where
  levels_ne_nil : v.levels ≠ []
  agree : ∀ l ∈ v.levels, l.initialized = l.order.isSome
  dated : ∀ l ∈ v.levels, l.initialized → v.firstOrder.isSome

namespace WellFormed

/-- Levels may be copied, dropped, and emptied of both flag and order. -/
theorem of_levels (h : v.WellFormed) (hne : w.levels ≠ []) (hfirst : w.firstOrder = v.firstOrder)
    (hl : ∀ l ∈ w.levels, l ∈ v.levels ∨ l = {}) : w.WellFormed where
  levels_ne_nil := hne
  agree l hmem := by
    rcases hl l hmem with hv | rfl
    · exact h.agree l hv
    · rfl
  dated l hmem hinit := by
    rw [hfirst]
    rcases hl l hmem with hv | rfl
    · exact h.dated l hv hinit
    · cases hinit

end WellFormed

theorem top_mem (h : v.levels ≠ []) : v.top ∈ v.levels := by
  rw [top]
  cases hl : v.levels with
  | nil => exact absurd hl h
  | cons l rest => exact List.mem_cons_self

theorem setTop_ne_nil (h : v.levels ≠ []) (l : FlaggedLevel) : (v.setTop l).levels ≠ [] := by
  rw [setTop]
  cases hl : v.levels with
  | nil => exact absurd hl h
  | cons m rest => exact List.cons_ne_nil l rest

/-- Only the current level is overwritten. -/
theorem mem_setTop {l m : FlaggedLevel} (h : m ∈ (v.setTop l).levels) : m = l ∨ m ∈ v.levels := by
  rw [setTop] at h
  cases hl : v.levels with
  | nil =>
    rw [hl] at h
    cases h
  | cons n rest =>
    rw [hl] at h
    rcases List.mem_cons.mp h with hm | hm
    · exact .inl hm
    · exact .inr (List.mem_cons_of_mem n hm)

theorem isSome_firstOrder_define (order : Order) (v : FlaggedVariable τ) :
    (v.define order).firstOrder.isSome := by
  rw [define]
  cases v.firstOrder <;> rfl

namespace WellFormed

theorem define (h : v.WellFormed) (order : Order) : (v.define order).WellFormed where
  levels_ne_nil := setTop_ne_nil h.levels_ne_nil _
  agree l hl := by
    rcases mem_setTop hl with rfl | hl
    · rfl
    · exact h.agree l hl
  dated _ _ _ := isSome_firstOrder_define order v

theorem undefine (h : v.WellFormed) : v.undefine.WellFormed :=
  h.of_levels (setTop_ne_nil h.levels_ne_nil _) rfl fun _ hl ↦ (mem_setTop hl).symm

theorem markMutated (h : v.WellFormed) : v.markMutated.WellFormed :=
  ⟨h.levels_ne_nil, h.agree, h.dated⟩

theorem assign (h : v.WellFormed) (order : Order) : (v.assign order).WellFormed := by
  rw [FlaggedVariable.assign]
  split
  · split
    · exact h
    · exact h.markMutated.define order
  · exact h.define order

theorem pushLevel (h : v.WellFormed) : v.pushLevel.WellFormed := by
  refine h.of_levels (List.cons_ne_nil _ _) rfl fun l hl ↦ .inl ?_
  rcases List.mem_cons.mp hl with rfl | hl
  · exact top_mem h.levels_ne_nil
  · exact hl

end WellFormed

@[simp] theorem toDeclaration_fresh (d : Declaration τ) (slot : SlotId) (inherited : Bool)
    (depth : Nat) : (fresh d slot inherited depth).toDeclaration = d := by
  induction depth with
  | zero => rfl
  | succ depth ih => exact ih

theorem wellFormed_fresh (d : Declaration τ) (slot : SlotId) (inherited : Bool) (depth : Nat) :
    (fresh d slot inherited depth).WellFormed := by
  induction depth with
  | zero =>
    refine ⟨List.cons_ne_nil _ _, fun l hl ↦ ?_, fun l hl hinit ↦ ?_⟩
    · rw [List.mem_singleton.mp hl]
      rfl
    · rw [List.mem_singleton.mp hl] at hinit
      cases hinit
  | succ depth ih => exact ih.pushLevel

/-! ### Pops -/

/-- The end of a region that always runs. The base level stays. -/
def folded (v : FlaggedVariable τ) : FlaggedVariable τ :=
  match v.levels with
  | l :: outer :: rest =>
    { v with levels := (if l.initialized && !outer.initialized then l else outer) :: rest }
  | _ => v

/-- The end of an arm. The base level stays. -/
def shed (v : FlaggedVariable τ) : FlaggedVariable τ :=
  match v.levels with
  | _ :: outer :: rest => { v with levels := outer :: rest }
  | _ => v

/-- What is breached where a level of the variable ends. -/
def popBreach? (v : FlaggedVariable τ) : Option Violation :=
  match v.levels with
  | _ :: _ :: _ => none
  | _ => some (.basePop v.name)

theorem foldLevel_eq_stop (mode : Mode) (v : FlaggedVariable τ) :
    v.foldLevel mode = mode.stop v.popBreach? (.ok v.folded) := by
  rcases hl : v.levels with _ | ⟨l, _ | ⟨outer, rest⟩⟩
  · simp only [foldLevel, popLevel, popBreach?, folded, hl, Mode.breach_eq_stop, Mode.bind_stop]
    rfl
  · simp only [foldLevel, popLevel, popBreach?, folded, hl, Mode.breach_eq_stop, Mode.bind_stop]
    rfl
  · simp only [foldLevel, popLevel, popBreach?, folded, hl, Violation.ok_bind, Mode.stop_none]
    simp only [initialized, top, setTop, List.headD_cons, List.modifyHead_cons]
    split <;> rfl

theorem takeLevel_eq_stop (mode : Mode) (v : FlaggedVariable τ) :
    v.takeLevel mode = mode.stop v.popBreach? (.ok (v.top, v.shed)) := by
  rcases hl : v.levels with _ | ⟨l, _ | ⟨outer, rest⟩⟩
  · simp only [takeLevel, popLevel, popBreach?, shed, hl, Mode.breach_eq_stop, Mode.bind_stop]
    rfl
  · simp only [takeLevel, popLevel, popBreach?, shed, hl, Mode.breach_eq_stop, Mode.bind_stop]
    rfl
  · simp only [takeLevel, popLevel, popBreach?, shed, top, hl, Violation.ok_bind, Mode.stop_none]
    rfl

@[simp] theorem toDeclaration_folded (v : FlaggedVariable τ) :
    v.folded.toDeclaration = v.toDeclaration := by
  unfold folded
  split <;> rfl

@[simp] theorem toDeclaration_shed (v : FlaggedVariable τ) :
    v.shed.toDeclaration = v.toDeclaration := by
  unfold shed
  split <;> rfl

namespace WellFormed

theorem folded (h : v.WellFormed) : v.folded.WellFormed := by
  rw [FlaggedVariable.folded]
  split
  · next l outer rest hl =>
    refine h.of_levels (List.cons_ne_nil _ _) rfl fun m hm ↦ .inl ?_
    rw [hl]
    rcases List.mem_cons.mp hm with rfl | hm
    · split
      · exact List.mem_cons_self
      · exact List.mem_cons_of_mem l List.mem_cons_self
    · exact List.mem_cons_of_mem l (List.mem_cons_of_mem outer hm)
  · exact h

theorem shed (h : v.WellFormed) : v.shed.WellFormed := by
  rw [FlaggedVariable.shed]
  split
  · next l outer rest hl =>
    refine h.of_levels (List.cons_ne_nil _ _) rfl fun m hm ↦ .inl ?_
    rw [hl]
    exact List.mem_cons_of_mem l hm
  · exact h

/-- No call leaves a variable otherwise, and none touches what was declared. -/
theorem of_call {c : Variable.Call} (h : v.WellFormed) (hcall : v.call mode c = .ok w) :
    w.WellFormed ∧ w.name = v.name := by
  cases c with
  | read | ensureInitialized =>
    cases hcall
    exact ⟨h, rfl⟩
  | define order =>
    cases hcall
    exact ⟨h.define order, rfl⟩
  | undefine =>
    cases hcall
    exact ⟨h.undefine, rfl⟩
  | markMutated =>
    cases hcall
    exact ⟨h.markMutated, rfl⟩
  | assign order span =>
    cases hcall
    refine ⟨h.assign order, ?_⟩
    rw [FlaggedVariable.assign]
    split
    · split <;> rfl
    · rfl
  | pushLevel =>
    cases hcall
    exact ⟨h.pushLevel, rfl⟩
  | foldLevel =>
    rw [FlaggedVariable.call, foldLevel_eq_stop] at hcall
    rw [Mode.eq_of_stop_eq_ok hcall]
    exact ⟨h.folded, by rw [toDeclaration_folded]⟩
  | takeLevel =>
    rw [FlaggedVariable.call, takeLevel_eq_stop, Mode.map_stop] at hcall
    rw [Mode.eq_of_stop_eq_ok hcall]
    exact ⟨h.shed, by rw [toDeclaration_shed]⟩

end WellFormed

end FlaggedVariable

/-! ## Arms -/

namespace FlaggedArm

/-- Every name an arm was told comes with an order. -/
def WellFormed (a : FlaggedArm) : Prop := ∀ e ∈ a.entries, e.2.isSome

variable {a : FlaggedArm} {name : String}

theorem isInitialized_eq_false_iff :
    a.isInitialized name = false ↔ name ∉ a.entries.map Prod.fst := by
  rw [isInitialized, Option.isSome_eq_false_iff, Option.isNone_iff_eq_none,
    List.lookup_eq_none_iff]
  constructor
  · intro h hmem
    obtain ⟨e, he, rfl⟩ := List.mem_map.mp hmem
    exact bne_iff_ne.mp (h e he) rfl
  · intro h e he
    refine bne_iff_ne.mpr fun hname ↦ h ?_
    rw [hname]
    exact List.mem_map_of_mem he

/-- An order is there exactly for the names that are initialized. -/
theorem WellFormed.isSome_order (h : a.WellFormed) (name : String) :
    (a.order name).isSome = a.isInitialized name := by
  rw [order, isInitialized]
  cases hl : a.entries.lookup name with
  | none => rfl
  | some o =>
    obtain ⟨before, after, he, -⟩ := List.lookup_eq_some_iff.mp hl
    have hmem : (name, o) ∈ a.entries := by
      rw [he]
      exact List.mem_append_right before List.mem_cons_self
    exact h (name, o) hmem

/-- No order is made up. -/
theorem intersect_eq {arms : List FlaggedArm} (h : ∀ a ∈ arms, a.WellFormed)
    (fallback fallback' : Order) : intersect fallback arms = intersect fallback' arms := by
  cases arms with
  | nil => rfl
  | cons first rest =>
    refine List.map_congr_left fun e he ↦ ?_
    have hsome := h first List.mem_cons_self e (List.mem_of_mem_filter he)
    obtain ⟨o, ho⟩ := Option.isSome_iff_exists.mp hsome
    rw [ho, Option.getD_some, Option.getD_some]

/-- Tells an arm that ends what is known of a variable. -/
def tell (a : FlaggedArm) (v : FlaggedVariable τ) : FlaggedArm :=
  if v.initialized then a.record v.name v.top.order else a

/-- Where no name was told before or is told twice, the names that are told stand one behind the
other. -/
theorem entries_foldl_tell {vs : List (FlaggedVariable τ)} (a : FlaggedArm)
    (hnodup : (vs.map (·.name)).Nodup) (hnew : ∀ v ∈ vs, v.name ∉ a.entries.map Prod.fst) :
    (vs.foldl tell a).entries =
      a.entries ++ (vs.filter (·.initialized)).map fun v ↦ (v.name, v.top.order) := by
  induction vs generalizing a with
  | nil => exact (List.append_nil _).symm
  | cons v vs ih =>
    rw [List.map_cons, List.nodup_cons] at hnodup
    obtain ⟨hv, hvs⟩ := List.forall_mem_cons.mp hnew
    rw [List.foldl_cons, tell]
    cases hi : v.initialized with
    | false =>
      rw [if_neg Bool.false_ne_true, ih a hnodup.2 hvs, List.filter_cons_of_neg (by simp [hi])]
    | true =>
      have hrecord : a.record v.name v.top.order = ⟨a.entries ++ [(v.name, v.top.order)]⟩ := by
        rw [record, isInitialized_eq_false_iff.mpr hv]
        rfl
      have hvs' : ∀ w ∈ vs, w.name ∉ (a.entries ++ [(v.name, v.top.order)]).map Prod.fst := by
        intro w hw hmem
        rw [List.map_append, List.mem_append] at hmem
        rcases hmem with hmem | hmem
        · exact hvs w hw hmem
        · exact hnodup.1 (List.mem_map.mpr ⟨w, hw, List.mem_singleton.mp hmem⟩)
      rw [if_pos rfl, hrecord, ih _ hnodup.2 hvs', List.filter_cons_of_pos hi, List.map_cons,
        List.append_assoc, List.singleton_append]

end FlaggedArm

/-! ## Scopes -/

namespace FlaggedScope

def names (s : FlaggedScope τ) : List String := s.bindings.map (·.name)

/-- Each name is bound once, and the variables are well-formed. -/
structure WellFormed (s : FlaggedScope τ) : Prop where
  nodup : s.names.Nodup
  variable_wellFormed : ∀ v ∈ s.bindings, v.WellFormed

variable {s t : FlaggedScope τ} {mode : Mode} {name : String}

theorem contains_iff : s.contains name ↔ name ∈ s.names := by
  simp [contains, find?, names, List.find?_isSome]

theorem mem_of_find? {v : FlaggedVariable τ} (h : s.find? name = some v) :
    v ∈ s.bindings ∧ v.name = name :=
  ⟨List.mem_of_find?_eq_some h, by simpa using List.find?_some h⟩

/-! ### Pops -/

/-- The end of a region that always runs. A scope with no level pushed stays. -/
def folded (s : FlaggedScope τ) : FlaggedScope τ :=
  if s.depth = 0 then s else ⟨s.bindings.map .folded, s.depth - 1⟩

/-- The end of an arm. A scope with no level pushed stays. -/
def shed (s : FlaggedScope τ) : FlaggedScope τ :=
  if s.depth = 0 then s else ⟨s.bindings.map .shed, s.depth - 1⟩

/-- What an arm that ends here was told. -/
def lastArm (s : FlaggedScope τ) : FlaggedArm :=
  if s.depth = 0 then {} else s.bindings.foldl .tell {}

/-- What is breached where a level of the scope ends. -/
def popBreach? (s : FlaggedScope τ) : Option Violation :=
  if s.depth = 0 then some .unbalancedPop else s.bindings.findSome? FlaggedVariable.popBreach?

theorem foldLevel_eq_stop (mode : Mode) (s : FlaggedScope τ) :
    s.foldLevel mode = mode.stop s.popBreach? (.ok s.folded) := by
  unfold foldLevel folded popBreach?
  split
  · next h => rw [if_pos h, if_pos h, Mode.breach_eq_stop]
  · next d h =>
    have hd : s.depth ≠ 0 := by omega
    rw [if_neg hd, if_neg hd, h,
      Mode.mapM_eq_stop fun v _ ↦ FlaggedVariable.foldLevel_eq_stop mode v, Mode.bind_stop]
    rfl

/-- The loop over the variables stops where the first of them breaches the contract. -/
theorem takeAll_eq_stop (mode : Mode) (vs : List (FlaggedVariable τ)) (a : FlaggedArm) :
    takeAll mode vs a = mode.stop (vs.findSome? FlaggedVariable.popBreach?)
      (.ok (vs.map .shed, vs.foldl .tell a)) := by
  induction vs generalizing a with
  | nil => rw [List.findSome?_nil, Mode.stop_none]; rfl
  | cons v vs ih =>
    rw [takeAll, FlaggedVariable.takeLevel_eq_stop, Mode.bind_stop, Violation.ok_bind]
    simp only [ih, Mode.bind_stop, Violation.ok_bind]
    rw [Mode.stop_stop, List.findSome?_cons]
    cases v.popBreach? <;> rfl

theorem takeArm_eq_stop (mode : Mode) (s : FlaggedScope τ) :
    s.takeArm mode = mode.stop s.popBreach? (.ok (s.lastArm, s.shed)) := by
  unfold takeArm lastArm shed popBreach?
  split
  · next h => rw [if_pos h, if_pos h, if_pos h, Mode.breach_eq_stop]
  · next d h =>
    have hd : s.depth ≠ 0 := by omega
    rw [if_neg hd, if_neg hd, if_neg hd, h, takeAll_eq_stop, Mode.bind_stop]
    rfl

namespace WellFormed

theorem map {g : FlaggedVariable τ → FlaggedVariable τ} (h : s.WellFormed)
    (hg : ∀ v ∈ s.bindings, (g v).WellFormed ∧ (g v).name = v.name) (depth : Nat) :
    WellFormed ⟨s.bindings.map g, depth⟩ where
  nodup := by
    have hnames : (s.bindings.map g).map (·.name) = s.names := by
      rw [List.map_map]
      exact List.map_congr_left fun v hv ↦ (hg v hv).2
    rw [names, hnames]
    exact h.nodup
  variable_wellFormed w hw := by
    obtain ⟨v, hv, rfl⟩ := List.mem_map.mp hw
    exact (hg v hv).1

theorem bind {d : Declaration τ} (h : s.WellFormed) (slot : SlotId) (inherited : Bool)
    (hfree : s.contains d.name = false) : (s.bind d slot inherited).WellFormed := by
  constructor
  · rw [names, FlaggedScope.bind, List.map_append, List.nodup_append]
    refine ⟨h.nodup, List.nodup_singleton _, ?_⟩
    rintro n hn m hm rfl
    rw [List.map_singleton, FlaggedVariable.toDeclaration_fresh, List.mem_singleton] at hm
    rw [hm, ← names, ← contains_iff, hfree] at hn
    cases hn
  · intro v hv
    rcases List.mem_append.mp hv with hv | hv
    · exact h.variable_wellFormed v hv
    · rw [List.mem_singleton.mp hv]
      exact FlaggedVariable.wellFormed_fresh d slot inherited s.depth

theorem set {v w : FlaggedVariable τ} (h : s.WellFormed) (hv : s.find? name = some v)
    (hw : w.WellFormed) (hname : w.name = v.name) : (s.set name w).WellFormed := by
  refine h.map (fun u hu ↦ ?_) s.depth
  split
  · next hn => exact ⟨hw, hname.trans ((mem_of_find? hv).2.trans hn.symm)⟩
  · exact ⟨h.variable_wellFormed u hu, rfl⟩

theorem call {c : Variable.Call} (h : s.WellFormed) (hcall : s.call mode name c = .ok t) :
    t.WellFormed := by
  cases hv : s.find? name with
  | none =>
    simp only [FlaggedScope.call, hv] at hcall
    cases hcall
    exact h
  | some v =>
    simp only [FlaggedScope.call, hv] at hcall
    cases hw : v.call mode c with
    | error e =>
      rw [hw] at hcall
      cases hcall
    | ok w =>
      rw [hw] at hcall
      cases hcall
      obtain ⟨hwell, hname⟩ := (h.variable_wellFormed v (mem_of_find? hv).1).of_call hw
      exact h.set hv hwell hname

theorem setAll (h : s.WellFormed) (initial : Bool) : (s.setAll initial).WellFormed := by
  refine h.map (fun v hv ↦ ?_) s.depth
  have hv := h.variable_wellFormed v hv
  cases initial with
  | true => exact ⟨hv.define 0, rfl⟩
  | false => exact ⟨hv.undefine, rfl⟩

theorem pushLevel (h : s.WellFormed) : s.pushLevel.WellFormed :=
  h.map (fun v hv ↦ ⟨(h.variable_wellFormed v hv).pushLevel, rfl⟩) _

theorem folded (h : s.WellFormed) : s.folded.WellFormed := by
  rw [FlaggedScope.folded]
  split
  · exact h
  · refine h.map (fun v hv ↦ ⟨(h.variable_wellFormed v hv).folded, ?_⟩) _
    rw [FlaggedVariable.toDeclaration_folded]

theorem shed (h : s.WellFormed) : s.shed.WellFormed := by
  rw [FlaggedScope.shed]
  split
  · exact h
  · refine h.map (fun v hv ↦ ⟨(h.variable_wellFormed v hv).shed, ?_⟩) _
    rw [FlaggedVariable.toDeclaration_shed]

/-- Whatever order a variable is given, it is given flag and order together. -/
theorem learn (h : s.WellFormed) (e : String × Order) : (s.learn e).WellFormed := by
  rw [FlaggedScope.learn]
  split
  · exact h
  · next v hv =>
    split
    · exact h
    · exact h.set hv ((h.variable_wellFormed v (mem_of_find? hv).1).define e.2) rfl

theorem joinArms (h : s.WellFormed) (fallback : Order) (arms : List FlaggedArm)
    (exhaustive : Bool) : (s.joinArms fallback arms exhaustive).WellFormed := by
  rw [FlaggedScope.joinArms]
  split
  · generalize FlaggedArm.intersect fallback arms = entries
    induction entries generalizing s with
    | nil => exact h
    | cons e entries ih => exact ih (h.learn e)
  · exact h

/-- An arm that ends has exactly the variables with a value at their current levels, in declaration
order, each with its order there. Where no level is pushed, it has none. -/
theorem entries_lastArm (h : s.WellFormed) : s.lastArm.entries =
    if s.depth = 0 then []
    else (s.bindings.filter (·.initialized)).map fun v ↦ (v.name, v.top.order) := by
  rw [lastArm]
  split
  · rfl
  · exact FlaggedArm.entries_foldl_tell {} h.nodup fun _ _ ↦ List.not_mem_nil

theorem wellFormed_lastArm (h : s.WellFormed) : s.lastArm.WellFormed := by
  intro e he
  rw [h.entries_lastArm] at he
  split at he
  · cases he
  · obtain ⟨v, hv, rfl⟩ := List.mem_map.mp he
    obtain ⟨hmem, hi⟩ := List.mem_filter.mp hv
    have hv := h.variable_wellFormed v hmem
    exact (hv.agree v.top (FlaggedVariable.top_mem hv.levels_ne_nil)).symm.trans hi

end WellFormed

end FlaggedScope

/-! ## All that comes about -/

def Flagged.WellFormed : Flagged τ → Prop
  | scope s => s.WellFormed
  | arm a => a.WellFormed

/-- Whatever is done, in whatever sequence and mode. -/
theorem Flagged.Arises.wellFormed {f : Flagged τ} (h : f.Arises) : f.WellFormed := by
  induction h with
  | opened depth => exact ⟨List.nodup_nil, fun _ hv ↦ absurd hv List.not_mem_nil⟩
  | bind slot inherited _ hfree ih => exact FlaggedScope.WellFormed.bind ih slot inherited hfree
  | call _ hcall ih => exact FlaggedScope.WellFormed.call ih hcall
  | setAll initial _ ih => exact FlaggedScope.WellFormed.setAll ih initial
  | pushLevel _ ih => exact FlaggedScope.WellFormed.pushLevel ih
  | foldLevel _ hfold ih =>
    rw [FlaggedScope.foldLevel_eq_stop] at hfold
    rw [Mode.eq_of_stop_eq_ok hfold]
    exact FlaggedScope.WellFormed.folded ih
  | takeArm _ htake ih =>
    rw [FlaggedScope.takeArm_eq_stop] at htake
    cases Mode.eq_of_stop_eq_ok htake
    exact FlaggedScope.WellFormed.shed ih
  | taken _ htake ih =>
    rw [FlaggedScope.takeArm_eq_stop] at htake
    cases Mode.eq_of_stop_eq_ok htake
    exact FlaggedScope.WellFormed.wellFormed_lastArm ih
  | nothing => exact fun _ he ↦ absurd he List.not_mem_nil
  | joinArms fallback exhaustive _ _ ih _ =>
    exact FlaggedScope.WellFormed.joinArms ih fallback _ exhaustive

end DefiniteAssignment
