import DefiniteAssignment.Proofs.Contract.Pops
import Mathlib.Data.List.Nodup

/-!
# Scopes in step

A scope is in step with its variables if it binds each name once and every variable has
as many levels as the scope has pushed, and its base level. Seen from outside, such a
scope is its list of bindings together with two functions on names: the level a name
has now, and the levels around it. A name that is not bound counts as one that nothing
is known about at any level, so that declaring a variable changes neither function.

Below, each operation on a scope is put in these terms, one group of lemmas for each.
-/

namespace DefiniteAssignment

variable {τ : Type}

/-- What never changes of a variable. -/
def Variable.identity (v : Variable τ) : Declaration τ × SlotId × Bool :=
  (v.toDeclaration, v.slot, v.inherited)

namespace Variable

theorem name_eq_of_identity {v w : Variable τ} (h : v.identity = w.identity) :
    v.name = w.name := congrArg (·.1.name) h

theorem frozen_eq_of_identity {v w : Variable τ} (h : v.identity = w.identity) :
    v.frozen = w.frozen := congrArg (·.1.frozen) h

@[simp] theorem identity_pushLevel (v : Variable τ) : v.pushLevel.identity = v.identity := rfl

@[simp] theorem identity_folded (v : Variable τ) : v.folded.identity = v.identity := by
  unfold folded
  split <;> rfl

@[simp] theorem identity_shed (v : Variable τ) : v.shed.identity = v.identity := by
  unfold shed
  split <;> rfl

@[simp] theorem identity_settle (a : Arm) (v : Variable τ) :
    (settle a v).identity = v.identity := by
  unfold settle
  split
  · rfl
  · split <;> rfl

/-- What an arm says about a variable is folded into what is known of it. -/
theorem current_settle (a : Arm) (v : Variable τ) :
    (settle a v).current = Level.fold v.current (a.order? v.name) := by
  unfold settle initialized
  cases hc : v.current with
  | some o => simp [hc]
  | none =>
    simp only [Option.isSome_none, Bool.false_eq_true, if_false, Level.fold_none]
    cases a.order? v.name with
    | none => exact hc
    | some o => rfl

theorem folded_of_enclosing {v : Variable τ} {l : Level} {outer : List Level}
    (h : v.enclosing = l :: outer) : v.folded = v.leave (Level.fold l v.current) outer := by
  simp only [folded, h]

theorem shed_of_enclosing {v : Variable τ} {l : Level} {outer : List Level}
    (h : v.enclosing = l :: outer) : v.shed = v.leave l outer := by
  simp only [shed, h]

/-- A way to end the current level of a variable: the level around it, and what it learned,
are made one by `keep`. -/
structure Leaves (keep : Level → Level → Level) (g : Variable τ → Variable τ) : Prop where
  identity (v : Variable τ) : (g v).identity = v.identity
  leave {v : Variable τ} {l : Level} {outer : List Level} :
    v.enclosing = l :: outer → g v = v.leave (keep l v.current) outer
  /-- Nothing comes of nothing. -/
  keep_none : keep none none = none

theorem leaves_folded : Leaves Level.fold (folded : Variable τ → Variable τ) :=
  ⟨identity_folded, folded_of_enclosing, rfl⟩

theorem leaves_shed : Leaves (fun l _ ↦ l) (shed : Variable τ → Variable τ) :=
  ⟨identity_shed, shed_of_enclosing, rfl⟩

end Variable

namespace Scope

/-- The bindings, in the order they were declared, without what is known of them. -/
def identities (s : Scope τ) : List (Declaration τ × SlotId × Bool) :=
  s.bindings.map Variable.identity

def names (s : Scope τ) : List String := s.bindings.map (·.name)

theorem names_eq_map_identities (s : Scope τ) : s.names = s.identities.map (·.1.name) := by
  simp [names, identities, Variable.identity]

theorem names_congr {s t : Scope τ} (h : s.identities = t.identities) : s.names = t.names := by
  rw [names_eq_map_identities, names_eq_map_identities, h]

/-- The level of a name. -/
def current (s : Scope τ) (name : String) : Level := (s.find? name).elim none Variable.current

/-- The levels around the current one of a name, the nearest first. -/
def around (s : Scope τ) (name : String) : List Level :=
  (s.find? name).elim (List.replicate s.depth none) Variable.enclosing

theorem mem_names_iff {s : Scope τ} {name : String} : name ∈ s.names ↔ s.contains name :=
  contains_iff.symm

theorem find?_eq_none_iff {s : Scope τ} {name : String} : s.find? name = none ↔ name ∉ s.names := by
  simp [mem_names_iff, contains]

theorem mem_of_find? {s : Scope τ} {name : String} {v : Variable τ} (h : s.find? name = some v) :
    v ∈ s.bindings := List.mem_of_find?_eq_some h

theorem current_of_find? {s : Scope τ} {name : String} {v : Variable τ}
    (h : s.find? name = some v) : s.current name = v.current := by rw [current, h]; rfl

theorem around_of_find? {s : Scope τ} {name : String} {v : Variable τ}
    (h : s.find? name = some v) : s.around name = v.enclosing := by rw [around, h]; rfl

theorem current_of_notMem {s : Scope τ} {name : String} (h : name ∉ s.names) :
    s.current name = none := by rw [current, find?_eq_none_iff.mpr h]; rfl

/-- The scope binds each name once, and its variables have the levels it counts. -/
structure InStep (s : Scope τ) : Prop where
  nodup : s.names.Nodup
  length_enclosing : ∀ v ∈ s.bindings, v.enclosing.length = s.depth

theorem inStep_opened (depth : Nat) : (opened depth : Scope τ).InStep :=
  ⟨List.nodup_nil, fun _ hv ↦ absurd hv List.not_mem_nil⟩

/-- In a scope that binds each name once, a binding is what its own name means. -/
theorem find?_of_mem {s : Scope τ} (hs : s.names.Nodup) {v : Variable τ}
    (hv : v ∈ s.bindings) : s.find? v.name = some v := by
  cases h : s.find? v.name with
  | none => exact absurd (List.mem_map_of_mem hv) (find?_eq_none_iff.mp h)
  | some w =>
    have hw : w.name = v.name := name_of_find? h
    rw [List.inj_on_of_nodup_map hs (mem_of_find? h) hv hw]

theorem InStep.find?_of_mem {s : Scope τ} (hs : s.InStep) {v : Variable τ}
    (hv : v ∈ s.bindings) : s.find? v.name = some v := Scope.find?_of_mem hs.nodup hv

/-! ## Changing every variable -/

/-- Changes every variable, and with them the number of levels. -/
def mapAll (g : Variable τ → Variable τ) (depth : Nat) (s : Scope τ) : Scope τ :=
  { s with bindings := s.bindings.map g, depth := depth }

section
variable {g : Variable τ → Variable τ} {depth : Nat} {s : Scope τ}

theorem mapAll_id (s : Scope τ) : s.mapAll id s.depth = s := by
  rw [mapAll, List.map_id]

theorem mapAll_mapAll {h : Variable τ → Variable τ} {depth' : Nat} :
    (s.mapAll g depth).mapAll h depth' = s.mapAll (h ∘ g) depth' := by
  simp only [mapAll, List.map_map]

theorem mapAll_congr {h : Variable τ → Variable τ} (hgh : ∀ v ∈ s.bindings, g v = h v) :
    s.mapAll g depth = s.mapAll h depth := by
  simp only [mapAll, List.map_congr_left hgh]

theorem identities_mapAll (hg : ∀ v ∈ s.bindings, (g v).identity = v.identity) :
    (s.mapAll g depth).identities = s.identities := by
  simp only [identities, mapAll, List.map_map]
  exact List.map_congr_left hg

theorem find?_mapAll (hg : ∀ v ∈ s.bindings, (g v).identity = v.identity) (name : String) :
    (s.mapAll g depth).find? name = (s.find? name).map g := by
  obtain ⟨bindings, size, d⟩ := s
  simp only [find?, mapAll, List.find?_map]
  congr 1
  induction bindings with
  | nil => rfl
  | cons v vs ih =>
    have hv : (g v).name = v.name := Variable.name_eq_of_identity (hg v List.mem_cons_self)
    rw [List.find?_cons, List.find?_cons, ih fun w hw ↦ hg w (List.mem_cons_of_mem v hw)]
    simp only [Function.comp_apply, hv]

theorem current_mapAll (hg : ∀ v ∈ s.bindings, (g v).identity = v.identity) (name : String) :
    (s.mapAll g depth).current name = (s.find? name).elim none fun v ↦ (g v).current := by
  rw [current, find?_mapAll hg]
  cases s.find? name <;> rfl

theorem around_mapAll (hg : ∀ v ∈ s.bindings, (g v).identity = v.identity) (name : String) :
    (s.mapAll g depth).around name =
      (s.find? name).elim (List.replicate depth none) fun v ↦ (g v).enclosing := by
  rw [around, find?_mapAll hg]
  cases s.find? name <;> rfl

theorem InStep.mapAll (hs : s.InStep) (hg : ∀ v ∈ s.bindings, (g v).identity = v.identity)
    (hl : ∀ v ∈ s.bindings, (g v).enclosing.length = depth) : (s.mapAll g depth).InStep where
  nodup := by
    rw [names_congr (identities_mapAll hg)]
    exact hs.nodup
  length_enclosing w hw := by
    obtain ⟨v, hv, rfl⟩ := List.mem_map.mp hw
    exact hl v hv

end

/-! ## Entering a region -/

section
variable (s : Scope τ) (name : String)

@[simp] theorem identities_pushLevel : s.pushLevel.identities = s.identities :=
  identities_mapAll fun v _ ↦ v.identity_pushLevel

@[simp] theorem current_pushLevel : s.pushLevel.current name = s.current name := by
  refine (current_mapAll (fun v _ ↦ v.identity_pushLevel) name).trans ?_
  rw [current]
  cases s.find? name <;> rfl

@[simp] theorem around_pushLevel : s.pushLevel.around name = s.current name :: s.around name := by
  refine (around_mapAll (fun v _ ↦ v.identity_pushLevel) name).trans ?_
  rw [current, around]
  cases s.find? name <;> rfl

end

theorem InStep.pushLevel {s : Scope τ} (hs : s.InStep) : s.pushLevel.InStep :=
  hs.mapAll (fun v _ ↦ v.identity_pushLevel) fun _ hv ↦
    congrArg (· + 1) (hs.length_enclosing _ hv)

/-! ## Leaving a region

A scope in step can be left as often as it was entered. -/

section
variable {s : Scope τ} {mode : Mode} {name : String} {l : Level} {outer : List Level}

theorem InStep.popBreach?_eq_none (hs : s.InStep) (hd : s.depth ≠ 0) : s.popBreach? = none := by
  rw [popBreach?, if_neg hd, List.findSome?_eq_none_iff]
  intro v hv
  refine Variable.popBreach?_of_ne_nil fun h ↦ hd ?_
  rw [← hs.length_enclosing v hv, h]
  rfl

theorem InStep.foldLevel (hs : s.InStep) (hd : s.depth ≠ 0) :
    s.foldLevel mode = .ok s.folded := by
  rw [foldLevel_eq_stop, hs.popBreach?_eq_none hd, Mode.stop_none]

theorem folded_eq_mapAll (hd : s.depth ≠ 0) : s.folded = s.mapAll .folded (s.depth - 1) :=
  if_neg hd

theorem shed_eq_mapAll (hd : s.depth ≠ 0) : s.shed = s.mapAll .shed (s.depth - 1) :=
  if_neg hd

@[simp] theorem identities_folded (s : Scope τ) : s.folded.identities = s.identities := by
  by_cases hd : s.depth = 0
  · rw [folded, if_pos hd]
  · rw [folded_eq_mapAll hd, identities_mapAll fun v _ ↦ v.identity_folded]

@[simp] theorem identities_shed (s : Scope τ) : s.shed.identities = s.identities := by
  by_cases hd : s.depth = 0
  · rw [shed, if_pos hd]
  · rw [shed_eq_mapAll hd, identities_mapAll fun v _ ↦ v.identity_shed]

@[simp] theorem depth_folded (s : Scope τ) : s.folded.depth = s.depth - 1 := by
  unfold folded
  split
  · omega
  · rfl

@[simp] theorem depth_shed (s : Scope τ) : s.shed.depth = s.depth - 1 := by
  unfold shed
  split
  · omega
  · rfl

@[simp] theorem size_folded (s : Scope τ) : s.folded.size = s.size := by
  unfold folded
  split <;> rfl

@[simp] theorem size_shed (s : Scope τ) : s.shed.size = s.size := by
  unfold shed
  split <;> rfl

/-- The enclosing levels of a variable in a scope with levels pushed. -/
theorem InStep.exists_enclosing (hs : s.InStep) (hd : s.depth ≠ 0) {v : Variable τ}
    (hv : v ∈ s.bindings) : ∃ l outer, v.enclosing = l :: outer ∧ outer.length = s.depth - 1 := by
  have hl := hs.length_enclosing v hv
  cases he : v.enclosing with
  | nil => rw [he] at hl; exact absurd hl.symm hd
  | cons l outer => exact ⟨l, outer, rfl, by simp only [he, List.length_cons] at hl; omega⟩

/-- A name that is not bound has as many levels around it as are pushed. -/
theorem replicate_of_around {n : Nat} (h : List.replicate n (none : Level) = l :: outer) :
    l = none ∧ outer = List.replicate (n - 1) none := by
  cases n with
  | zero => cases h
  | succ n => cases h; exact ⟨rfl, rfl⟩

section
variable {keep : Level → Level → Level} {g : Variable τ → Variable τ}

theorem InStep.leave (hs : s.InStep) (hd : s.depth ≠ 0) (hg : Variable.Leaves keep g) :
    (s.mapAll g (s.depth - 1)).InStep := by
  refine hs.mapAll (fun v _ ↦ hg.identity v) fun v hv ↦ ?_
  obtain ⟨l, outer, he, hl⟩ := hs.exists_enclosing hd hv
  rw [hg.leave he]
  exact hl

theorem view_leave (hg : Variable.Leaves keep g) (h : s.around name = l :: outer) :
    (s.mapAll g (s.depth - 1)).current name = keep l (s.current name) ∧
      (s.mapAll g (s.depth - 1)).around name = outer := by
  rw [current_mapAll fun v _ ↦ hg.identity v, around_mapAll fun v _ ↦ hg.identity v]
  rw [around] at h
  rw [current]
  cases hf : s.find? name with
  | none =>
    rw [hf] at h
    obtain ⟨rfl, rfl⟩ := replicate_of_around h
    exact ⟨hg.keep_none.symm, rfl⟩
  | some v =>
    rw [hf] at h
    simp only [Option.elim_some, hg.leave h]
    exact ⟨rfl, rfl⟩

end

theorem InStep.folded (hs : s.InStep) : s.folded.InStep := by
  by_cases hd : s.depth = 0
  · rwa [Scope.folded, if_pos hd]
  · rw [folded_eq_mapAll hd]
    exact hs.leave hd Variable.leaves_folded

theorem InStep.shed (hs : s.InStep) : s.shed.InStep := by
  by_cases hd : s.depth = 0
  · rwa [Scope.shed, if_pos hd]
  · rw [shed_eq_mapAll hd]
    exact hs.leave hd Variable.leaves_shed

/-- The level around a region takes in what the region learned. -/
theorem view_folded (hd : s.depth ≠ 0) (h : s.around name = l :: outer) :
    s.folded.current name = Level.fold l (s.current name) ∧ s.folded.around name = outer := by
  rw [folded_eq_mapAll hd]
  exact view_leave Variable.leaves_folded h

/-- The level around an arm is left as it was. -/
theorem view_shed (hd : s.depth ≠ 0) (h : s.around name = l :: outer) :
    s.shed.current name = l ∧ s.shed.around name = outer := by
  rw [shed_eq_mapAll hd]
  exact view_leave Variable.leaves_shed h

end

end Scope

end DefiniteAssignment
