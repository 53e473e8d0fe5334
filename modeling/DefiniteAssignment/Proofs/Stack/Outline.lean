import DefiniteAssignment.Proofs.Stack.Names

/-!
# Outlines of stacks

All that the analysis and a run of the program have in common: which names each open scope
binds, and which of them have a value. An outline has no levels, no slots and no orders,
so that the outline after a step depends on the outline before it alone.

Below, each operation of a stack in step is put in these terms. A region adds what is
known at its end to what was known before it. Of arms of which one is run, it is known
what is known at the end of each of them.
-/

namespace DefiniteAssignment

variable {τ : Type}

structure Outline where
  /-- The names of the scopes around the innermost one, the root first. -/
  outer : List (List String)
  inner : List String
  /-- Whether a name has a value, as the scope at a place binds it. -/
  known : Nat → String → Bool

namespace Outline

def names (o : Outline) : List (List String) := o.outer ++ [o.inner]

/-- The place of the last list that has a name. -/
def placeIn (name : String) : List (List String) → Option Nat
  | [] => none
  | ns :: inner =>
    match placeIn name inner with
    | some place => some (place + 1)
    | none => if name ∈ ns then some 0 else none

def place? (o : Outline) (name : String) : Option Nat := placeIn name o.names

/-- Nothing is known at places at which no scope is open. -/
def Bounded (o : Outline) : Prop := ∀ place name, o.known place name → place ≤ o.outer.length

theorem ext_names {a b : Outline} (hn : a.names = b.names)
    (hk : ∀ place name, a.known place name = b.known place name) : a = b := by
  obtain ⟨outer, inner, known⟩ := a
  obtain ⟨outer', inner', known'⟩ := b
  obtain ⟨rfl, hi⟩ := List.append_inj' hn rfl
  obtain rfl : inner = inner' := List.singleton_inj.mp hi
  obtain rfl : known = known' := funext fun place ↦ funext (hk place)
  rfl

/-! ## Steps -/

def openScope (o : Outline) : Outline := { o with outer := o.outer ++ [o.inner], inner := [] }

/-- The root is never closed. -/
def closeScope (o : Outline) : Outline :=
  match o.outer.getLast? with
  | none => o
  | some inner =>
    { outer := o.outer.dropLast
      inner := inner
      known := fun place name ↦ decide (place < o.outer.length) && o.known place name }

def declare (name : String) (o : Outline) : Outline :=
  if name ∈ o.inner then o else { o with inner := o.inner ++ [name] }

def assign (name : String) (o : Outline) : Outline :=
  match o.place? name with
  | none => o
  | some place =>
    { o with known := fun k n ↦ o.known k n || (decide (k = place) && decide (n = name)) }

/-- What is known after a region that is left with the outline `body`. -/
def fold (o body : Outline) : Outline :=
  { body with known := fun place name ↦ o.known place name || body.known place name }

/-- What is known after arms that are left with the outlines `ends`. -/
def join (o : Outline) (ends : List Outline) (exhaustive : Bool) : Outline :=
  { o with
    known := fun place name ↦
      o.known place name || (exhaustive && ends.all fun e ↦ e.known place name) }

@[simp] theorem names_openScope (o : Outline) : o.openScope.names = o.names ++ [[]] := rfl

theorem inner_declare (name : String) (o : Outline) :
    (o.declare name).inner = if name ∈ o.inner then o.inner else o.inner ++ [name] := by
  rw [Outline.declare]
  split <;> rfl

theorem outer_declare (name : String) (o : Outline) : (o.declare name).outer = o.outer := by
  rw [Outline.declare]
  split <;> rfl

theorem names_assign (name : String) (o : Outline) :
    (o.assign name).outer = o.outer ∧ (o.assign name).inner = o.inner := by
  rw [Outline.assign]
  split <;> exact ⟨rfl, rfl⟩

/-- A scope that was opened and closed again is gone, with what was known in it. -/
theorem closeScope_of_outer {o b : Outline} (h : b.outer = o.openScope.outer) :
    b.closeScope = { o with
      known := fun place name ↦ decide (place ≤ o.outer.length) && b.known place name } := by
  rw [closeScope, h, openScope]
  simp only [List.getLast?_concat, List.dropLast_concat, List.length_append, List.length_singleton,
    Nat.lt_succ_iff]

end Outline

namespace Stack

open Outline

/-- What can be seen of a stack without its levels. -/
def outline (s : Stack τ) : Outline where
  outer := s.enclosing.map Scope.names
  inner := s.current.names
  known place name := (s.levelAt place name).isSome

theorem names_outline (s : Stack τ) : s.outline.names = s.scopes.map Scope.names := by
  rw [names, outline, scopes, List.map_append, List.map_singleton]

theorem placeIn_names (name : String) (scopes : List (Scope τ)) :
    placeIn name (scopes.map Scope.names) = placeInnermost name scopes := by
  induction scopes with
  | nil => rfl
  | cons c inner ih =>
    rw [List.map_cons, placeIn, placeInnermost, ih]
    cases placeInnermost name inner with
    | some place => rfl
    | none => exact if_congr Scope.mem_names_iff rfl rfl

theorem place?_outline (s : Stack τ) (name : String) : s.outline.place? name = s.place? name := by
  rw [Outline.place?, names_outline, placeIn_names]
  rfl

/-- A variable has a value if the outline knows so at the place its name has. -/
theorem initialized_eq_known {s : Stack τ} {name : String} {place : Nat} {v : Variable τ}
    (hp : s.place? name = some place) (hv : s.find? name = some v) :
    v.initialized = s.outline.known place name := by
  rw [Variable.initialized, ← levelAt_of_place? hp hv]
  rfl

theorem outline_eq_iff {s : Stack τ} {o : Outline} : s.outline = o ↔
    s.scopes.map Scope.names = o.names ∧
      ∀ place name, (s.levelAt place name).isSome = o.known place name := by
  rw [← names_outline]
  constructor
  · rintro rfl
    exact ⟨rfl, fun _ _ ↦ rfl⟩
  · rintro ⟨hn, hk⟩
    exact ext_names hn hk

theorem bounded_outline (s : Stack τ) : s.outline.Bounded := by
  intro place name h
  have hlt := lt_of_isSome_levelAt h
  rw [length_scopes] at hlt
  rw [outline, List.length_map]
  exact Nat.le_of_lt_succ hlt

@[simp] theorem outline_pushLevel (s : Stack τ) : s.pushLevel.outline = s.outline := by
  refine outline_eq_iff.mpr ⟨?_, fun place name ↦ ?_⟩
  · rw [names_outline, (alike_pushLevel s).names]
  · rw [levelAt_pushLevel]
    rfl

theorem outline_openScope (s : Stack τ) : s.openScope.outline = s.outline.openScope := by
  refine outline_eq_iff.mpr ⟨?_, fun place name ↦ ?_⟩
  · rw [names_openScope, names_outline, scopes_openScope, List.map_append]
    rfl
  · rw [levelAt_openScope]
    rfl

theorem outline_of_closeScope? {s t : Stack τ} {ω : Type} [Sink ω] {sink out : ω}
    {closed : Scope τ} (h : s.closeScope? sink = some (closed, t, out)) :
    t.outline = s.outline.closeScope := by
  have hk := levelAt_of_closeScope? h
  obtain ⟨outer, hl, h⟩ := Option.map_eq_some_iff.mp h
  have hl' : s.outline.outer.getLast? = some outer.names := by
    rw [outline, List.getLast?_map, hl]
    rfl
  rw [closeScope, hl']
  refine outline_eq_iff.mpr ⟨?_, fun place name ↦ ?_⟩
  · cases h
    simp [scopes, Outline.names, outline, List.map_dropLast]
  · rw [hk, outline, List.length_map]
    by_cases hlt : place < s.enclosing.length <;> simp [hlt]

theorem closeScope_outline_of_eq_none {s : Stack τ} {ω : Type} [Sink ω] {sink : ω}
    (h : s.closeScope? sink = none) : s.outline.closeScope = s.outline := by
  rw [closeScope, outline, (closeScope?_eq_none_iff s sink).mp h]
  rfl

/-! ## Leaving regions and arms -/

section
variable {s t : Stack τ}

theorem outline_folded (h : Keeps s.pushLevel t) : t.folded.outline = s.outline.fold t.outline := by
  refine outline_eq_iff.mpr ⟨?_, fun place name ↦ ?_⟩
  · rw [(alike_folded t).names, ← names_outline]
    rfl
  · rw [h.levelAt_folded, Level.isSome_fold]
    rfl

theorem outline_shed (h : Keeps s.pushLevel t)
    (hn : t.outline.names = s.outline.names) : t.shed.outline = s.outline := by
  refine outline_eq_iff.mpr ⟨?_, fun place name ↦ ?_⟩
  · rw [(alike_shed t).names, ← names_outline, hn]
  · rw [h.levelAt_shed]
    rfl

theorem outline_joinArms {ends : List (Stack τ)} (exhaustive : Bool) (hne : ends ≠ [])
    (hends : ∀ t ∈ ends, t.InStep ∧ t.depth ≠ 0 ∧ t.outline.names = s.outline.names) :
    (s.joinArms (ends.map lastArms) exhaustive).outline =
      s.outline.join (ends.map outline) exhaustive := by
  refine outline_eq_iff.mpr ⟨?_, fun place name ↦ ?_⟩
  · rw [(alike_joinArms _ exhaustive s).names, ← names_outline]
    rfl
  · cases exhaustive with
    | false =>
      rw [levelAt_joinArms_false]
      simp [join, outline]
    | true =>
      rw [Bool.eq_iff_iff, isSome_levelAt_joinArms hne]
      · simp [join, outline]
      · intro t ht
        obtain ⟨hin, hd, hn⟩ := hends t ht
        rw [← names_outline, ← names_outline]
        exact ⟨hin, hd, hn⟩

end

/-! ## Declaring and assigning -/

section
variable {s : Stack τ} {d : Declaration τ}

theorem outline_declare_of_mem [Storable τ] (mode : Mode) (h : d.name ∈ s.current.names) :
    s.declare mode d = .ok (.error (Scope.redeclaration d)) ∧
      s.outline.declare d.name = s.outline := by
  have hc : s.current.contains d.name = true := Scope.mem_names_iff.mp h
  refine ⟨?_, if_pos h⟩
  rw [declare, Scope.declare, if_pos hc]
  rfl

/-- The innermost scope after a declaration that is accepted. -/
theorem outline_current {c : Scope τ} (counter : SlotCounter) (h : d.name ∉ s.current.names)
    (hn : c.names = s.current.names ++ [d.name])
    (hc : ∀ name, c.current name = s.current.current name) :
    ({ s with current := c, counter := counter } : Stack τ).outline =
      s.outline.declare d.name := by
  rw [Outline.declare]
  refine Eq.trans ?_ (if_neg h).symm
  refine outline_eq_iff.mpr ⟨?_, fun place name ↦ ?_⟩
  · rw [scopes, List.map_append, List.map_singleton, hn]
    rfl
  · rw [levelAt_current hc]
    rfl

theorem outline_assign {t : Stack τ} {name : String} {place : Nat}
    (h : s.place? name = some place) (ha : Alike s t)
    (hk : ∀ k n, (t.levelAt k n).isSome ↔ (s.levelAt k n).isSome ∨ k = place ∧ n = name) :
    t.outline = s.outline.assign name := by
  rw [Outline.assign, place?_outline, h]
  refine outline_eq_iff.mpr ⟨?_, fun k n ↦ ?_⟩
  · rw [ha.names, ← names_outline]
    rfl
  · rw [Bool.eq_iff_iff, hk]
    simp [outline]

end

end Stack

end DefiniteAssignment
