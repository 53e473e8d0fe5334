import DefiniteAssignment.Proofs.Lists
import DefiniteAssignment.Proofs.Stack.View

/-!
# Working on the scopes of a stack

Regions and arms change what is known, but neither what is bound nor what storage was
given away. A declaration changes the innermost scope, an assignment the scope that gives
a name its meaning. Either leaves the other scopes as they are, and no level but the
current one of the name that is assigned is changed.
-/

namespace DefiniteAssignment.Stack

variable {τ : Type}

/-! ## What levels leave alone -/

/-- What a stack binds, and what storage it has given away. -/
structure Alike (s t : Stack τ) : Prop where
  names : t.scopes.map Scope.names = s.scopes.map Scope.names
  sizes : t.scopes.map Scope.size = s.scopes.map Scope.size
  counter : t.counter = s.counter

theorem alike_of_map {s t : Stack τ} {g : Scope τ → Scope τ} (h : t.scopes = s.scopes.map g)
    (hn : ∀ c, (g c).identities = c.identities) (hz : ∀ c, (g c).size = c.size)
    (hcounter : t.counter = s.counter) : Alike s t where
  names := by
    rw [h, List.map_map]
    exact List.map_congr_left fun c _ ↦ Scope.names_congr (hn c)
  sizes := by
    rw [h, List.map_map]
    exact List.map_congr_left fun c _ ↦ hz c
  counter := hcounter

theorem alike_pushLevel (s : Stack τ) : Alike s s.pushLevel :=
  alike_of_map s.scopes_pushLevel Scope.identities_pushLevel Scope.size_pushLevel rfl

theorem alike_folded (s : Stack τ) : Alike s s.folded :=
  alike_of_map s.scopes_folded Scope.identities_folded Scope.size_folded rfl

theorem alike_shed (s : Stack τ) : Alike s s.shed :=
  alike_of_map s.scopes_shed Scope.identities_shed Scope.size_shed rfl

theorem alike_joinArms (arms : List (List Arm)) (exhaustive : Bool) (s : Stack τ) :
    Alike s (s.joinArms arms exhaustive) where
  names := by
    rw [scopes_joinArms]
    exact map_mapIdx_of_eq _ fun k c ↦ Scope.names_congr (c.identities_joinArms _ exhaustive)
  sizes := by
    rw [scopes_joinArms]
    exact map_mapIdx_of_eq _ fun k c ↦ c.size_joinArms _ exhaustive
  counter := rfl

/-! ## Working on one scope -/

section
variable {s : Stack τ}

/-- What is done to the innermost scope alone. -/
theorem InStep.keeps_current (hs : s.InStep) {c : Scope τ} (h : s.current.Grows c)
    (counter : SlotCounter) : Keeps s { s with current := c, counter := counter } where
  depth := rfl
  levels place name := by
    rw [levelsAt, levelsAt, scopes, scopes, List.getElem?_append, List.getElem?_append]
    split
    · rfl
    · rw [List.getElem?_singleton, List.getElem?_singleton]
      split
      · exact h.around name
      · rfl
  inStep := by
    intro b hb
    rcases List.mem_append.mp hb with hb | hb
    · exact hs b (List.mem_append_left _ hb)
    · rw [List.mem_singleton.mp hb]
      obtain ⟨hin, hd⟩ := hs s.current (List.mem_append_right _ (List.mem_singleton_self _))
      exact ⟨h.inStep hin, h.depth.trans hd⟩

theorem levelAt_current {c : Scope τ} (h : ∀ name, c.current name = s.current.current name)
    (counter : SlotCounter) (place : Nat) (name : String) :
    ({ s with current := c, counter := counter } : Stack τ).levelAt place name =
      s.levelAt place name := by
  rw [levelAt, levelAt, scopes, scopes, List.getElem?_append, List.getElem?_append]
  split
  · rfl
  · rw [List.getElem?_singleton, List.getElem?_singleton]
    split
    · exact h name
    · rfl

end

/-! ## What a name means -/

theorem placeInnermost_concat (name : String) (outer : List (Scope τ)) (c : Scope τ) :
    placeInnermost name (outer ++ [c]) =
      if c.contains name then some outer.length else placeInnermost name outer := by
  induction outer with
  | nil => rfl
  | cons b outer ih =>
    rw [List.cons_append, placeInnermost, ih]
    by_cases h : c.contains name
    · rw [if_pos h, if_pos h]
      rfl
    · rw [if_neg h, if_neg h]
      rfl

theorem exists_of_placeInnermost {name : String} {scopes : List (Scope τ)} {place : Nat}
    (h : placeInnermost name scopes = some place) :
    ∃ c, scopes[place]? = some c ∧ c.contains name ∧
      findInnermost name scopes = c.find? name ∧
      ∀ w, setInnermost name w scopes = scopes.set place (c.set name w) := by
  induction scopes generalizing place with
  | nil => cases h
  | cons b inner ih =>
    rw [placeInnermost] at h
    cases hp : placeInnermost name inner with
    | some k =>
      rw [hp] at h
      cases h
      obtain ⟨c, hc, hcon, hfind, hset⟩ := ih hp
      have hsome : (findInnermost name inner).isSome := by
        rw [← isSome_placeInnermost, hp]
        rfl
      refine ⟨c, hc, hcon, ?_, fun w ↦ ?_⟩
      · obtain ⟨v, hv⟩ := Option.isSome_iff_exists.mp hcon
        rw [findInnermost, hfind, hv]
        rfl
      · rw [setInnermost, if_pos hsome, hset, List.set_cons_succ]
    | none =>
      rw [hp] at h
      have hnone : findInnermost name inner = none := by
        rw [← Option.not_isSome_iff_eq_none, ← isSome_placeInnermost, hp]
        exact Bool.false_ne_true
      by_cases hcon : b.contains name
      · simp only [if_pos hcon, Option.some.injEq] at h
        subst h
        refine ⟨b, rfl, hcon, ?_, fun w ↦ ?_⟩
        · rw [findInnermost, hnone]
          rfl
        · rw [setInnermost, hnone]
          rfl
      · simp only [if_neg hcon] at h
        cases h

/-- A name that has a place means its binding in the scope at that place. -/
theorem exists_of_place? {s : Stack τ} {name : String} {place : Nat}
    (h : s.place? name = some place) :
    ∃ c, s.scopes[place]? = some c ∧ s.find? name = c.find? name ∧ c.contains name ∧
      ∀ w, (s.set name w).scopes = s.scopes.set place (c.set name w) := by
  rw [place?, scopes, placeInnermost_concat] at h
  rw [find?_eq_findInnermost, scopes, findInnermost_append]
  by_cases hcon : s.current.contains name
  · rw [if_pos hcon] at h
    cases h
    obtain ⟨v, hv⟩ := Option.isSome_iff_exists.mp hcon
    refine ⟨s.current, by simp, ?_, hcon, fun w ↦ ?_⟩
    · rw [findInnermost, findInnermost, hv]
      rfl
    · rw [set, if_pos hcon, scopes, List.set_append_right _ _ (Nat.le_refl _), Nat.sub_self]
      rfl
  · rw [if_neg hcon] at h
    obtain ⟨c, hc, hcc, hfind, hset⟩ := exists_of_placeInnermost h
    have hlt : place < s.enclosing.length := (List.getElem?_eq_some_iff.mp hc).1
    have hnone : s.current.find? name = none := Option.not_isSome_iff_eq_none.mp hcon
    refine ⟨c, ?_, ?_, hcc, fun w ↦ ?_⟩
    · rw [List.getElem?_append_left hlt, hc]
    · rw [hfind, findInnermost, hnone]
      rfl
    · rw [set, if_neg hcon, scopes, hset, List.set_append_left _ _ hlt]

/-- The level of the variable that a name means. -/
theorem levelAt_of_place? {s : Stack τ} {name : String} {place : Nat} {v : Variable τ}
    (h : s.place? name = some place) (hv : s.find? name = some v) :
    s.levelAt place name = v.current := by
  obtain ⟨c, hc, hfind, -⟩ := exists_of_place? h
  rw [hfind] at hv
  rw [levelAt, hc, Option.elim_some, Scope.current_of_find? hv]

theorem place?_eq_none_iff {s : Stack τ} {name : String} :
    s.place? name = none ↔ s.find? name = none := by
  rw [← Option.not_isSome_iff_eq_none, isSome_place?, Option.not_isSome_iff_eq_none]

/-! ## Assigning -/

section
variable {s t : Stack τ} {place : Nat} {c b : Scope τ}

theorem getElem?_of_set (hc : s.scopes[place]? = some c) (ht : t.scopes = s.scopes.set place b)
    (k : Nat) : t.scopes[k]? = if k = place then some b else s.scopes[k]? := by
  obtain ⟨hlt, -⟩ := List.getElem?_eq_some_iff.mp hc
  rw [ht]
  by_cases hk : k = place
  · rw [if_pos hk, hk, List.getElem?_set_self hlt]
  · rw [if_neg hk, List.getElem?_set_ne (Ne.symm hk)]

theorem levelAt_of_set (hc : s.scopes[place]? = some c) (ht : t.scopes = s.scopes.set place b)
    (k : Nat) (name : String) :
    t.levelAt k name = if k = place then b.current name else s.levelAt k name := by
  rw [levelAt, getElem?_of_set hc ht]
  split <;> rfl

/-- Working at the current level of one scope leaves every other level alone. -/
theorem InStep.keeps_of_set (hs : s.InStep) (hc : s.scopes[place]? = some c) (h : c.Frame b)
    (hd : t.depth = s.depth) (ht : t.scopes = s.scopes.set place b) : Keeps s t where
  depth := hd
  levels k name := by
    rw [levelsAt, levelsAt, getElem?_of_set hc ht, hd]
    by_cases hk : k = place
    · rw [if_pos hk, hk, hc]
      exact h.around name
    · rw [if_neg hk]
  inStep := by
    intro x hx
    obtain ⟨hin, hdc⟩ := hs.of_getElem? hc
    rw [ht] at hx
    rcases List.mem_or_eq_of_mem_set hx with hx | rfl
    · rw [hd]
      exact hs x hx
    · exact ⟨h.inStep hin, by rw [h.depth, hdc, hd]⟩

theorem alike_of_set (hc : s.scopes[place]? = some c) (h : c.Frame b)
    (hcounter : t.counter = s.counter) (ht : t.scopes = s.scopes.set place b) : Alike s t where
  names := by rw [ht, map_set_of_eq hc (Scope.names_congr h.identities)]
  sizes := by rw [ht, map_set_of_eq hc h.size]
  counter := hcounter

end

/-- After an assignment a bound name has a value at its place, whether the assignment was
accepted or the variable is frozen and had one. Nothing else is changed. -/
theorem InStep.exists_assign {s : Stack τ} (hs : s.InStep) (mode : Mode) {name : String}
    {place : Nat} (h : s.place? name = some place) (order : Order) (span : Span) :
    ∃ r t, s.call mode name (.assign order span) = .ok (some r, t) ∧ Keeps s t ∧ Alike s t ∧
      ∀ k n, (t.levelAt k n).isSome ↔ (s.levelAt k n).isSome ∨ k = place ∧ n = name := by
  obtain ⟨c, hc, hfind, hcon, hset⟩ := exists_of_place? h
  obtain ⟨hin, -⟩ := hs.of_getElem? hc
  obtain ⟨v, hv⟩ := Option.isSome_iff_exists.mp hcon
  obtain ⟨⟨q, w⟩, hw⟩ := v.exists_call_of_movesLevel_eq_false mode (c := .assign order span) rfl
  obtain ⟨hi, he⟩ := Variable.frame_call rfl hw
  have hframe : c.Frame (c.set name w) := hin.frame_set hv hi he
  have hrest : (s.set name w).depth = s.depth ∧ (s.set name w).counter = s.counter := by
    rw [set]
    split <;> exact ⟨rfl, rfl⟩
  refine ⟨q, s.set name w, ?_, hs.keeps_of_set hc hframe hrest.1 (hset w),
    alike_of_set hc hframe hrest.2 (hset w), fun k n ↦ ?_⟩
  · rw [call, hfind, hv]
    simp only [hw]
    rfl
  · rw [levelAt_of_set hc (hset w), hin.current_set hv hi]
    by_cases hk : k = place
    · subst hk
      rw [if_pos rfl]
      by_cases hn : n = name
      · rw [if_pos hn]
        exact iff_of_true (Variable.isSome_current_assign hw) (.inr ⟨rfl, hn⟩)
      · rw [if_neg hn, levelAt, hc, Option.elim_some]
        exact (or_iff_left fun hkn ↦ hn hkn.2).symm
    · rw [if_neg hk]
      exact (or_iff_left fun hkn ↦ hk hkn.1).symm

end DefiniteAssignment.Stack
