import Mathlib.Algebra.BigOperators.Group.List.Basic
import Mathlib.Data.List.Basic
import Mathlib.Data.List.Forall2
import Mathlib.Data.List.Infix

/-!
# Lists

What the proofs need of lists that has nothing to do with levels or scopes. A history grows
at its end and a stack changes at one of its places, so most of it is about one element more
and about one element changed. The rest is about lists that are related element by element,
about lists told apart by how they begin or end, and about sorting by two grades.
-/

namespace DefiniteAssignment

variable {α β γ : Type}

/-! ## One element more -/

theorem filterMap_concat (f : α → Option β) (l : List α) (a : α) :
    (l ++ [a]).filterMap f = l.filterMap f ++ (f a).toList := by
  rw [List.filterMap_append]
  cases h : f a <;> simp [h]

theorem filterMap_concat_of_none {f : α → Option β} (l : List α) {a : α} (h : f a = none) :
    (l ++ [a]).filterMap f = l.filterMap f := by
  rw [filterMap_concat, h, Option.toList_none, List.append_nil]

theorem sum_filterMap_concat {M : Type} [AddMonoid M] (f : α → Option β) (g : β → M) (l : List α)
    (a : α) :
    (((l ++ [a]).filterMap f).map g).sum =
      ((l.filterMap f).map g).sum + ((f a).toList.map g).sum := by
  rw [filterMap_concat, List.map_append, List.sum_append]

/-- What is added to one list of many is added to them all together. -/
theorem perm_flatten_modify {ls : List (List α)} {place : Nat} (h : place < ls.length) (a : α) :
    (ls.modify place (· ++ [a])).flatten.Perm (ls.flatten ++ [a]) := by
  induction ls generalizing place with
  | nil => cases h
  | cons l ls ih =>
    cases place with
    | zero =>
      rw [List.modify_zero_cons, List.flatten_cons, List.flatten_cons, List.append_assoc,
        List.append_assoc]
      exact List.perm_append_comm.append_left l
    | succ place =>
      rw [List.modify_succ_cons, List.flatten_cons, List.flatten_cons, List.append_assoc]
      exact (ih (Nat.lt_of_succ_lt_succ h)).append_left l

/-! ## Elements changed in their places -/

theorem map_set_of_eq {f : α → β} {l : List α} {place : Nat} {a b : α} (ha : l[place]? = some a)
    (h : f b = f a) : (l.set place b).map f = l.map f := by
  obtain ⟨hlt, rfl⟩ := List.getElem?_eq_some_iff.mp ha
  rw [List.map_set, h, ← List.getElem_map f (h := by rwa [List.length_map]),
    List.set_getElem_self]

theorem map_mapIdx_of_eq {f : α → β} {g : Nat → α → α} (l : List α) (h : ∀ k a, f (g k a) = f a) :
    (l.mapIdx g).map f = l.map f := by
  ext place : 1
  rw [List.getElem?_map, List.getElem?_map, List.getElem?_mapIdx]
  cases l[place]? with
  | none => rfl
  | some a => exact congrArg some (h place a)

theorem map_eq_mapIdx (f : α → β) (l : List α) : l.map f = l.mapIdx fun _ ↦ f := by
  ext place : 1
  rw [List.getElem?_map, List.getElem?_mapIdx]

/-- Entries that are kept or dropped by their keys are found as before, or not at all. -/
theorem lookup_filter_key {κ : Type} [BEq κ] [LawfulBEq κ] (p : κ → Bool) (entries : List (κ × β))
    (key : κ) :
    (entries.filter fun e ↦ p e.1).lookup key = if p key then entries.lookup key else none := by
  induction entries with
  | nil => simp
  | cons e es ih =>
    obtain ⟨other, b⟩ := e
    by_cases hk : key = other
    · subst hk
      cases hp : p key with
      | true => simp [hp]
      | false => simpa [List.filter_cons, hp] using ih
    · have hne : (key == other) = false := beq_eq_false_iff_ne.mpr hk
      rw [List.filter_cons]
      split
      · rw [List.lookup_cons, List.lookup_cons, hne, ih]
      · rw [ih, List.lookup_cons, hne]

/-! ## Lists that are related -/

section
variable {R : α → β → Prop} {as : List α} {bs : List β}

/-- What is the same of any two related things is the same all along two lists of them. -/
theorem map_eq_of_forall₂ {f : α → γ} {g : β → γ} (hR : ∀ a b, R a b → g b = f a)
    (h : as.Forall₂ R bs) : bs.map g = as.map f := by
  induction h with
  | nil => rfl
  | cons hab _ ih => rw [List.map_cons, List.map_cons, hR _ _ hab, ih]

/-- Two lists remain related where both are changed at one place. -/
theorem forall₂_modify_set {f : α → α} {place : Nat} {b b' : β} (h : as.Forall₂ R bs)
    (hb : bs[place]? = some b) (hf : ∀ a, R a b → R (f a) b') :
    (as.modify place f).Forall₂ R (bs.set place b') := by
  induction h generalizing place with
  | nil => cases hb
  | cons hab hrest ih =>
    cases place with
    | zero =>
      cases hb
      exact .cons (hf _ hab) hrest
    | succ place => exact .cons hab (ih hb)

theorem exists_of_forall₂_concat {b : β} (h : as.Forall₂ R (bs ++ [b])) :
    ∃ as' a, as = as' ++ [a] ∧ as'.Forall₂ R bs ∧ R a b := by
  rw [← List.forall₂_reverse_iff, List.reverse_concat] at h
  obtain ⟨a, as', ha, has, hrev⟩ := List.forall₂_cons_right_iff.mp h
  refine ⟨as'.reverse, a, ?_, ?_, ha⟩
  · rw [← List.reverse_reverse as, hrev, List.reverse_cons]
  · rwa [← List.forall₂_reverse_iff, List.reverse_reverse]

end

/-! ## Lists told apart by how they begin or end -/

section
variable {xs ys us vs : List α} {a : α}

theorem append_ne_of_not_prefix (h : ¬xs <+: ys ∧ ¬ys <+: xs) : xs ++ us ≠ ys ++ vs := by
  intro heq
  have hxs : xs <+: ys ++ vs := heq ▸ List.prefix_append xs us
  rcases List.prefix_or_prefix_of_prefix hxs (List.prefix_append ys vs) with hp | hp
  · exact h.1 hp
  · exact h.2 hp

theorem append_ne_of_not_suffix (h : ¬us <:+ vs ∧ ¬vs <:+ us) : xs ++ us ≠ ys ++ vs := by
  intro heq
  have hus : us <:+ ys ++ vs := heq ▸ List.suffix_append xs us
  rcases List.suffix_or_suffix_of_suffix hus (List.suffix_append ys vs) with hs | hs
  · exact h.1 hs
  · exact h.2 hs

/-- What stands before the first occurrence of a mark is read off from the left. -/
theorem append_cons_inj (hx : a ∉ xs) (hy : a ∉ ys) (h : xs ++ a :: us = ys ++ a :: vs) :
    xs = ys ∧ us = vs := by
  -- Whatever one list has more than the other begins with the mark, unless it is empty.
  rcases List.append_eq_append_iff.mp h with ⟨ws, rfl, hrest⟩ | ⟨ws, rfl, hrest⟩
  · cases ws with
    | nil => exact ⟨(List.append_nil xs).symm, (List.cons.inj hrest).2⟩
    | cons w ws =>
      obtain ⟨rfl, -⟩ := List.cons.inj hrest
      exact absurd (List.mem_append_right xs List.mem_cons_self) hy
  · cases ws with
    | nil => exact ⟨List.append_nil ys, (List.cons.inj hrest).2.symm⟩
    | cons w ws =>
      obtain ⟨rfl, -⟩ := List.cons.inj hrest
      exact absurd (List.mem_append_right ys List.mem_cons_self) hx

end

/-! ## Sorting by two grades -/

section
variable {le : α → α → Bool} {p : α → Bool} {l : List α}

/-- A stable sort leaves the elements of one grade in their order. -/
theorem filter_mergeSort (htrans : ∀ a b c, le a b → le b c → le a c)
    (htotal : ∀ a b, le a b || le b a) (hp : ∀ a b, p a → p b → le a b) :
    (l.mergeSort le).filter p = l.filter p := by
  -- They are sorted already, so the sort keeps them as they stand, and it has no more of them.
  have hgrade : (l.filter p).Pairwise fun a b ↦ le a b = true :=
    List.pairwise_filter.mpr (List.pairwise_of_forall fun a b ↦ hp a b)
  have hkept := (List.sublist_mergeSort htrans htotal hgrade List.filter_sublist).filter p
  simp only [List.filter_filter, Bool.and_self] at hkept
  have hperm : ((l.mergeSort le).filter p).Perm (l.filter p) := (List.mergeSort_perm l le).filter p
  exact (hkept.eq_of_length hperm.length_eq.symm).symm

/-- A sorted list of two grades is the one grade followed by the other. -/
theorem eq_filter_append_of_pairwise (h : l.Pairwise fun a b ↦ p a ∨ p b = false) :
    l = l.filter p ++ l.filter (!p ·) := by
  induction l with
  | nil => rfl
  | cons a l ih =>
    obtain ⟨ha, hl⟩ := List.pairwise_cons.mp h
    cases hp : p a with
    | true =>
      rw [List.filter_cons_of_pos hp, List.filter_cons_of_neg (by simp [hp]), List.cons_append,
        ← ih hl]
    | false =>
      -- Behind an element of the second grade there is none of the first.
      have hrest : ∀ b ∈ l, p b = false := fun b hb ↦ by simpa [hp] using ha b hb
      have hnone : (a :: l).filter p = [] := by simpa [hp] using hrest
      have hall : (a :: l).filter (!p ·) = a :: l := by simpa [hp] using hrest
      rw [hnone, hall, List.nil_append]

/-- Where there are two grades only, a stable sort puts the one before the other. -/
theorem mergeSort_eq_filter_append (hle : ∀ a b, le a b = (p a || !p b)) :
    l.mergeSort le = l.filter p ++ l.filter (!p ·) := by
  have htrans : ∀ a b c, le a b → le b c → le a c := by
    intro a b c
    rw [hle, hle, hle]
    cases p a <;> cases p b <;> simp
  have htotal : ∀ a b, le a b || le b a := by
    intro a b
    rw [hle, hle]
    cases p a <;> cases p b <;> rfl
  have hsorted : (l.mergeSort le).Pairwise fun a b ↦ p a ∨ p b = false :=
    (List.pairwise_mergeSort htrans htotal l).imp fun {a b} h ↦ by simpa [hle] using h
  rw [eq_filter_append_of_pairwise hsorted,
    filter_mergeSort htrans htotal fun a b ha _ ↦ by simp [hle, ha],
    filter_mergeSort htrans htotal fun a b _ hb ↦ by rw [hle, hb, Bool.or_true]]

end

end DefiniteAssignment
