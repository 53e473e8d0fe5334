import DefiniteAssignment.Proofs.Flow.Moves
import Mathlib.Data.Set.Image

/-!
# Meets of outlines

The meet of a family of outlines that bind the same names knows what all of them know. A
move looks at names and never at what is known, so it can be made in the meet instead of in
all outlines of the family. The same goes for the end of a region and for a join, provided
that the families they put together have lost nothing of what was known before.
-/

namespace DefiniteAssignment.Outline

variable {τ : Type}

/-- The outline `o` binds what all outlines of a family bind, and knows what all of them
know. -/
structure Meets (O : Set Outline) (o : Outline) : Prop where
  nonempty : O.Nonempty
  bounded : ∀ q ∈ O, q.Bounded
  outer : ∀ q ∈ O, q.outer = o.outer
  inner : ∀ q ∈ O, q.inner = o.inner
  known (place : Nat) (name : String) : o.known place name ↔ ∀ q ∈ O, q.known place name

theorem meets_singleton {o : Outline} (ho : o.Bounded) : Meets {o} o where
  nonempty := Set.singleton_nonempty o
  bounded := by
    rintro q rfl
    exact ho
  outer := by
    rintro q rfl
    rfl
  inner := by
    rintro q rfl
    rfl
  known place name := by simp

/-! ## Moves -/

theorem lt_of_placeIn {name : String} {lists : List (List String)} {place : Nat}
    (h : placeIn name lists = some place) : place < lists.length := by
  induction lists generalizing place with
  | nil => cases h
  | cons ns inner ih =>
    rw [placeIn] at h
    cases hp : placeIn name inner with
    | some k =>
      rw [hp] at h
      cases h
      exact Nat.succ_lt_succ (ih hp)
    | none =>
      rw [hp] at h
      by_cases hn : name ∈ ns
      · simp only [if_pos hn, Option.some.injEq] at h
        rw [← h]
        exact Nat.succ_pos _
      · simp only [if_neg hn] at h
        cases h

theorem place?_le {o : Outline} {name : String} {place : Nat} (h : o.place? name = some place) :
    place ≤ o.outer.length := by
  have hlt := lt_of_placeIn h
  rw [names, List.length_append] at hlt
  exact Nat.le_of_lt_succ hlt

theorem Bounded.move {o : Outline} (ho : o.Bounded) (m : Move τ) : (m.outline o).Bounded := by
  intro place name hk
  cases m with
  | openScope =>
    change place ≤ (o.outer ++ [o.inner]).length
    rw [List.length_append]
    exact Nat.le_add_right_of_le (ho place name hk)
  | closeScope =>
    rw [Move.outline, closeScope] at hk ⊢
    cases hl : o.outer.getLast? with
    | none =>
      rw [hl] at hk
      exact ho place name hk
    | some inner =>
      rw [hl] at hk
      have hlt : place < o.outer.length := of_decide_eq_true (Bool.and_eq_true_iff.mp hk).1
      change place ≤ o.outer.dropLast.length
      rw [List.length_dropLast]
      exact Nat.le_sub_one_of_lt hlt
  | declare d =>
    rw [Move.outline, outer_declare]
    refine ho place name ?_
    rw [Move.outline, declare] at hk
    split at hk <;> exact hk
  | assign n order span =>
    rw [Move.outline, (names_assign n o).1]
    rw [Move.outline, assign] at hk
    cases hp : o.place? n with
    | none =>
      rw [hp] at hk
      exact ho place name hk
    | some k =>
      rw [hp] at hk
      rcases (Bool.or_eq_true _ _).mp hk with hk | hk
      · exact ho place name hk
      · rw [of_decide_eq_true (Bool.and_eq_true_iff.mp hk).1]
        exact place?_le hp
  | mark point => exact ho place name hk

theorem Bounded.follow {o : Outline} (ho : o.Bounded) (path : List (Move τ)) :
    (o.follow path).Bounded := by
  induction path generalizing o with
  | nil => exact ho
  | cons m path ih => exact ih (ho.move m)

section
variable {O : Set Outline} {o : Outline}

/-- A step that looks at names alone, and makes of what is known the same in all outlines
that bind the same names, keeps the meet of a family. -/
theorem Meets.map {f : Outline → Outline} (h : Meets O o) (hb : ∀ q ∈ O, (f q).Bounded)
    (outer : List (List String)) (inner : List String) (keep add : Nat → String → Bool)
    (hf : ∀ q, q.outer = o.outer → q.inner = o.inner → f q =
      ⟨outer, inner, fun place name ↦ keep place name && q.known place name || add place name⟩) :
    Meets (f '' O) (f o) := by
  have hq : ∀ q ∈ O, f q = ⟨outer, inner,
      fun place name ↦ keep place name && q.known place name || add place name⟩ :=
    fun q hq ↦ hf q (h.outer q hq) (h.inner q hq)
  rw [hf o rfl rfl]
  refine ⟨h.nonempty.image f, Set.forall_mem_image.mpr hb, ?_, ?_, fun place name ↦ ?_⟩
  · exact Set.forall_mem_image.mpr fun q hmem ↦ by rw [hq q hmem]
  · exact Set.forall_mem_image.mpr fun q hmem ↦ by rw [hq q hmem]
  · rw [Set.forall_mem_image]
    have hiff : ∀ q ∈ O, (f q).known place name ↔
        keep place name ∧ q.known place name ∨ add place name := fun q hmem ↦ by
      rw [hq q hmem, Bool.or_eq_true, Bool.and_eq_true]
    rw [Bool.or_eq_true, Bool.and_eq_true, h.known]
    constructor
    · rintro (⟨hkeep, hall⟩ | hadd) q hmem
      · exact (hiff q hmem).mpr (.inl ⟨hkeep, hall q hmem⟩)
      · exact (hiff q hmem).mpr (.inr hadd)
    · intro hall
      by_cases hadd : add place name
      · exact .inr hadd
      -- The family is not empty, so what is not kept is not known of all of it.
      obtain ⟨b, hmem⟩ := h.nonempty
      have hknown : ∀ q ∈ O, keep place name ∧ q.known place name := fun q hmem ↦
        ((hiff q hmem).mp (hall hmem)).resolve_right hadd
      exact .inl ⟨(hknown b hmem).1, fun q hmem ↦ (hknown q hmem).2⟩

/-- A step that changes no outline with these names keeps every family of them. -/
theorem Meets.map_self {f : Outline → Outline} (h : Meets O o)
    (hf : ∀ q : Outline, q.outer = o.outer → q.inner = o.inner → f q = q) :
    Meets (f '' O) (f o) := by
  have himage : f '' O = O :=
    (Set.image_congr fun q hq ↦ hf q (h.outer q hq) (h.inner q hq)).trans (Set.image_id' O)
  rw [himage, hf o rfl rfl]
  exact h

/-- A move is made alike in all outlines of a family. -/
theorem Meets.move (h : Meets O o) (m : Move τ) : Meets (m.outline '' O) (m.outline o) := by
  have hb : ∀ q ∈ O, (m.outline q).Bounded := fun q hq ↦ (h.bounded q hq).move m
  cases m with
  | openScope =>
    refine h.map hb (o.outer ++ [o.inner]) [] (fun _ _ ↦ true) (fun _ _ ↦ false) ?_
    intro q ho hi
    rw [Move.outline, openScope, ho, hi]
    simp
  | closeScope =>
    cases hl : o.outer.getLast? with
    | none => exact h.map_self fun q ho _ ↦ by rw [Move.outline, closeScope, ho, hl]
    | some inner =>
      refine h.map hb o.outer.dropLast inner (fun place _ ↦ decide (place < o.outer.length))
        (fun _ _ ↦ false) ?_
      intro q ho hi
      rw [Move.outline, closeScope, ho, hl]
      simp
  | declare d =>
    by_cases hd : d.name ∈ o.inner
    · exact h.map_self fun q _ hi ↦ if_pos (hi ▸ hd)
    · refine h.map hb o.outer (o.inner ++ [d.name]) (fun _ _ ↦ true) (fun _ _ ↦ false) ?_
      intro q ho hi
      rw [Move.outline, declare, if_neg (hi ▸ hd), ← ho, ← hi]
      simp
  | assign name order span =>
    have hplace : ∀ q : Outline, q.outer = o.outer → q.inner = o.inner →
        q.place? name = o.place? name := fun q ho hi ↦ by
      rw [place?, place?, names, names, ho, hi]
    cases hp : o.place? name with
    | none => exact h.map_self fun q ho hi ↦ by rw [Move.outline, assign, hplace q ho hi, hp]
    | some place =>
      refine h.map hb o.outer o.inner (fun _ _ ↦ true)
        (fun k n ↦ decide (k = place) && decide (n = name)) ?_
      intro q ho hi
      rw [Move.outline, assign, hplace q ho hi, hp, ← ho, ← hi]
      simp
  | mark point => exact h.map_self fun _ _ _ ↦ rfl

/-! ## Regions and joins -/

/-- A region adds what was known before it to what is known at its end. All runs of the
region have kept that. -/
theorem Meets.fold {P : Set Outline} {b : Outline} (hb : Meets P b)
    (hkept : ∀ place name, o.known place name → ∀ q ∈ P, q.known place name) :
    Meets P (o.fold b) where
  nonempty := hb.nonempty
  bounded := hb.bounded
  outer := hb.outer
  inner := hb.inner
  known place name := by
    change (o.known place name || b.known place name) = true ↔ _
    rw [Bool.or_eq_true, hb.known]
    exact or_iff_right_of_imp fun hk q hq ↦ hkept place name hk q hq

/-- After a branch the runs of all its arms are put together, and with them, unless the
branch is exhaustive, the runs that take none of them. -/
theorem Meets.join {ι : Type} {arms : List ι} {reach : ι → Set Outline} {ends : ι → Outline}
    (h : Meets O o) (exhaustive : Bool) (hne : arms ≠ [])
    (harms : ∀ a ∈ arms, Meets (reach a) (ends a))
    (hnames : ∀ a ∈ arms, (ends a).outer = o.outer ∧ (ends a).inner = o.inner)
    (hkept : ∀ a ∈ arms, ∀ place name, o.known place name →
      ∀ q ∈ reach a, q.known place name) :
    Meets {q | (exhaustive = false ∧ q ∈ O) ∨ ∃ a ∈ arms, q ∈ reach a}
      (o.join (arms.map ends) exhaustive) where
  nonempty := by
    obtain ⟨a, ha⟩ := List.exists_mem_of_ne_nil arms hne
    obtain ⟨q, hq⟩ := (harms a ha).nonempty
    exact ⟨q, .inr ⟨a, ha, hq⟩⟩
  bounded := by
    rintro q (⟨-, hq⟩ | ⟨a, ha, hq⟩)
    · exact h.bounded q hq
    · exact (harms a ha).bounded q hq
  outer := by
    rintro q (⟨-, hq⟩ | ⟨a, ha, hq⟩)
    · exact h.outer q hq
    · exact ((harms a ha).outer q hq).trans (hnames a ha).1
  inner := by
    rintro q (⟨-, hq⟩ | ⟨a, ha, hq⟩)
    · exact h.inner q hq
    · exact ((harms a ha).inner q hq).trans (hnames a ha).2
  known place name := by
    change (o.known place name ||
      (exhaustive && (arms.map ends).all fun e ↦ e.known place name)) = true ↔ _
    rw [Bool.or_eq_true, Bool.and_eq_true, List.all_eq_true]
    constructor
    · rintro (hk | ⟨rfl, hall⟩) q (⟨he, hq⟩ | ⟨a, ha, hq⟩)
      · exact (h.known place name).mp hk q hq
      · exact hkept a ha place name hk q hq
      · cases he
      · exact ((harms a ha).known place name).mp (hall _ (List.mem_map_of_mem ha)) q hq
    · intro hall
      cases exhaustive with
      | false => exact .inl ((h.known place name).mpr fun q hq ↦ hall q (.inl ⟨rfl, hq⟩))
      | true =>
        refine .inr ⟨rfl, fun e he ↦ ?_⟩
        obtain ⟨a, ha, rfl⟩ := List.mem_map.mp he
        exact ((harms a ha).known place name).mpr fun q hq ↦ hall q (.inr ⟨a, ha, hq⟩)

end

end DefiniteAssignment.Outline
