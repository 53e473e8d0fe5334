import DefiniteAssignment.Proofs.Flow.Induction
import Mathlib.Tactic.ByContra

/-!
# What happens on the paths of a flow

Whether some action is met on some path, or on every path, can be read off the parts of a
flow: on every path of a sequence if on every path of one of its two parts, on every path
of a branch if it is exhaustive and the action is met on every path of every arm. A flow
in which every branch has an arm has a path.
-/

namespace DefiniteAssignment.Flow

variable {A : Type}

mutual

/-- Every branch has an arm. -/
def armed : Flow A → Bool
  | skip => true
  | act _ => true
  | seq first second => first.armed && second.armed
  | region body => body.armed
  | branch arms _ => !arms.isEmpty && allArmed arms

def allArmed : List (Flow A) → Bool
  | [] => true
  | arm :: arms => arm.armed && allArmed arms

end

theorem allArmed_eq_all (arms : List (Flow A)) : allArmed arms = arms.all armed := by
  induction arms with
  | nil => simp [allArmed]
  | cons arm arms ih => simp [allArmed, ih]

theorem armed_seq {first second : Flow A} :
    (seq first second).armed ↔ first.armed ∧ second.armed := by
  rw [armed, Bool.and_eq_true]

theorem armed_branch {arms : List (Flow A)} {exhaustive : Bool} :
    (branch arms exhaustive).armed ↔ arms ≠ [] ∧ ∀ arm ∈ arms, arm.armed := by
  rw [armed, allArmed_eq_all]
  simp

/-! ## Paths -/

theorem mem_paths_seq {first second : Flow A} {p : List A} :
    p ∈ (seq first second).paths ↔
      ∃ p₁ ∈ first.paths, ∃ p₂ ∈ second.paths, p₁ ++ p₂ = p := by
  rw [paths]
  simp

theorem mem_paths_branch {arms : List (Flow A)} {exhaustive : Bool} {p : List A} :
    p ∈ (branch arms exhaustive).paths ↔
      (exhaustive = false ∧ p = []) ∨ ∃ arm ∈ arms, p ∈ arm.paths := by
  rw [paths, armPaths_eq_flatMap]
  cases exhaustive <;> simp

theorem exists_mem_paths {f : Flow A} (h : f.armed) : ∃ p, p ∈ f.paths := by
  induction f with
  | skip => exact ⟨[], List.mem_singleton_self []⟩
  | act a => exact ⟨[a], List.mem_singleton_self [a]⟩
  | seq first second ih₁ ih₂ =>
    obtain ⟨h₁, h₂⟩ := armed_seq.mp h
    obtain ⟨p₁, hp₁⟩ := ih₁ h₁
    obtain ⟨p₂, hp₂⟩ := ih₂ h₂
    exact ⟨p₁ ++ p₂, mem_paths_seq.mpr ⟨p₁, hp₁, p₂, hp₂, rfl⟩⟩
  | region body ih => exact ih h
  | branch arms exhaustive ih =>
    obtain ⟨hne, ha⟩ := armed_branch.mp h
    obtain ⟨arm, harm⟩ := List.exists_mem_of_ne_nil arms hne
    obtain ⟨p, hp⟩ := ih arm harm (ha arm harm)
    exact ⟨p, mem_paths_branch.mpr (.inr ⟨arm, harm, hp⟩)⟩

/-! ## Meeting an action -/

section
variable (q : A → Bool)

/-- Some path meets an action that `q` holds of. -/
def May (f : Flow A) : Prop := ∃ p ∈ f.paths, p.any q

/-- Every path meets an action that `q` holds of. -/
def Must (f : Flow A) : Prop := ∀ p ∈ f.paths, p.any q

/-- Somewhere in a flow, a part that meets `q` on some of its paths but not on all of them
is followed by a part that meets `q` on some path. -/
inductive Repeats : Flow A → Prop
  | here {first second : Flow A} :
      first.May q → ¬ first.Must q → second.May q → Repeats (.seq first second)
  | first {first second : Flow A} : Repeats first → Repeats (.seq first second)
  | second {first second : Flow A} : Repeats second → Repeats (.seq first second)
  | region {body : Flow A} : Repeats body → Repeats (.region body)
  | arm {arm : Flow A} {arms : List (Flow A)} {exhaustive : Bool} :
      arm ∈ arms → Repeats arm → Repeats (.branch arms exhaustive)

end

section
variable {q : A → Bool}

theorem not_may_skip : ¬ (skip : Flow A).May q := by
  rintro ⟨p, hp, hq⟩
  rw [List.mem_singleton.mp hp] at hq
  cases hq

theorem not_must_skip : ¬ (skip : Flow A).Must q := by
  intro h
  cases h [] (List.mem_singleton_self [])

theorem may_act {a : A} : (act a).May q ↔ q a := by
  simp [May, paths]

theorem must_act {a : A} : (act a).Must q ↔ q a := by
  simp [Must, paths]

theorem May.of_seq {first second : Flow A} (h : (seq first second).May q) :
    first.May q ∨ second.May q := by
  obtain ⟨p, hp, hq⟩ := h
  obtain ⟨p₁, hp₁, p₂, hp₂, rfl⟩ := mem_paths_seq.mp hp
  rw [List.any_append, Bool.or_eq_true] at hq
  exact hq.imp (⟨p₁, hp₁, ·⟩) (⟨p₂, hp₂, ·⟩)

/-- A path of the first part without the action and one of the second part without it
make a path of the whole without it. -/
theorem must_seq {first second : Flow A} :
    (seq first second).Must q ↔ first.Must q ∨ second.Must q := by
  constructor
  · intro h
    by_contra hne
    rw [not_or, Must, Must] at hne
    push Not at hne
    obtain ⟨⟨p₁, hp₁, h₁⟩, p₂, hp₂, h₂⟩ := hne
    have hq := h (p₁ ++ p₂) (mem_paths_seq.mpr ⟨p₁, hp₁, p₂, hp₂, rfl⟩)
    rw [List.any_append, Bool.or_eq_true] at hq
    exact hq.elim h₁ h₂
  · rintro h p hp
    obtain ⟨p₁, hp₁, p₂, hp₂, rfl⟩ := mem_paths_seq.mp hp
    rw [List.any_append, Bool.or_eq_true]
    exact h.imp (· p₁ hp₁) (· p₂ hp₂)

theorem May.of_branch {arms : List (Flow A)} {exhaustive : Bool}
    (h : (branch arms exhaustive).May q) : ∃ arm ∈ arms, arm.May q := by
  obtain ⟨p, hp, hq⟩ := h
  rcases mem_paths_branch.mp hp with ⟨-, rfl⟩ | ⟨arm, harm, hp⟩
  · cases hq
  · exact ⟨arm, harm, p, hp, hq⟩

theorem must_branch {arms : List (Flow A)} {exhaustive : Bool} :
    (branch arms exhaustive).Must q ↔ exhaustive = true ∧ ∀ arm ∈ arms, arm.Must q := by
  constructor
  · intro h
    refine ⟨?_, fun arm harm p hp ↦ h p (mem_paths_branch.mpr (.inr ⟨arm, harm, hp⟩))⟩
    by_contra he
    cases h [] (mem_paths_branch.mpr (.inl ⟨eq_false_of_ne_true he, rfl⟩))
  · rintro ⟨he, h⟩ p hp
    rcases mem_paths_branch.mp hp with ⟨hf, -⟩ | ⟨arm, harm, hp⟩
    · rw [he] at hf
      cases hf
    · exact h arm harm p hp

/-- Where a part that may meet the action follows another, some path meets it twice. -/
theorem Repeats.exists_path {f : Flow A} (h : f.Repeats q) (hf : f.armed) :
    ∃ p ∈ f.paths, 1 < p.countP q := by
  induction h with
  | here h₁ _ h₂ =>
    obtain ⟨p₁, hp₁, h₁⟩ := h₁
    obtain ⟨p₂, hp₂, h₂⟩ := h₂
    refine ⟨p₁ ++ p₂, mem_paths_seq.mpr ⟨p₁, hp₁, p₂, hp₂, rfl⟩, ?_⟩
    have hc₁ : 0 < p₁.countP q := List.countP_pos_iff.mpr (List.any_eq_true.mp h₁)
    have hc₂ : 0 < p₂.countP q := List.countP_pos_iff.mpr (List.any_eq_true.mp h₂)
    rw [List.countP_append]
    omega
  | first _ ih =>
    obtain ⟨h₁, h₂⟩ := armed_seq.mp hf
    obtain ⟨p₁, hp₁, hc⟩ := ih h₁
    obtain ⟨p₂, hp₂⟩ := exists_mem_paths h₂
    refine ⟨p₁ ++ p₂, mem_paths_seq.mpr ⟨p₁, hp₁, p₂, hp₂, rfl⟩, ?_⟩
    rw [List.countP_append]
    omega
  | second _ ih =>
    obtain ⟨h₁, h₂⟩ := armed_seq.mp hf
    obtain ⟨p₁, hp₁⟩ := exists_mem_paths h₁
    obtain ⟨p₂, hp₂, hc⟩ := ih h₂
    refine ⟨p₁ ++ p₂, mem_paths_seq.mpr ⟨p₁, hp₁, p₂, hp₂, rfl⟩, ?_⟩
    rw [List.countP_append]
    omega
  | region _ ih => exact ih hf
  | arm harm _ ih =>
    obtain ⟨p, hp, hc⟩ := ih ((armed_branch.mp hf).2 _ harm)
    exact ⟨p, mem_paths_branch.mpr (.inr ⟨_, harm, hp⟩), hc⟩

end

end DefiniteAssignment.Flow
