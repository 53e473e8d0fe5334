import DefiniteAssignment.Proofs.Flow.Analysis

/-!
# Runs of a program

A path of a program leaves the scopes around the innermost one as the program leaves
them, and needs no more room than the analysis of the program, which reserves the slots of
all arms. It also loses no knowledge: nothing in a program takes a value away, and a scope
is only closed by the block that opened it.
-/

namespace DefiniteAssignment.Program

open Stack Walk

variable {τ : Type}

theorem mem_paths_block {body : Flow (Move τ)} {path : List (Move τ)} :
    path ∈ body.block.paths ↔ ∃ p ∈ body.paths, path = .openScope :: (p ++ [.closeScope]) := by
  have hact : ∀ m : Move τ, [m] ∈ (Flow.act m).paths := fun m ↦ List.mem_singleton_self [m]
  constructor
  · intro h
    obtain ⟨p₁, hp₁, p₂, hp₂, rfl⟩ := Flow.mem_paths_seq.mp h
    obtain ⟨p, hp, p₃, hp₃, rfl⟩ := Flow.mem_paths_seq.mp hp₂
    rw [List.mem_singleton.mp hp₁, List.mem_singleton.mp hp₃]
    exact ⟨p, hp, rfl⟩
  · rintro ⟨p, hp, rfl⟩
    exact Flow.mem_paths_seq.mpr ⟨_, hact _, _,
      Flow.mem_paths_seq.mpr ⟨p, hp, _, hact _, rfl⟩, rfl⟩

theorem mem_paths_branch {arms : List (Program τ)} {exhaustive : Bool} {path : List (Move τ)} :
    path ∈ (branch arms exhaustive).flow.paths ↔
      (exhaustive = false ∧ path = []) ∨ ∃ arm ∈ arms, path ∈ (block arm).flow.paths := by
  rw [flow, armFlows_eq_map, Flow.mem_paths_branch]
  simp [flow]

theorem follow_block (p : List (Move τ)) (o : Outline) :
    o.follow (.openScope :: (p ++ [.closeScope])) = (o.openScope.follow p).closeScope := by
  rw [Outline.follow, Outline.follow_append]
  rfl

theorem seen_block (p : List (Move τ)) (o : Outline) :
    o.seen (.openScope :: (p ++ [.closeScope])) = o.openScope.seen p := by
  rw [Outline.seen, Outline.seen_append]
  simp [Outline.seen, Move.sees, Move.outline]

/-- A path leaves the names of a stack as its program does. -/
theorem names_follow {p : Program τ} {path : List (Move τ)} (hp : path ∈ p.flow.paths)
    (o : Outline) :
    (o.follow path).outer = o.outer ∧ (o.follow path).inner = p.bound o.inner := by
  induction p generalizing path o with
  | skip => rw [List.mem_singleton.mp hp]; exact ⟨rfl, rfl⟩
  | mark point => rw [List.mem_singleton.mp hp]; exact ⟨rfl, rfl⟩
  | declare d =>
    rw [List.mem_singleton.mp hp]
    exact ⟨o.outer_declare d.name, o.inner_declare d.name⟩
  | assign name order span => rw [List.mem_singleton.mp hp]; exact o.names_assign name
  | seq first second ih₁ ih₂ =>
    obtain ⟨p₁, hp₁, p₂, hp₂, rfl⟩ := Flow.mem_paths_seq.mp hp
    obtain ⟨ho₁, hi₁⟩ := ih₁ hp₁ o
    obtain ⟨ho₂, hi₂⟩ := ih₂ hp₂ (o.follow p₁)
    rw [Outline.follow_append, bound, ← hi₁]
    exact ⟨ho₂.trans ho₁, hi₂⟩
  | block body ih =>
    obtain ⟨q, hq, rfl⟩ := mem_paths_block.mp hp
    rw [follow_block, Outline.closeScope_of_outer (ih hq o.openScope).1]
    exact ⟨rfl, rfl⟩
  | region body ih => exact ih hp o
  | branch arms exhaustive ih =>
    rcases mem_paths_branch.mp hp with ⟨-, rfl⟩ | ⟨arm, harm, hp⟩
    · exact ⟨rfl, rfl⟩
    · obtain ⟨q, hq, rfl⟩ := mem_paths_block.mp hp
      rw [follow_block, Outline.closeScope_of_outer (ih arm harm hq o.openScope).1]
      exact ⟨rfl, rfl⟩

section
variable [Storable τ] {mode : Mode} {rest : List UInt64}

/-- A run of a path goes through wherever there is room for the slots of the analysis, and
does to the outline what the path does to outlines. -/
def Followed (mode : Mode) (p : Program τ) : Prop :=
  ∀ path ∈ p.flow.paths, ∀ (x : Walk τ) (rest : List UInt64), x.stack.InStep →
    Room (p.reservations x.stack.current.names ++ rest) x.stack →
      ∃ y, Flow.follow (Move.perform mode) path x = .ok y ∧
        Tracks x y (x.stack.outline.follow path) (x.stack.outline.seen path) rest ∧
        y.stack.InStep

theorem exists_follow_singleton (mode : Mode) (m : Move τ) {x : Walk τ} (hs : x.stack.InStep)
    (hr : Room (m.sizes x.stack.current.names ++ rest) x.stack) :
    ∃ y, Flow.follow (Move.perform mode) [m] x = .ok y ∧
      Tracks x y (x.stack.outline.follow [m]) (x.stack.outline.seen [m]) rest ∧
      y.stack.InStep := by
  obtain ⟨y, hy, ht, hst⟩ := Move.exists_perform mode m hs hr
  refine ⟨y, ?_, ⟨ht.outline, ?_, ht.room⟩, hst⟩
  · rw [Flow.follow, hy]
    rfl
  · rw [ht.seen, Outline.seen, Outline.seen, List.append_nil]

/-- A program that is a single move is followed as the move is performed. -/
theorem followed_of_paths_eq {p : Program τ} {m : Move τ} (hpaths : p.flow.paths = [[m]])
    (hsizes : ∀ inner, p.reservations inner = m.sizes inner) : Followed mode p := by
  intro path hp x rest hs hr
  rw [hpaths, List.mem_singleton] at hp
  rw [hsizes] at hr
  rw [hp]
  exact exists_follow_singleton mode m hs hr

theorem followed_seq {first second : Program τ} (h₁ : Followed mode first)
    (h₂ : Followed mode second) : Followed mode (seq first second) := by
  intro path hp x rest hs hr
  obtain ⟨p₁, hp₁, p₂, hp₂, rfl⟩ := Flow.mem_paths_seq.mp hp
  rw [reservations, List.append_assoc] at hr
  obtain ⟨y, hy, ht, hst⟩ := h₁ p₁ hp₁ x _ hs hr
  have hinner : y.stack.current.names = first.bound x.stack.current.names := by
    have h := congrArg Outline.inner ht.outline
    rwa [(names_follow hp₁ _).2] at h
  obtain ⟨z, hz, htz, hsz⟩ := h₂ p₂ hp₂ y rest hst (hinner ▸ ht.room)
  rw [ht.outline] at htz
  refine ⟨z, ?_, ?_, hsz⟩
  · rw [Flow.follow_append, hy, Violation.ok_bind, hz]
  · rw [Outline.follow_append, Outline.seen_append]
    exact ht.trans htz

theorem followed_block {body : Program τ} (h : Followed mode body) :
    Followed mode (block body) := by
  intro path hp x rest hs hr
  obtain ⟨q, hq, rfl⟩ := mem_paths_block.mp hp
  obtain ⟨y, hy, ht, hst⟩ := h q hq { x with stack := x.stack.openScope } rest
    hs.keeps_openScope.inStep hr.openScope
  obtain ⟨z, hz, htz, hsz⟩ := exists_follow_singleton mode .closeScope hst ht.room
  refine ⟨z, ?_, ⟨?_, ?_, htz.room⟩, hsz⟩
  · change Flow.follow (Move.perform mode) (q ++ [.closeScope])
      { x with stack := x.stack.openScope } = _
    rw [Flow.follow_append, hy, Violation.ok_bind, hz]
  · rw [htz.outline, ht.outline, outline_openScope, follow_block]
    rfl
  · rw [htz.seen, ht.seen, outline_openScope, seen_block]
    exact List.append_nil _

theorem followed (p : Program τ) : Followed mode p := by
  induction p with
  | skip =>
    intro path hp x rest hs hr
    rw [List.mem_singleton.mp hp]
    exact ⟨x, rfl, .of_notes_eq rfl rfl hr, hs⟩
  | mark point => exact followed_of_paths_eq (m := .mark point) rfl fun _ ↦ rfl
  | declare d => exact followed_of_paths_eq (m := .declare d) rfl fun _ ↦ rfl
  | assign name order span =>
    exact followed_of_paths_eq (m := .assign name order span) rfl fun _ ↦ rfl
  | seq first second ih₁ ih₂ => exact followed_seq ih₁ ih₂
  | block body ih => exact followed_block ih
  | region body ih => exact ih
  | branch arms exhaustive ih =>
    intro path hp x rest hs hr
    rw [reservations, armReservations_eq_flatMap] at hr
    rcases mem_paths_branch.mp hp with ⟨-, rfl⟩ | ⟨arm, harm, hp⟩
    · exact ⟨x, rfl, .of_notes_eq rfl rfl (hr.mono (List.sublist_append_right _ rest)), hs⟩
    · have hsub : (arm.reservations []).Sublist (arms.flatMap (·.reservations [])) :=
        List.sublist_flatten_of_mem (List.mem_map_of_mem harm)
      exact followed_block (ih arm harm) path hp x rest hs (hr.mono (hsub.append_right rest))

end

end DefiniteAssignment.Program
