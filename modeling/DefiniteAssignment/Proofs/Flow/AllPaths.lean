import DefiniteAssignment.Proofs.Flow.Meet
import DefiniteAssignment.Proofs.Flow.Runs
import Mathlib.Data.List.Pairwise

/-!
# The analysis is the meet over all paths

At every point of a program the analysis knows of a variable that it has a value exactly
if the variable has one in every run of the program that reaches the point. The two are
not run on the same stacks: the analysis pushes a level for each region and each arm, goes
through all arms, and lets each of them reserve slots, while a run has no levels at all and
takes one arm of each branch.

A run is compared with the analysis by its outline. The induction is on the program, and
starts from a family of outlines whose meet is the outline of the analysis: the runs of a
sequence are the runs of its second part, from all the outlines the first part can be left
with. The two places where knowledge is put together are the end of a region, where it is
added to what was known before, and a join. Either is right because no run loses what was
known before it.
-/

namespace DefiniteAssignment

variable {τ : Type}

namespace Flow

open Outline

/-- The outlines a flow can be left with, from the outlines of a family. -/
def reach (f : Flow (Move τ)) (O : Set Outline) : Set Outline :=
  {r | ∃ o ∈ O, ∃ path ∈ f.paths, o.follow path = r}

/-- The outlines at a point of a flow, from the outlines of a family. -/
def noted (f : Flow (Move τ)) (O : Set Outline) (point : Nat) : Set Outline :=
  {r | ∃ o ∈ O, ∃ path ∈ f.paths, (point, r) ∈ o.seen path}

section
variable {O : Set Outline} {f g : Flow (Move τ)}

theorem reach_skip : (skip : Flow (Move τ)).reach O = O := by
  ext r
  constructor
  · rintro ⟨o, ho, path, hp, rfl⟩
    rw [List.mem_singleton.mp hp]
    exact ho
  · intro hr
    exact ⟨r, hr, [], List.mem_singleton_self [], rfl⟩

theorem reach_act (m : Move τ) : (act m).reach O = m.outline '' O := by
  ext r
  constructor
  · rintro ⟨o, ho, path, hp, rfl⟩
    rw [List.mem_singleton.mp hp]
    exact ⟨o, ho, rfl⟩
  · rintro ⟨o, ho, rfl⟩
    exact ⟨o, ho, [m], List.mem_singleton_self [m], rfl⟩

theorem reach_seq : (seq f g).reach O = g.reach (f.reach O) := by
  ext r
  constructor
  · rintro ⟨o, ho, path, hp, rfl⟩
    obtain ⟨p₁, hp₁, p₂, hp₂, rfl⟩ := mem_paths_seq.mp hp
    exact ⟨o.follow p₁, ⟨o, ho, p₁, hp₁, rfl⟩, p₂, hp₂, (Outline.follow_append p₁ p₂ o).symm⟩
  · rintro ⟨_, ⟨o, ho, p₁, hp₁, rfl⟩, p₂, hp₂, rfl⟩
    exact ⟨o, ho, p₁ ++ p₂, mem_paths_seq.mpr ⟨p₁, hp₁, p₂, hp₂, rfl⟩,
      Outline.follow_append p₁ p₂ o⟩

theorem reach_branch (arms : List (Flow (Move τ))) (exhaustive : Bool) :
    (branch arms exhaustive).reach O =
      {q | (exhaustive = false ∧ q ∈ O) ∨ ∃ arm ∈ arms, q ∈ arm.reach O} := by
  ext r
  constructor
  · rintro ⟨o, ho, path, hp, rfl⟩
    rcases mem_paths_branch.mp hp with ⟨he, rfl⟩ | ⟨arm, harm, hp⟩
    · exact .inl ⟨he, ho⟩
    · exact .inr ⟨arm, harm, o, ho, path, hp, rfl⟩
  · rintro (⟨he, hr⟩ | ⟨arm, harm, o, ho, path, hp, rfl⟩)
    · exact ⟨r, hr, [], mem_paths_branch.mpr (.inl ⟨he, rfl⟩), rfl⟩
    · exact ⟨o, ho, path, mem_paths_branch.mpr (.inr ⟨arm, harm, hp⟩), rfl⟩

theorem mem_noted_seq {point : Nat} {r : Outline} : r ∈ (seq f g).noted O point ↔
    (r ∈ f.noted O point ∧ ∃ q, q ∈ g.paths) ∨ r ∈ g.noted (f.reach O) point := by
  constructor
  · rintro ⟨o, ho, path, hp, hr⟩
    obtain ⟨p₁, hp₁, p₂, hp₂, rfl⟩ := mem_paths_seq.mp hp
    rw [Outline.seen_append, List.mem_append] at hr
    rcases hr with hr | hr
    · exact .inl ⟨⟨o, ho, p₁, hp₁, hr⟩, p₂, hp₂⟩
    · exact .inr ⟨o.follow p₁, ⟨o, ho, p₁, hp₁, rfl⟩, p₂, hp₂, hr⟩
  · rintro (⟨⟨o, ho, p₁, hp₁, hr⟩, p₂, hp₂⟩ | ⟨_, ⟨o, ho, p₁, hp₁, rfl⟩, p₂, hp₂, hr⟩)
    · refine ⟨o, ho, p₁ ++ p₂, mem_paths_seq.mpr ⟨p₁, hp₁, p₂, hp₂, rfl⟩, ?_⟩
      rw [Outline.seen_append]
      exact List.mem_append_left _ hr
    · refine ⟨o, ho, p₁ ++ p₂, mem_paths_seq.mpr ⟨p₁, hp₁, p₂, hp₂, rfl⟩, ?_⟩
      rw [Outline.seen_append]
      exact List.mem_append_right _ hr

end

end Flow

namespace Program

open Outline

theorem reach_block (body : Program τ) (O : Set Outline) :
    (block body).flow.reach O =
      Outline.closeScope '' (body.flow.reach (Outline.openScope '' O)) := by
  rw [flow, Flow.block, Flow.reach_seq, Flow.reach_seq, Flow.reach_act, Flow.reach_act]
  rfl

/-- What is kept inside a block is kept by the block, at the places that were open. -/
theorem known_follow_block {body : Program τ} {path : List (Move τ)}
    (hp : path ∈ (block body).flow.paths) {o : Outline} (ho : o.Bounded) {place : Nat}
    {name : String} (hk : o.known place name)
    (h : ∀ q ∈ body.flow.paths, (o.openScope.follow q).known place name) :
    (o.follow path).known place name := by
  obtain ⟨q, hq, rfl⟩ := mem_paths_block.mp hp
  rw [follow_block, Outline.closeScope_of_outer (names_follow hq o.openScope).1]
  exact Bool.and_eq_true_iff.mpr ⟨decide_eq_true (ho place name hk), h q hq⟩

/-- No run of a program loses what was known before it. -/
theorem known_follow {p : Program τ} {path : List (Move τ)} (hp : path ∈ p.flow.paths)
    {o : Outline} (ho : o.Bounded) {place : Nat} {name : String} (hk : o.known place name) :
    (o.follow path).known place name := by
  induction p generalizing path o with
  | skip => rw [List.mem_singleton.mp hp]; exact hk
  | mark point => rw [List.mem_singleton.mp hp]; exact hk
  | declare d =>
    rw [List.mem_singleton.mp hp]
    change (o.declare d.name).known place name
    rw [Outline.declare]
    split <;> exact hk
  | assign n order span =>
    rw [List.mem_singleton.mp hp]
    change (o.assign n).known place name
    rw [Outline.assign]
    split
    · exact hk
    · exact (Bool.or_eq_true _ _).mpr (.inl hk)
  | seq first second ih₁ ih₂ =>
    obtain ⟨p₁, hp₁, p₂, hp₂, rfl⟩ := Flow.mem_paths_seq.mp hp
    rw [follow_append]
    exact ih₂ hp₂ (ho.follow p₁) (ih₁ hp₁ ho hk)
  | block body ih =>
    exact known_follow_block hp ho hk fun q hq ↦ ih hq (ho.move (.openScope : Move τ)) hk
  | region body ih => exact ih hp ho hk
  | branch arms exhaustive ih =>
    rcases mem_paths_branch.mp hp with ⟨-, rfl⟩ | ⟨arm, harm, hp⟩
    · exact hk
    · exact known_follow_block hp ho hk fun q hq ↦
        ih arm harm hq (ho.move (.openScope : Move τ)) hk

theorem known_reach (p : Program τ) {O : Set Outline} {o : Outline} (h : Meets O o) (place : Nat)
    (name : String) (hk : o.known place name) : ∀ q ∈ p.flow.reach O, q.known place name := by
  rintro _ ⟨q, hq, path, hp, rfl⟩
  exact known_follow hp (h.bounded q hq) ((h.known place name).mp hk q hq)

/-! ## The end of a program -/

theorem meets_after_block {body : Program τ} {O : Set Outline} {o : Outline} (h : Meets O o)
    (hbody : ∀ {P : Set Outline} {b : Outline}, Meets P b →
      Meets (body.flow.reach P) (body.after b)) :
    Meets ((block body).flow.reach O) ((block body).after o) := by
  rw [reach_block, after]
  exact (hbody (h.move (.openScope : Move τ))).move (.closeScope : Move τ)

/-- What the analysis knows at the end of a program is the meet over all paths. -/
theorem meets_after {p : Program τ} (hp : p.flow.armed) {O : Set Outline} {o : Outline}
    (h : Meets O o) : Meets (p.flow.reach O) (p.after o) := by
  induction p generalizing O o with
  | skip =>
    rw [flow, Flow.reach_skip]
    exact h
  | mark point =>
    rw [flow, Flow.reach_act]
    exact h.move (.mark point)
  | declare d =>
    rw [flow, Flow.reach_act]
    exact h.move (.declare d)
  | assign name order span =>
    rw [flow, Flow.reach_act]
    exact h.move (.assign name order span)
  | seq first second ih₁ ih₂ =>
    obtain ⟨h₁, h₂⟩ := Flow.armed_seq.mp hp
    rw [flow, Flow.reach_seq]
    exact ih₂ h₂ (ih₁ h₁ h)
  | block body ih =>
    rw [armed_block] at hp
    exact meets_after_block h (ih hp)
  | region body ih => exact (ih hp h).fold (known_reach body h)
  | branch arms exhaustive ih =>
    obtain ⟨hne, harms⟩ := armed_branch.mp hp
    have hreach : (branch arms exhaustive).flow.reach O =
        {q | (exhaustive = false ∧ q ∈ O) ∨ ∃ arm ∈ arms, q ∈ (block arm).flow.reach O} := by
      rw [flow, armFlows_eq_map, Flow.reach_branch]
      simp [flow]
    rw [hreach, after, armsAfter_eq_map]
    refine h.join exhaustive hne (fun arm harm ↦ ?_) (fun arm _ ↦ names_after (block arm) o)
      fun arm _ ↦ known_reach (block arm) h
    exact meets_after_block h (ih arm harm (harms arm harm))

/-! ## The points of a program -/

/-- The analysis notes every mark of a program, in the order they stand. -/
theorem map_fst_seen (p : Program τ) (o : Outline) : (p.seen o).map Prod.fst = p.marks := by
  induction p generalizing o with
  | skip => rfl
  | mark point => rfl
  | declare d => rfl
  | assign name order span => rfl
  | seq first second ih₁ ih₂ => rw [seen, List.map_append, ih₁, ih₂, marks]
  | block body ih => exact ih o.openScope
  | region body ih => exact ih o
  | branch arms exhaustive ih =>
    rw [seen, armsSeen_eq_flatMap, marks, armMarks_eq_flatMap, List.map_flatMap]
    exact List.flatMap_congr fun arm harm ↦ ih arm harm o.openScope

/-- A run notes marks of the program only. -/
theorem mem_marks_of_noted {p : Program τ} {O : Set Outline} {point : Nat} {r : Outline}
    (h : r ∈ p.flow.noted O point) : point ∈ p.marks := by
  obtain ⟨o, -, path, hp, hr⟩ := h
  induction p generalizing path o with
  | skip =>
    rw [List.mem_singleton.mp hp] at hr
    cases hr
  | mark k =>
    rw [List.mem_singleton.mp hp] at hr
    cases List.mem_singleton.mp hr
    exact List.mem_singleton_self _
  | declare d =>
    rw [List.mem_singleton.mp hp] at hr
    cases hr
  | assign name order span =>
    rw [List.mem_singleton.mp hp] at hr
    cases hr
  | seq first second ih₁ ih₂ =>
    obtain ⟨p₁, hp₁, p₂, hp₂, rfl⟩ := Flow.mem_paths_seq.mp hp
    rw [seen_append, List.mem_append] at hr
    rw [marks, List.mem_append]
    exact hr.imp (ih₁ o p₁ hp₁) (ih₂ _ p₂ hp₂)
  | block body ih =>
    obtain ⟨q, hq, rfl⟩ := mem_paths_block.mp hp
    rw [seen_block] at hr
    exact ih o.openScope q hq hr
  | region body ih => exact ih o path hp hr
  | branch arms exhaustive ih =>
    rw [marks, armMarks_eq_flatMap, List.mem_flatMap]
    rcases mem_paths_branch.mp hp with ⟨-, rfl⟩ | ⟨arm, harm, hp⟩
    · cases hr
    · obtain ⟨q, hq, rfl⟩ := mem_paths_block.mp hp
      rw [seen_block] at hr
      exact ⟨arm, harm, ih arm harm o.openScope q hq hr⟩

theorem noted_block (body : Program τ) (O : Set Outline) (point : Nat) :
    (block body).flow.noted O point = body.flow.noted (Outline.openScope '' O) point := by
  ext r
  constructor
  · rintro ⟨o, ho, path, hp, hr⟩
    obtain ⟨q, hq, rfl⟩ := mem_paths_block.mp hp
    rw [seen_block] at hr
    exact ⟨o.openScope, ⟨o, ho, rfl⟩, q, hq, hr⟩
  · rintro ⟨_, ⟨o, ho, rfl⟩, q, hq, hr⟩
    refine ⟨o, ho, _, mem_paths_block.mpr ⟨q, hq, rfl⟩, ?_⟩
    rwa [seen_block]

theorem mem_marks_of_seen {p : Program τ} {o r : Outline} {point : Nat}
    (h : (point, r) ∈ p.seen o) : point ∈ p.marks := by
  rw [← map_fst_seen p o]
  exact List.mem_map_of_mem h

theorem noted_mark (point : Nat) (O : Set Outline) :
    (mark point : Program τ).flow.noted O point = O := by
  ext r
  constructor
  · rintro ⟨o, ho, path, hp, hr⟩
    rw [List.mem_singleton.mp hp] at hr
    cases List.mem_singleton.mp hr
    exact ho
  · exact fun hr ↦ ⟨r, hr, [.mark point], List.mem_singleton_self _, List.mem_singleton_self _⟩

/-- A point of the first part of a sequence is passed before the second part begins. -/
theorem noted_seq_first {first second : Program τ} (harmed : second.flow.armed) {point : Nat}
    (h : point ∉ second.marks) (O : Set Outline) :
    (seq first second).flow.noted O point = first.flow.noted O point := by
  ext r
  rw [flow, Flow.mem_noted_seq]
  constructor
  · rintro (⟨hr, -⟩ | hr)
    · exact hr
    · exact absurd (mem_marks_of_noted hr) h
  · exact fun hr ↦ .inl ⟨hr, Flow.exists_mem_paths harmed⟩

/-- A point of the second part of a sequence is passed from where the first part ends. -/
theorem noted_seq_second {first second : Program τ} {point : Nat} (h : point ∉ first.marks)
    (O : Set Outline) :
    (seq first second).flow.noted O point = second.flow.noted (first.flow.reach O) point := by
  ext r
  rw [flow, Flow.mem_noted_seq]
  constructor
  · rintro (⟨hr, -⟩ | hr)
    · exact absurd (mem_marks_of_noted hr) h
    · exact hr
  · exact .inr

/-- A point of one arm is not passed by runs that take another. -/
theorem noted_branch {arms : List (Program τ)} {exhaustive : Bool}
    (hnodup : (branch arms exhaustive).marks.Nodup) {arm : Program τ} (harm : arm ∈ arms)
    {point : Nat} (h : point ∈ arm.marks) (O : Set Outline) :
    (branch arms exhaustive).flow.noted O point = (block arm).flow.noted O point := by
  rw [marks, armMarks_eq_flatMap, List.nodup_flatMap] at hnodup
  ext r
  constructor
  · rintro ⟨o, ho, path, hp, hr⟩
    rcases mem_paths_branch.mp hp with ⟨-, rfl⟩ | ⟨other, hother, hp⟩
    · cases hr
    · have hmarks : point ∈ (block other).marks :=
        mem_marks_of_noted ⟨o, ho, path, hp, hr⟩
      have heq : other = arm := by
        by_contra hne
        have : Std.Symm (Function.onFun List.Disjoint (marks (τ := τ))) :=
          ⟨fun _ _ hd _ hb ha ↦ hd ha hb⟩
        exact hnodup.2.forall hother harm hne hmarks h
      rw [← heq]
      exact ⟨o, ho, path, hp, hr⟩
  · rintro ⟨o, ho, path, hp, hr⟩
    exact ⟨o, ho, path, mem_paths_branch.mpr (.inr ⟨arm, harm, hp⟩), hr⟩

/-- What the analysis knows at a point of a program is the meet over all runs that reach
the point. -/
theorem meets_seen {p : Program τ} (hp : p.flow.armed) (hnodup : p.marks.Nodup)
    {O : Set Outline} {o : Outline} (h : Meets O o) {point : Nat} {r : Outline}
    (hr : (point, r) ∈ p.seen o) : Meets (p.flow.noted O point) r := by
  induction p generalizing O o with
  | skip => cases hr
  | mark k =>
    cases List.mem_singleton.mp hr
    rw [noted_mark]
    exact h
  | declare d => cases hr
  | assign name order span => cases hr
  | seq first second ih₁ ih₂ =>
    obtain ⟨h₁, h₂⟩ := Flow.armed_seq.mp hp
    rw [marks, List.nodup_append] at hnodup
    obtain ⟨hn₁, hn₂, hdisj⟩ := hnodup
    rcases List.mem_append.mp hr with hr | hr
    · have hnot : point ∉ second.marks := fun hs ↦ hdisj _ (mem_marks_of_seen hr) _ hs rfl
      rw [noted_seq_first h₂ hnot]
      exact ih₁ h₁ hn₁ h hr
    · have hnot : point ∉ first.marks := fun hf ↦ hdisj _ hf _ (mem_marks_of_seen hr) rfl
      rw [noted_seq_second hnot]
      exact ih₂ h₂ hn₂ (meets_after h₁ h) hr
  | block body ih =>
    rw [armed_block] at hp
    rw [noted_block]
    exact ih hp hnodup (h.move (.openScope : Move τ)) hr
  | region body ih => exact ih hp hnodup h hr
  | branch arms exhaustive ih =>
    obtain ⟨-, harms⟩ := armed_branch.mp hp
    rw [seen, armsSeen_eq_flatMap, List.mem_flatMap] at hr
    obtain ⟨arm, harm, hr⟩ := hr
    rw [noted_branch hnodup harm (mem_marks_of_seen hr), noted_block]
    rw [marks, armMarks_eq_flatMap, List.nodup_flatMap] at hnodup
    exact ih arm harm (harms arm harm) (hnodup.1 arm harm) (h.move (.openScope : Move τ)) hr

/-! ## Whole programs -/

section
open Stack Walk

variable [Storable τ] {mode : Mode} {config : Config} {p : Program τ}

/-- The run of some path passes a point of the program with this stack. -/
def Passes (mode : Mode) (config : Config) (p : Program τ) (point : Nat) (t : Stack τ) : Prop :=
  ∃ z, .ok z ∈ p.runs mode config ∧ (point, t) ∈ z.notes

/-- The outlines at a point are those of the stacks with which runs pass the point. -/
theorem mem_noted_iff_passes
    (hruns : ∀ path ∈ p.flow.paths, ∃ z, Flow.follow (Move.perform mode) path (.start config) =
      .ok z ∧ z.seen = (start config : Stack τ).outline.seen path) {point : Nat} {r : Outline} :
    r ∈ p.flow.noted {(start config : Stack τ).outline} point ↔
      ∃ t, Passes mode config p point t ∧ t.outline = r := by
  constructor
  · rintro ⟨_, rfl, path, hp, hr⟩
    obtain ⟨z, hz, hseen⟩ := hruns path hp
    rw [← hseen, Walk.seen] at hr
    obtain ⟨⟨k, t⟩, ht, he⟩ := List.mem_map.mp hr
    cases he
    exact ⟨t, ⟨z, List.mem_map.mpr ⟨path, hp, hz⟩, ht⟩, rfl⟩
  · rintro ⟨t, ⟨z, hz, ht⟩, rfl⟩
    obtain ⟨path, hp, hrun⟩ := List.mem_map.mp hz
    obtain ⟨z', hz', hseen⟩ := hruns path hp
    rw [hz'] at hrun
    cases hrun
    refine ⟨_, rfl, path, hp, ?_⟩
    rw [← hseen]
    exact List.mem_map_of_mem ht

/-- Definite assignment is the meet over all paths. The analysis of a program notes each of
its points once, every run of the program goes through, and every point is passed by some
run. At every point, a name is bound in the analysed stack as it is bound, in the same
scope, in every run that passes the point, and it counts as initialized, so that it may be
used, exactly if it is initialized in every such run. -/
theorem analyse_eq_meet_over_paths (hnodup : p.marks.Nodup) (harmed : p.flow.armed)
    (hcount : (p.reservations []).length < UInt32.size)
    (hsize : ((p.reservations []).map UInt64.toNat).sum < UInt64.size) :
    ∃ w, p.analyse mode config = .ok w ∧ w.notes.map Prod.fst = p.marks ∧
      (∀ r ∈ p.runs mode config, ∃ z, r = .ok z) ∧
      ∀ point s, (point, s) ∈ w.notes → (∃ t, Passes mode config p point t) ∧ ∀ name,
        (∀ t, Passes mode config p point t →
          (t.find? name).isSome = (s.find? name).isSome ∧ t.place? name = s.place? name) ∧
        ∀ v, s.find? name = some v →
          (v.initialized ↔ ∀ t, Passes mode config p point t →
            ∀ u, t.find? name = some u → u.initialized) ∧
          ∀ span, v.ensureInitialized span = .ok () ↔ v.initialized := by
  have hroom : Room (p.reservations [] ++ []) (start config : Stack τ) := by
    rw [List.append_nil]
    exact room_start hcount hsize
  have hruns : ∀ path ∈ p.flow.paths, ∃ z,
      Flow.follow (Move.perform mode) path (.start config) = .ok z ∧
        z.seen = (start config : Stack τ).outline.seen path := by
    intro path hp
    obtain ⟨z, hz, ht, -⟩ := followed p path hp (.start config) [] (inStep_start config) hroom
    exact ⟨z, hz, ht.seen⟩
  obtain ⟨w, hw, ht, -⟩ := analysed p harmed (.start config) [] (inStep_start config) hroom
  have hseen : w.seen = p.seen (start config : Stack τ).outline := ht.seen
  refine ⟨w, hw, ?_, ?_, fun point s hs ↦ ?_⟩
  · rw [← map_fst_seen p (start config : Stack τ).outline, ← hseen, Walk.seen, List.map_map]
    rfl
  · intro r hr
    obtain ⟨path, hp, rfl⟩ := List.mem_map.mp hr
    obtain ⟨z, hz, -⟩ := hruns path hp
    exact ⟨z, hz⟩
  have hmem : (point, s.outline) ∈ p.seen (start config : Stack τ).outline := by
    rw [← hseen]
    exact List.mem_map_of_mem hs
  have hmeets := meets_seen harmed hnodup (meets_singleton (bounded_outline (start config))) hmem
  have hpasses : ∀ t, Passes mode config p point t →
      t.outline ∈ p.flow.noted {(start config : Stack τ).outline} point :=
    fun t ht ↦ (mem_noted_iff_passes hruns).mpr ⟨t, ht, rfl⟩
  have hplace : ∀ t, Passes mode config p point t → ∀ name, t.place? name = s.place? name := by
    intro t ht name
    rw [← place?_outline, ← place?_outline, Outline.place?, Outline.place?, Outline.names,
      Outline.names, hmeets.outer _ (hpasses t ht), hmeets.inner _ (hpasses t ht)]
  refine ⟨?_, fun name ↦ ⟨fun t ht ↦ ⟨?_, hplace t ht name⟩, fun v hv ↦ ⟨?_, fun span ↦ ?_⟩⟩⟩
  · obtain ⟨r, hr⟩ := hmeets.nonempty
    obtain ⟨t, ht, -⟩ := (mem_noted_iff_passes hruns).mp hr
    exact ⟨t, ht⟩
  · rw [← isSome_place?, ← isSome_place?, hplace t ht]
  · have hsome : (s.place? name).isSome := by
      rw [isSome_place?, hv]
      rfl
    obtain ⟨place, hk⟩ := Option.isSome_iff_exists.mp hsome
    rw [initialized_eq_known hk hv, hmeets.known]
    constructor
    · intro hall t ht u hu
      rw [initialized_eq_known ((hplace t ht name).trans hk) hu]
      exact hall _ (hpasses t ht)
    · intro hall q hq
      obtain ⟨t, ht, rfl⟩ := (mem_noted_iff_passes hruns).mp hq
      have htsome : (t.find? name).isSome := by
        rw [← isSome_place?, hplace t ht, hk]
        rfl
      obtain ⟨u, hu⟩ := Option.isSome_iff_exists.mp htsome
      rw [← initialized_eq_known ((hplace t ht name).trans hk) hu]
      exact hall t ht u hu
  · rw [Variable.ensureInitialized]
    cases v.initialized <;> simp

/-- Two variables that both arms of a branch assign, but one of them is shadowed in the second arm
before it is assigned there. -/
def shadowing : Program Layout :=
  .seq (.declare ⟨"x", ⟨8, false⟩, true, default⟩)
    (.seq (.declare ⟨"y", ⟨8, false⟩, true, default⟩)
      (.seq
        (.branch
          [.seq (.assign "x" 1 default) (.assign "y" 1 default),
            .seq (.mark 0)
              (.seq (.assign "x" 2 default)
                (.seq (.declare ⟨"y", ⟨4, false⟩, false, default⟩) (.assign "y" 2 default)))]
          true)
        (.mark 1)))

/-- After the branch of `shadowing` the variables are judged by the runs of both arms. One of them
has a value there, in the analysis and in each run that comes to that point. The other one is left
without in a run that gave a value to the variable that shadows it, and so it counts as having
none. -/
theorem shadowing_analyse_eq_meet :
    shadowing.marks.Nodup ∧ shadowing.flow.armed ∧
      (shadowing.reservations []).length < UInt32.size ∧
      ((shadowing.reservations []).map UInt64.toNat).sum < UInt64.size ∧
      ∃ w, shadowing.analyse .strict {} = .ok w ∧ w.notes.map Prod.fst = [0, 1] ∧
        (∃ s v u, (1, s) ∈ w.notes ∧ s.find? "x" = some v ∧ v.initialized ∧
          s.find? "y" = some u ∧ u.initialized = false) ∧
        (∃ t, Passes .strict {} shadowing 1 t) ∧
        (∀ t, Passes .strict {} shadowing 1 t → ∃ v, t.find? "x" = some v ∧ v.initialized) ∧
        (∃ t u, Passes .strict {} shadowing 1 t ∧ t.find? "y" = some u ∧ u.initialized = false) ∧
        ∀ s name v, (1, s) ∈ w.notes → s.find? name = some v →
          (v.initialized ↔ ∀ t, Passes .strict {} shadowing 1 t →
            ∀ u, t.find? name = some u → u.initialized) := by
  have hnodup : shadowing.marks.Nodup := by decide
  have harmed : shadowing.flow.armed := by decide
  have hcount : (shadowing.reservations []).length < UInt32.size := by decide
  have hsize : ((shadowing.reservations []).map UInt64.toNat).sum < UInt64.size := by decide
  obtain ⟨w, hw, s, v, u, hs, hx, hv, hy, hu⟩ : ∃ w, shadowing.analyse .strict {} = .ok w ∧
      ∃ s v u, (1, s) ∈ w.notes ∧ s.find? "x" = some v ∧ v.initialized ∧
        s.find? "y" = some u ∧ u.initialized = false :=
    ⟨_, rfl, _, _, _, List.mem_cons_of_mem _ List.mem_cons_self, rfl, rfl, rfl, rfl⟩
  obtain ⟨w', hw', hmarks, -, hpoints⟩ :=
    @analyse_eq_meet_over_paths Layout _ .strict {} shadowing hnodup harmed hcount hsize
  obtain rfl : w = w' := Except.ok.inj (hw.symm.trans hw')
  have hmeet (s : Stack Layout) (name : String) (v : Variable Layout) (hs : (1, s) ∈ w.notes)
      (hv : s.find? name = some v) : v.initialized ↔ ∀ t, Passes .strict {} shadowing 1 t →
        ∀ u, t.find? name = some u → u.initialized :=
    (((hpoints 1 s hs).2 name).2 v hv).1
  refine ⟨hnodup, harmed, hcount, hsize, w, hw, hmarks, ⟨s, v, u, hs, hx, hv, hy, hu⟩,
    (hpoints 1 s hs).1, fun t ht ↦ ?_, ?_, hmeet⟩
  · obtain ⟨hbound, -⟩ := ((hpoints 1 s hs).2 "x").1 t ht
    rw [hx, Option.isSome_some] at hbound
    obtain ⟨v', hv'⟩ := Option.isSome_iff_exists.mp hbound
    exact ⟨v', hv', (hmeet s "x" v hs hx).mp hv t ht v' hv'⟩
  · have hnone : ¬u.initialized := by rw [hu]; decide
    rw [hmeet s "y" u hs hy] at hnone
    simp only [not_forall] at hnone
    obtain ⟨t, ht, u', hu', hinit⟩ := hnone
    exact ⟨t, u', ht, hu', Bool.eq_false_iff.mpr hinit⟩

end

end Program

end DefiniteAssignment
