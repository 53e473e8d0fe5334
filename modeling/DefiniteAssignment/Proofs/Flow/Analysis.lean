import DefiniteAssignment.Proofs.Flow.Induction
import DefiniteAssignment.Proofs.Flow.Moves
import DefiniteAssignment.Proofs.Flow.Paths

/-!
# Programs on outlines

What the analysis of a program makes of an outline can be told without levels. A block
forgets the scope it opened. A region adds what is known at its end to what was known
before it. Each arm starts from what was known before the branch, and after an exhaustive
branch it is known what is known at the end of every arm.

The analysis of a stack in step, and the run of any path of the program, do to the outline
of the stack what is told here, and note what is told here, if there is room for the slots
the analysis reserves.
-/

namespace DefiniteAssignment.Program

variable {τ : Type}

/-- The names of the innermost scope after a program, where it bound `inner` before. -/
def bound : Program τ → List String → List String
  | declare d, inner => if d.name ∈ inner then inner else inner ++ [d.name]
  | seq first second, inner => second.bound (first.bound inner)
  | region body, inner => body.bound inner
  | skip, inner => inner
  | mark _, inner => inner
  | assign _ _ _, inner => inner
  | block _, inner => inner
  | branch _ _, inner => inner

section
variable [Storable τ]

mutual

/-- The sizes of the slots that the analysis of a program reserves, where the innermost
scope binds `inner`. A name that is bound already is refused, and nothing is reserved. -/
def reservations : Program τ → List String → List UInt64
  | declare d, inner => if d.name ∈ inner then [] else [Storable.storageSize d.ty]
  | seq first second, inner => first.reservations inner ++ second.reservations (first.bound inner)
  | block body, _ => body.reservations []
  | region body, inner => body.reservations inner
  | branch arms _, _ => armReservations arms
  | skip, _ => []
  | mark _, _ => []
  | assign _ _ _, _ => []

def armReservations : List (Program τ) → List UInt64
  | [] => []
  | arm :: arms => arm.reservations [] ++ armReservations arms

end

theorem armReservations_eq_flatMap (arms : List (Program τ)) :
    armReservations arms = arms.flatMap (·.reservations []) := by
  induction arms with
  | nil => simp [armReservations]
  | cons arm arms ih => simp [armReservations, ih]

end

mutual

/-- The outline after a program. -/
def after : Program τ → Outline → Outline
  | skip, o => o
  | mark _, o => o
  | declare d, o => o.declare d.name
  | assign name _ _, o => o.assign name
  | seq first second, o => second.after (first.after o)
  | block body, o => (body.after o.openScope).closeScope
  | region body, o => o.fold (body.after o)
  | branch arms exhaustive, o => o.join (armsAfter arms o) exhaustive

def armsAfter : List (Program τ) → Outline → List Outline
  | [], _ => []
  | arm :: arms, o => (arm.after o.openScope).closeScope :: armsAfter arms o

end

theorem armsAfter_eq_map (arms : List (Program τ)) (o : Outline) :
    armsAfter arms o = arms.map fun arm ↦ (block arm).after o := by
  induction arms with
  | nil => simp [armsAfter]
  | cons arm arms ih => simp [armsAfter, after, ih]

mutual

/-- The notes the analysis of a program takes, as outlines. -/
def seen : Program τ → Outline → List (Nat × Outline)
  | mark point, o => [(point, o)]
  | seq first second, o => first.seen o ++ second.seen (first.after o)
  | block body, o => body.seen o.openScope
  | region body, o => body.seen o
  | branch arms _, o => armsSeen arms o
  | skip, _ => []
  | declare _, _ => []
  | assign _ _ _, _ => []

def armsSeen : List (Program τ) → Outline → List (Nat × Outline)
  | [], _ => []
  | arm :: arms, o => arm.seen o.openScope ++ armsSeen arms o

end

theorem armsSeen_eq_flatMap (arms : List (Program τ)) (o : Outline) :
    armsSeen arms o = arms.flatMap fun arm ↦ (block arm).seen o := by
  induction arms with
  | nil => simp [armsSeen]
  | cons arm arms ih => simp [armsSeen, seen, ih]

theorem armMarks_eq_flatMap (arms : List (Program τ)) : armMarks arms = arms.flatMap marks := by
  induction arms with
  | nil => simp [armMarks]
  | cons arm arms ih => simp [armMarks, ih]

/-! ## Names -/

/-- A program leaves the scopes around the innermost one as they are, and binds in the
innermost one what it declares there. -/
theorem names_after (p : Program τ) (o : Outline) :
    (p.after o).outer = o.outer ∧ (p.after o).inner = p.bound o.inner := by
  induction p generalizing o with
  | skip => exact ⟨rfl, rfl⟩
  | mark point => exact ⟨rfl, rfl⟩
  | declare d => exact ⟨Outline.outer_declare d.name o, Outline.inner_declare d.name o⟩
  | assign name order span => exact Outline.names_assign name o
  | seq first second ih₁ ih₂ =>
    obtain ⟨ho₁, hi₁⟩ := ih₁ o
    obtain ⟨ho₂, hi₂⟩ := ih₂ (first.after o)
    rw [after, bound, ← hi₁]
    exact ⟨ho₂.trans ho₁, hi₂⟩
  | block body ih =>
    rw [after, Outline.closeScope_of_outer (ih o.openScope).1]
    exact ⟨rfl, rfl⟩
  | region body ih => exact ih o
  | branch arms exhaustive => exact ⟨rfl, rfl⟩

theorem names_after_block (body : Program τ) (o : Outline) :
    ((block body).after o).names = o.names := by
  obtain ⟨ho, hi⟩ := names_after (block body) o
  rw [Outline.names, ho, hi]
  rfl

theorem armed_block {body : Program τ} : (block body).flow.armed = body.flow.armed := by
  simp [flow, Flow.block, Flow.armed]

theorem armed_branch {arms : List (Program τ)} {exhaustive : Bool} :
    (branch arms exhaustive).flow.armed ↔ arms ≠ [] ∧ ∀ arm ∈ arms, arm.flow.armed := by
  rw [flow, armFlows_eq_map, Flow.armed_branch, List.forall_mem_map, ne_eq, List.map_eq_nil_iff]
  exact and_congr_right fun _ ↦ forall₂_congr fun arm _ ↦ by rw [← armed_block]; rfl

/-! ## The analysis -/

section
open Stack Walk

variable [Storable τ] {mode : Mode} {rest : List UInt64}

/-- The induction hypothesis: the analysis of a program goes through wherever there is
room for its slots, does to the outline what is told, and keeps the levels around the
current one. -/
def Analysed (mode : Mode) (p : Program τ) : Prop :=
  ∀ (x : Walk τ) (rest : List UInt64), x.stack.InStep →
    Room (p.reservations x.stack.current.names ++ rest) x.stack →
      ∃ y, p.flow.walk mode (Move.perform mode) x = .ok y ∧
        Tracks x y (p.after x.stack.outline) (p.seen x.stack.outline) rest ∧
        Keeps x.stack y.stack

theorem analysed_seq {first second : Program τ} (h₁ : Analysed mode first)
    (h₂ : Analysed mode second) : Analysed mode (seq first second) := by
  intro x rest hs hr
  rw [reservations, List.append_assoc] at hr
  obtain ⟨y, hy, ht, hk⟩ := h₁ x _ hs hr
  have hinner : y.stack.current.names = first.bound x.stack.current.names := by
    have h := congrArg Outline.inner ht.outline
    rwa [(names_after first _).2] at h
  obtain ⟨z, hz, ht', hk'⟩ := h₂ y rest hk.inStep (hinner ▸ ht.room)
  refine ⟨z, ?_, ?_, hk.trans hk'⟩
  · rw [flow, Flow.walk, hy, Violation.ok_bind, hz]
  · rw [ht.outline] at ht'
    exact ht.trans ht'

/-- A block is closed where it was opened, so the levels at its place are forgotten as they
came. -/
theorem analysed_block {body : Program τ} (h : Analysed mode body) :
    Analysed mode (block body) := by
  intro x rest hs hr
  obtain ⟨y, hy, ht, hk⟩ := h { x with stack := x.stack.openScope } rest
    hs.keeps_openScope.inStep hr.openScope
  have hlen : y.stack.enclosing.length = x.stack.scopes.length := by
    have houter := congrArg (·.outer.length) ht.outline
    change (y.stack.enclosing.map _).length = (body.after _).outer.length at houter
    rw [(names_after body _).1, outline_openScope, List.length_map] at houter
    rw [houter]
    simp [Outline.openScope, outline]
  obtain ⟨z, hz, htz, hclose⟩ := Move.exists_closeScope mode ht.room
  rcases hclose with ⟨hnil, -⟩ | ⟨c, log, hclose⟩
  · rw [hnil, length_scopes] at hlen
    cases hlen
  refine ⟨z, ?_, ?_, hk.closeScope? hlen hclose⟩
  · rw [flow, Flow.block]
    simp only [Flow.walk]
    change (body.flow.walk mode (Move.perform mode) { x with stack := x.stack.openScope } >>=
      Move.perform mode .closeScope) = _
    rw [hy, Violation.ok_bind, hz]
  · refine ⟨?_, ?_, htz.room⟩
    · rw [htz.outline, ht.outline, outline_openScope, after]
    · rw [htz.seen, ht.seen, List.append_nil, outline_openScope, seen]
      rfl

theorem analysed_region {body : Program τ} (h : Analysed mode body) :
    Analysed mode (region body) := by
  intro x rest hs hr
  have hnames : x.stack.pushLevel.current.names = x.stack.current.names :=
    Scope.names_congr x.stack.current.identities_pushLevel
  obtain ⟨y, hy, ht, hk⟩ := h { x with stack := x.stack.pushLevel } rest hs.pushLevel
    (hnames ▸ hr.of_alike (alike_pushLevel x.stack))
  refine ⟨{ y with stack := y.stack.folded }, ?_, ⟨?_, ?_, ?_⟩, hk.folded⟩
  · refine Flow.walk_region_of_ok hy ?_
    change (y.stack.foldLevel mode).map _ = _
    rw [hk.inStep.foldLevel hk.depth_ne_zero]
    rfl
  · rw [outline_folded hk, ht.outline, outline_pushLevel, after]
  · change y.seen = _
    rw [ht.seen, outline_pushLevel, seen]
    rfl
  · exact ht.room.of_alike (alike_folded y.stack)

/-- Every arm is analysed from the stack as it was before the branch, and what it says is
what is known where it ends. -/
theorem exists_walkArms {arms : List (Program τ)} (h : ∀ arm ∈ arms, Analysed mode (block arm))
    {x : Walk τ} (hs : x.stack.InStep)
    (hr : Room (arms.flatMap (·.reservations []) ++ rest) x.stack) :
    ∃ (ends : List (Stack τ)) (y : Walk τ),
      Flow.walkArms mode (Move.perform mode) (arms.map fun arm ↦ arm.flow.block) x =
        .ok (ends.map lastArms, y) ∧
      Tracks x y x.stack.outline (arms.flatMap fun arm ↦ (block arm).seen x.stack.outline) rest ∧
      Keeps x.stack y.stack ∧
      ends.map outline = (arms.map fun arm ↦ (block arm).after x.stack.outline) ∧
      ∀ t ∈ ends, t.InStep ∧ t.depth ≠ 0 ∧ t.outline.names = x.stack.outline.names := by
  induction arms generalizing x with
  | nil =>
    refine ⟨[], x, rfl, .of_notes_eq rfl rfl hr, hs.keeps, rfl, fun t ht ↦ ?_⟩
    exact absurd ht List.not_mem_nil
  | cons arm arms ih =>
    rw [List.flatMap_cons, List.append_assoc] at hr
    obtain ⟨y, hy, ht, hk⟩ := h arm List.mem_cons_self { x with stack := x.stack.pushLevel } _
      hs.pushLevel (hr.of_alike (alike_pushLevel x.stack))
    have hout : y.stack.outline = (block arm).after x.stack.outline := by
      rw [ht.outline, outline_pushLevel]
    have hnames : y.stack.outline.names = x.stack.outline.names := by
      rw [hout, names_after_block]
    have hback : y.stack.shed.outline = x.stack.outline := outline_shed hk hnames
    obtain ⟨ends, z, hz, htz, hkz, hends, hall⟩ :=
      ih (fun a ha ↦ h a (List.mem_cons_of_mem arm ha)) (x := { y with stack := y.stack.shed })
        hk.shed.inStep (ht.room.of_alike (alike_shed y.stack))
    change Tracks _ z y.stack.shed.outline (arms.flatMap fun arm ↦
      (block arm).seen y.stack.shed.outline) rest at htz
    change ends.map outline = (arms.map fun arm ↦ (block arm).after y.stack.shed.outline) at hends
    change ∀ t ∈ ends, t.InStep ∧ t.depth ≠ 0 ∧ t.outline.names = y.stack.shed.outline.names at hall
    rw [hback] at htz hends hall
    refine ⟨y.stack :: ends, z, ?_, ⟨htz.outline, ?_, htz.room⟩, hk.shed.trans hkz, ?_, ?_⟩
    · refine Flow.walkArms_cons_of_ok hy ?_ hz
      change (y.stack.takeArms mode).map _ = _
      rw [hk.inStep.takeArms hk.depth_ne_zero]
      rfl
    · have hseen : y.seen = x.seen ++ (block arm).seen x.stack.outline := by
        rw [ht.seen, outline_pushLevel]
        rfl
      rw [htz.seen, List.flatMap_cons, ← List.append_assoc, ← hseen]
      rfl
    · rw [List.map_cons, List.map_cons, hout, hends]
    · intro t hmem
      rcases List.mem_cons.mp hmem with rfl | hmem
      · exact ⟨hk.inStep, hk.depth_ne_zero, hnames⟩
      · exact hall t hmem

theorem analysed_branch {arms : List (Program τ)} {exhaustive : Bool} (hne : arms ≠ [])
    (h : ∀ arm ∈ arms, Analysed mode (block arm)) :
    Analysed mode (branch arms exhaustive) := by
  intro x rest hs hr
  rw [reservations, armReservations_eq_flatMap] at hr
  obtain ⟨ends, y, hy, ht, hk, hends, hall⟩ := exists_walkArms h hs hr
  have hends_ne : ends ≠ [] := by
    intro hnil
    rw [hnil, List.map_nil, eq_comm, List.map_eq_nil_iff] at hends
    exact hne hends
  refine ⟨{ y with stack := y.stack.joinArms (ends.map lastArms) exhaustive }, ?_, ⟨?_, ?_, ?_⟩,
    hk.trans (hk.inStep.keeps_joinArms _ exhaustive)⟩
  · rw [flow, armFlows_eq_map, Flow.walk, hy]
    rfl
  · change (y.stack.joinArms (ends.map lastArms) exhaustive).outline = _
    rw [outline_joinArms exhaustive hends_ne, ht.outline, hends, after, armsAfter_eq_map]
    rw [ht.outline]
    exact hall
  · change y.seen = _
    rw [ht.seen, seen, armsSeen_eq_flatMap]
  · exact ht.room.of_alike (alike_joinArms _ exhaustive y.stack)

/-- The analysis of a program does to outlines what is told here. -/
theorem analysed (p : Program τ) (hp : p.flow.armed) : Analysed mode p := by
  induction p with
  | skip => exact fun x rest hs hr ↦ ⟨x, rfl, .of_notes_eq rfl rfl hr, hs.keeps⟩
  | mark point =>
    intro x rest hs hr
    refine ⟨_, rfl, ⟨rfl, ?_, hr⟩, hs.keeps⟩
    rw [Walk.seen, List.map_append]
    rfl
  | declare d => exact fun x rest hs hr ↦ Move.exists_declare mode hs hr
  | assign name order span => exact fun x rest hs hr ↦ Move.exists_assign mode name order span hs hr
  | seq first second ih₁ ih₂ =>
    obtain ⟨h₁, h₂⟩ := Flow.armed_seq.mp hp
    exact analysed_seq (ih₁ h₁) (ih₂ h₂)
  | block body ih =>
    rw [armed_block] at hp
    exact analysed_block (ih hp)
  | region body ih => exact analysed_region (ih hp)
  | branch arms exhaustive ih =>
    obtain ⟨hne, harms⟩ := armed_branch.mp hp
    exact analysed_branch hne fun arm harm ↦ analysed_block (ih arm harm (harms arm harm))

end

end DefiniteAssignment.Program
