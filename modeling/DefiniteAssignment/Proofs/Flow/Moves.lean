import DefiniteAssignment.Flow.Program
import DefiniteAssignment.Proofs.Stack.Outline
import DefiniteAssignment.Proofs.Stack.Room

/-!
# Moves on outlines

What a move does to a stack in step, it does to the outline of the stack, provided there
is room for the slots it reserves. Straight-line code is therefore run on outlines alone,
and so are its notes.
-/

namespace DefiniteAssignment

variable {τ : Type}

namespace Move

def outline : Move τ → Outline → Outline
  | openScope, o => o.openScope
  | closeScope, o => o.closeScope
  | declare d, o => o.declare d.name
  | assign name _ _, o => o.assign name
  | mark _, o => o

/-- What a move notes. -/
def sees : Move τ → Outline → List (Nat × Outline)
  | mark point, o => [(point, o)]
  | _, _ => []

/-- The sizes of the slots a move reserves where the innermost scope binds `inner`. -/
def sizes [Storable τ] : Move τ → List String → List UInt64
  | declare d, inner => if d.name ∈ inner then [] else [Storable.storageSize d.ty]
  | _, _ => []

end Move

namespace Outline

/-- The outline after straight-line code. -/
def follow : List (Move τ) → Outline → Outline
  | [], o => o
  | m :: path, o => follow path (m.outline o)

/-- The notes of straight-line code. -/
def seen : List (Move τ) → Outline → List (Nat × Outline)
  | [], _ => []
  | m :: path, o => m.sees o ++ seen path (m.outline o)

theorem follow_append (p q : List (Move τ)) (o : Outline) :
    o.follow (p ++ q) = (o.follow p).follow q := by
  induction p generalizing o with
  | nil => rfl
  | cons m p ih => exact ih (m.outline o)

theorem seen_append (p q : List (Move τ)) (o : Outline) :
    o.seen (p ++ q) = o.seen p ++ (o.follow p).seen q := by
  induction p generalizing o with
  | nil => rfl
  | cons m p ih => rw [List.cons_append, seen, seen, follow, ih, List.append_assoc]

end Outline

namespace Walk

open Stack

/-- The notes of a walk, as outlines. -/
def seen (x : Walk τ) : List (Nat × Outline) := x.notes.map fun n ↦ (n.1, n.2.outline)

/-- A walk has gone on from `x` to `y` as outlines do: to the outline `o`, noting `noted`,
and with room left for slots of the sizes `rest`. -/
structure Tracks (x y : Walk τ) (o : Outline) (noted : List (Nat × Outline))
    (rest : List UInt64) : Prop where
  outline : y.stack.outline = o
  seen : y.seen = x.seen ++ noted
  room : Room rest y.stack

theorem Tracks.of_notes_eq {x y : Walk τ} {o : Outline} {rest : List UInt64}
    (ho : y.stack.outline = o) (hn : y.notes = x.notes) (hr : Room rest y.stack) :
    Tracks x y o [] rest :=
  ⟨ho, by rw [Walk.seen, Walk.seen, hn, List.append_nil], hr⟩

theorem Tracks.trans {x y z : Walk τ} {o p : Outline} {noted noted' : List (Nat × Outline)}
    {rest rest' : List UInt64} (h : Tracks x y o noted rest) (h' : Tracks y z p noted' rest') :
    Tracks x z p (noted ++ noted') rest' :=
  ⟨h'.outline, by rw [h'.seen, h.seen, List.append_assoc], h'.room⟩

end Walk

namespace Move

open Stack Walk

variable {x : Walk τ} {rest : List UInt64}

theorem tracks_openScope (hr : Room rest x.stack) :
    Tracks x { x with stack := x.stack.openScope } x.stack.outline.openScope [] rest :=
  .of_notes_eq (outline_openScope x.stack) rfl hr.openScope

variable [Storable τ]

theorem exists_closeScope (mode : Mode) (hr : Room rest x.stack) :
    ∃ y, (closeScope : Move τ).perform mode x = .ok y ∧
      Tracks x y x.stack.outline.closeScope [] rest ∧
        ((x.stack.enclosing = [] ∧ y.stack = x.stack) ∨
          ∃ c log, x.stack.closeScope? x.log = some (c, y.stack, log)) := by
  rw [perform]
  cases hc : x.stack.closeScope? x.log with
  | none =>
    exact ⟨x, rfl, .of_notes_eq (closeScope_outline_of_eq_none hc).symm rfl hr,
      .inl ⟨(closeScope?_eq_none_iff x.stack x.log).mp hc, rfl⟩⟩
  | some q =>
    obtain ⟨c, s, log⟩ := q
    exact ⟨_, rfl, .of_notes_eq (outline_of_closeScope? hc) rfl (hr.of_closeScope? hc),
      .inr ⟨c, log, rfl⟩⟩

theorem exists_declare (mode : Mode) {d : Declaration τ} (hs : x.stack.InStep)
    (hr : Room ((declare d : Move τ).sizes x.stack.current.names ++ rest) x.stack) :
    ∃ y, (declare d).perform mode x = .ok y ∧
      Tracks x y (x.stack.outline.declare d.name) [] rest ∧ Keeps x.stack y.stack := by
  by_cases hd : d.name ∈ x.stack.current.names
  · obtain ⟨hdec, hout⟩ := outline_declare_of_mem mode hd
    rw [sizes, if_pos hd, List.nil_append] at hr
    refine ⟨x.refuse (Scope.redeclaration d), ?_, ?_, hs.keeps⟩
    · rw [perform, hdec]
      rfl
    · rw [hout]
      exact .of_notes_eq rfl rfl hr
  · rw [sizes, if_neg hd, List.singleton_append] at hr
    obtain ⟨c, counter, hdec, hroom, hgrows, hnames, hsame⟩ := hr.exists_declare hd mode
    refine ⟨{ x with stack := { x.stack with current := c, counter := counter } }, ?_, ?_,
      hs.keeps_current hgrows counter⟩
    · rw [perform, hdec]
      rfl
    · exact .of_notes_eq (outline_current counter hd hnames hsame) rfl hroom

theorem exists_assign (mode : Mode) (name : String) (order : Order) (span : Span)
    (hs : x.stack.InStep) (hr : Room rest x.stack) :
    ∃ y, (assign name order span : Move τ).perform mode x = .ok y ∧
      Tracks x y (x.stack.outline.assign name) [] rest ∧ Keeps x.stack y.stack := by
  cases hp : x.stack.place? name with
  | none =>
    refine ⟨x, ?_, ?_, hs.keeps⟩
    · rw [perform, Stack.call, place?_eq_none_iff.mp hp]
      rfl
    · rw [Outline.assign, place?_outline, hp]
      exact .of_notes_eq rfl rfl hr
  | some place =>
    obtain ⟨r, t, hcall, hkeeps, halike, hlevels⟩ := hs.exists_assign mode hp order span
    have hy : ∃ y, (assign name order span : Move τ).perform mode x = .ok y ∧
        y.stack = t ∧ y.notes = x.notes := by
      rw [perform, hcall, Violation.ok_bind]
      cases r <;> exact ⟨_, rfl, rfl, rfl⟩
    obtain ⟨y, hy, rfl, hn⟩ := hy
    exact ⟨y, hy, .of_notes_eq (outline_assign hp halike hlevels) hn (hr.of_alike halike), hkeeps⟩

/-- A move does to the outline of a stack in step what it does to the stack. -/
theorem exists_perform (mode : Mode) (m : Move τ) (hs : x.stack.InStep)
    (hr : Room (m.sizes x.stack.current.names ++ rest) x.stack) :
    ∃ y, m.perform mode x = .ok y ∧
      Tracks x y (m.outline x.stack.outline) (m.sees x.stack.outline) rest ∧ y.stack.InStep := by
  cases m with
  | openScope => exact ⟨_, rfl, tracks_openScope hr, hs.keeps_openScope.inStep⟩
  | closeScope =>
    obtain ⟨y, hy, ht, hst⟩ := exists_closeScope mode hr
    refine ⟨y, hy, ht, ?_⟩
    rcases hst with ⟨-, hst⟩ | ⟨c, log, hst⟩
    · rw [hst]
      exact hs
    · exact hs.of_closeScope? hst
  | declare d =>
    obtain ⟨y, hy, ht, hk⟩ := exists_declare mode hs hr
    exact ⟨y, hy, ht, hk.inStep⟩
  | assign name order span =>
    obtain ⟨y, hy, ht, hk⟩ := exists_assign mode name order span hs hr
    exact ⟨y, hy, ht, hk.inStep⟩
  | mark point =>
    exact ⟨_, rfl, ⟨rfl, by rw [seen, List.map_append]; rfl, hr⟩, hs⟩

end Move

end DefiniteAssignment
