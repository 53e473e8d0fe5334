import DefiniteAssignment.Proofs.Contract.Stack
import DefiniteAssignment.Proofs.Lists
import DefiniteAssignment.Proofs.Scope.Ledger
import DefiniteAssignment.Proofs.Stack.Arising

/-!
# The turns of a session on a stack

A run is taken apart into its turns, each with the session before and after it. What is told of
a whole run, of all the scopes that were ever opened in it, is then told turn by turn.

Whoever overlooks levels does not notice it when one is pushed or popped or when arms are joined,
in whichever scope. So three kinds of operations are left that he does notice: scopes are opened
and closed, slots are reserved, and a variable is called by its name.
-/

namespace DefiniteAssignment

variable {τ α ω β : Type}

namespace Stack

/-- An operation on the levels of all scopes at once. -/
def Op.isRegional : Op τ → Bool
  | .pushLevel | .foldLevel | .takeArms _ | .joinArms _ _ => true
  | _ => false

/-- A call that is answered found its variable in one of the scopes, and changed it there. -/
theorem call_eq_ok {mode : Mode} {name : String} {c : Variable.Call} {s t : Stack τ}
    {r : Option (Variable.Reply τ)} (h : s.call mode name c = .ok (r, t)) :
    (s.find? name = none ∧ r = none ∧ t = s) ∨
      ∃ place b v w q, s.place? name = some place ∧ s.scopes[place]? = some b ∧
        s.find? name = some v ∧ b.find? name = some v ∧ v.call mode c = .ok (q, w) ∧
        r = some q ∧ t = s.set name w ∧ t.scopes = s.scopes.set place (b.set name w) := by
  rw [call] at h
  cases hplace : s.place? name with
  | none =>
    rw [place?_eq_none_iff.mp hplace] at h
    cases h
    exact .inl ⟨place?_eq_none_iff.mp hplace, rfl, rfl⟩
  | some place =>
    obtain ⟨b, hb, hfind, hcontains, hset⟩ := exists_of_place? hplace
    obtain ⟨v, hv⟩ := Option.isSome_iff_exists.mp hcontains
    rw [hfind, hv] at h
    cases hw : v.call mode c with
    | error e =>
      simp only [hw] at h
      cases h
    | ok p =>
      simp only [hw] at h
      cases h
      exact .inr ⟨place, b, v, p.2, p.1, rfl, hb, hfind.trans hv, hv, hw, rfl, rfl, hset p.2⟩

/-- One operation of a run, with what was there before it and after it. -/
structure Turn (τ α ω : Type) where
  before : Session τ α ω
  op : Op τ
  reply : Reply τ
  after : Session τ α ω

/-- The scope that was closed, as it was handed back. -/
def Turn.closed? (t : Turn τ α ω) : Option (Scope τ) :=
  match t.reply with
  | .closed c => some c
  | _ => none

namespace Session

/-- All scopes that were ever opened, each as it was when it closed or as it is now. -/
def everOpened (ts : List (Turn τ α ω)) (x : Session τ α ω) : List (Scope τ) :=
  ts.filterMap Turn.closed? ++ x.stack.scopes

/-- How much storage an operation reserves, if it reserves a slot. -/
def asked? [Storable τ] (x : Session τ α ω) : Op τ → Option UInt64
  | .declare d =>
    if x.stack.current.contains d.name then none else some (Storable.storageSize d.ty)
  | .reserveInternal ty => some (Storable.storageSize ty)
  | .reserve size => some size
  | _ => none

variable [Storable τ] [Allocator α] [Sink ω]

/-- The turns of a run, until it ends. -/
def turns (mode : Mode) : Session τ α ω → List (Op τ) → List (Turn τ α ω)
  | _, [] => []
  | x, op :: ops =>
    match x.step mode op with
    | .ok (r, y) => ⟨x, op, r, y⟩ :: y.turns mode ops
    | .error _ => []

section
variable {mode : Mode} {x y z : Session τ α ω} {op : Op τ} {r : Reply τ}

theorem turns_cons (h : x.step mode op = .ok (r, y)) (ops : List (Op τ)) :
    x.turns mode (op :: ops) = ⟨x, op, r, y⟩ :: y.turns mode ops := by
  rw [turns, h]

theorem turns_concat {ops : List (Op τ)} {rs : List (Reply τ)} (h : x.run mode ops = .ok (rs, y))
    (hstep : y.step mode op = .ok (r, z)) :
    x.turns mode (ops ++ [op]) = x.turns mode ops ++ [⟨y, op, r, z⟩] := by
  induction ops generalizing x rs with
  | nil =>
    cases h
    exact turns_cons hstep []
  | cons first ops ih =>
    obtain ⟨q, u, qs, hfirst, hrest, rfl⟩ := run_cons_eq_ok_iff.mp h
    rw [List.cons_append, turns_cons hfirst, turns_cons hfirst, ih hrest, List.cons_append]

theorem step_of_mem_turns {ops : List (Op τ)} {t : Turn τ α ω} (ht : t ∈ x.turns mode ops) :
    t.before.step mode t.op = .ok (t.reply, t.after) := by
  induction ops generalizing x with
  | nil => cases ht
  | cons op ops ih =>
    rw [turns] at ht
    split at ht
    · next r y hstep =>
      rcases List.mem_cons.mp ht with rfl | ht
      · exact hstep
      · exact ih ht
    · cases ht

/-- What surrounds the innermost scope, and is left alone by what is done to it. -/
structure SameAround (x y : Session τ α ω) : Prop where
  config : y.stack.config = x.stack.config
  enclosing : y.stack.enclosing = x.stack.enclosing
  sink : y.sink = x.sink

/-- A declaration is refused, or adds a variable to the innermost scope and is charged to the
scope and to the counter. -/
theorem declare_cases {d : Declaration τ} (h : x.step mode (.declare d) = .ok (r, y)) :
    (x.stack.current.contains d.name ∧ r = .refused (Scope.redeclaration d) ∧ y = x) ∨
      (x.stack.current.contains d.name = false ∧ r = .done ∧ SameAround x y ∧ ∃ slot total,
        x.stack.counter.reserve mode (Storable.storageSize d.ty) = .ok (slot, y.stack.counter) ∧
        mode.addSize x.stack.current.size (Storable.storageSize d.ty) = .ok total ∧
        y.stack.current =
          ({ x.stack.current with size := total } : Scope τ).bind d slot false) := by
  obtain ⟨p, hp, h⟩ := Violation.bind_eq_ok_iff.mp h
  obtain ⟨q, hq, hp⟩ := Violation.bind_eq_ok_iff.mp hp
  cases q with
  | error e =>
    cases hp
    cases h
    obtain ⟨hc, rfl⟩ := Scope.declare_eq_refused hq
    exact .inl ⟨hc, rfl, rfl⟩
  | ok q =>
    cases hp
    cases h
    obtain ⟨hc, slot, total, hreserve, htotal, hcurrent⟩ := Scope.charged_of_declare hq
    exact .inr ⟨hc, rfl, ⟨rfl, rfl, rfl⟩, slot, total, hreserve, htotal, hcurrent⟩

/-- Nothing is changed by what is refused. -/
theorem eq_of_refused {e : Error} (h : x.step mode op = .ok (.refused e, y)) : y = x := by
  cases op with
  | declare d =>
    rcases declare_cases h with ⟨-, -, hy⟩ | ⟨-, hr, -⟩
    · exact hy
    · cases hr
  | call name c =>
    obtain ⟨⟨q, t⟩, -, h⟩ := Violation.bind_eq_ok_iff.mp h
    cases q <;> cases h
  | closeScope =>
    simp only [step] at h
    split at h <;> cases h
  | reserveInternal | reserve | foldLevel | takeArms | current =>
    obtain ⟨p, -, h⟩ := Violation.bind_eq_ok_iff.mp h
    cases h
  | openScope | pushLevel | joinArms | report => cases h

theorem reserveInternal_eq_ok {ty : τ} (h : x.step mode (.reserveInternal ty) = .ok (r, y)) :
    SameAround x y ∧ ∃ slot total, r = .slot slot ∧
      x.stack.counter.reserve mode (Storable.storageSize ty) = .ok (slot, y.stack.counter) ∧
      mode.addSize x.stack.current.size (Storable.storageSize ty) = .ok total ∧
      y.stack.current = { x.stack.current with size := total } := by
  obtain ⟨p, hp, h⟩ := Violation.bind_eq_ok_iff.mp h
  obtain ⟨⟨slot, c, counter⟩, hq, hp⟩ := Violation.bind_eq_ok_iff.mp hp
  cases hp
  cases h
  obtain ⟨total, htotal, hreserve, hcurrent⟩ := Scope.charged_of_reserveInternal hq
  exact ⟨⟨rfl, rfl, rfl⟩, slot, total, rfl, hreserve, htotal, hcurrent⟩

theorem reserve_eq_ok {size : UInt64} (h : x.step mode (.reserve size) = .ok (r, y)) :
    SameAround x y ∧ y.stack.current = x.stack.current ∧ ∃ slot, r = .slot slot ∧
      x.stack.counter.reserve mode size = .ok (slot, y.stack.counter) := by
  obtain ⟨p, hp, h⟩ := Violation.bind_eq_ok_iff.mp h
  cases hr : x.stack.counter.reserve mode size with
  | error v =>
    rw [Stack.reserve, hr] at hp
    cases hp
  | ok q =>
    rw [Stack.reserve, hr] at hp
    cases hp
    cases h
    exact ⟨⟨rfl, rfl, rfl⟩, rfl, q.1, rfl, rfl⟩

/-- The innermost scope is handed back and judged, unless it is the root. -/
theorem closeScope_cases (h : x.step mode .closeScope = .ok (r, y)) :
    (x.stack.enclosing = [] ∧ r = .atRoot ∧ y = x) ∨
      (r = .closed x.stack.current ∧ y.stack.scopes = x.stack.enclosing ∧
        y.stack.counter = x.stack.counter ∧ y.stack.config = x.stack.config ∧
        y.sink = judge x.stack.config x.sink x.stack.current) := by
  simp only [step] at h
  split at h
  · next closed stack sink hclose =>
    cases h
    obtain ⟨rfl, hscopes, -, hcounter⟩ := scopes_of_closeScope? hclose
    obtain ⟨outer, -, hstack⟩ := Option.map_eq_some_iff.mp hclose
    cases hstack
    exact .inr ⟨rfl, hscopes, hcounter, rfl, rfl⟩
  · next hclose =>
    cases h
    exact .inl ⟨(closeScope?_eq_none_iff _ _).mp hclose, rfl, rfl⟩

/-- Where only levels are concerned, nothing is noticed by who overlooks them. -/
theorem map_scopes_of_isRegional {f : Scope τ → β} (hf : Scope.Overlooks f)
    (hop : op.isRegional) (h : x.step mode op = .ok (r, y)) :
    y.stack.scopes.map f = x.stack.scopes.map f ∧ y.stack.counter = x.stack.counter ∧
      y.stack.config = x.stack.config ∧ y.sink = x.sink := by
  have hmap {g : Scope τ → Scope τ} (hg : ∀ s, f (g s) = f s) :
      (x.stack.scopes.map g).map f = x.stack.scopes.map f := by
    rw [List.map_map]
    exact List.map_congr_left fun s _ ↦ hg s
  cases op with
  | pushLevel =>
    cases h
    refine ⟨?_, rfl, rfl, rfl⟩
    rw [scopes_pushLevel]
    exact hmap hf.pushLevel
  | foldLevel =>
    obtain ⟨t, ht, h⟩ := Violation.bind_eq_ok_iff.mp h
    cases h
    rw [foldLevel_eq_stop] at ht
    rw [Mode.eq_of_stop_eq_ok ht]
    refine ⟨?_, rfl, rfl, rfl⟩
    rw [scopes_folded]
    exact hmap hf.folded
  | takeArms label =>
    obtain ⟨p, hp, h⟩ := Violation.bind_eq_ok_iff.mp h
    cases h
    rw [takeArms_eq_stop] at hp
    rw [Mode.eq_of_stop_eq_ok hp]
    refine ⟨?_, rfl, rfl, rfl⟩
    rw [scopes_shed]
    exact hmap hf.shed
  | joinArms labels exhaustive =>
    cases h
    refine ⟨?_, rfl, rfl, rfl⟩
    rw [scopes_joinArms]
    exact map_mapIdx_of_eq _ fun _ s ↦ hf.joinArms s _ exhaustive
  | _ => cases hop

end

end Session

end Stack

end DefiniteAssignment
