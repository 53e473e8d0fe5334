import DefiniteAssignment.Proofs.Contract.Scope
import DefiniteAssignment.Stack.Session

/-!
# The two modes agree up to the first breach

A session on a stack breaches the contract in the ways a session on a scope does. Its
own slots are numbered by its counter, those of direct work on the innermost scope by
the allocator beside it, so there has to be room with both.

The main statement is about sessions on a scope and on a stack alike, from whatever
state. A lenient session fails only where a name is not bound and has to be. As long as
nothing is breached the strict session is the lenient one, answer by answer and state by
state. It stops at the first breach, and does not stop anywhere else.
-/

namespace DefiniteAssignment

variable {τ α ω : Type}

namespace Stack

theorem call_strict (name : String) (c : Variable.Call) (s : Stack τ) :
    s.call .strict name c =
      Mode.strict.stop ((s.find? name).bind c.breach?) (s.call .lenient name c) := by
  unfold call
  cases s.find? name with
  | none => rfl
  | some v => simp only [Option.bind_some, Variable.call_strict, Mode.map_stop]

theorem exists_call_lenient (name : String) (c : Variable.Call) (s : Stack τ) :
    ∃ p, s.call .lenient name c = .ok p := by
  unfold call
  cases s.find? name with
  | none => exact ⟨_, rfl⟩
  | some v =>
    obtain ⟨p, hp⟩ := v.exists_call_lenient c
    exact ⟨_, by simp only [hp]; rfl⟩

@[simp] theorem counter_set (s : Stack τ) (name : String) (v : Variable τ) :
    (s.set name v).counter = s.counter := by
  unfold set
  split <;> rfl

/-- Calls on variables reserve nothing. -/
theorem counter_call {mode : Mode} {name : String} {c : Variable.Call} {s t : Stack τ}
    {r : Option (Variable.Reply τ)} (h : s.call mode name c = .ok (r, t)) :
    t.counter = s.counter := by
  unfold call at h
  cases hv : s.find? name with
  | none => simp only [hv] at h; cases h; rfl
  | some v =>
    simp only [hv] at h
    cases hc : v.call mode c with
    | error e => rw [hc] at h; cases h
    | ok p => rw [hc] at h; cases h; exact counter_set s name p.2

namespace Session

variable [Allocator α] [LawfulAllocator α] [Storable τ]

/-- What an operation breaches in the state it finds. -/
def breach? (x : Session τ α ω) : Op τ → Option Violation
  | .declare d =>
    if x.stack.current.contains d.name then none
    else x.stack.current.reservationBreach? x.stack.counter (Storable.storageSize d.ty)
  | .reserveInternal ty =>
    Mode.sumBreach? x.stack.current.size (Storable.storageSize ty) <|>
      LawfulAllocator.totalBreach? x.stack.counter (Storable.storageSize ty)
  | .reserve size => LawfulAllocator.totalBreach? x.stack.counter size
  | .call name c => (x.stack.find? name).bind c.breach?
  | .foldLevel | .takeArms _ => x.stack.popBreach?
  | .current op => x.innermost.breach? op
  | _ => none

/-- An operation that needs a binding where there is none. Only direct work on the
innermost scope can. -/
def misses (x : Session τ α ω) : Op τ → Prop
  | .current op => x.innermost.misses op
  | _ => False

/-- The number of slots an operation reserves: none where it is refused. -/
def cost (x : Session τ α ω) : Op τ → Nat
  | .declare d => if x.stack.current.contains d.name then 0 else 1
  | .reserveInternal _ | .reserve _ => 1
  | .current op => x.innermost.cost op
  | _ => 0

/-- Both the stack's counter and the allocator beside it can number so many slots. -/
def RoomFor (x : Session τ α ω) (n : Nat) : Prop :=
  LawfulAllocator.numbered x.stack.counter + n < UInt32.size ∧
    LawfulAllocator.numbered x.slots + n < UInt32.size

variable [Sink ω]

theorem step_lenient_eq_error_iff {x : Session τ α ω} {op : Op τ} {v : Violation} :
    x.step .lenient op = .error v ↔ v = .unboundName ∧ x.misses op := by
  cases op with
  | closeScope =>
    simp only [step, misses]
    split <;> simp
  | declare d =>
    cases h : x.stack.current.contains d.name with
    | true => simp [step, misses, Stack.declare, Scope.declare_of_contains _ _ h]
    | false => simp [step, misses, Stack.declare, Scope.declare_lenient _ h]
  | reserveInternal ty =>
    simp [step, misses, Stack.reserveInternal, Scope.reserveInternal_lenient]
  | reserve size => simp [step, misses, Stack.reserve, Except.map]
  | call name c =>
    obtain ⟨p, hp⟩ := exists_call_lenient name c x.stack
    simp [step, misses, hp]
  | foldLevel => simp [step, misses, foldLevel_eq_stop]
  | takeArms label => simp [step, misses, takeArms_eq_stop]
  | current op =>
    rw [misses, ← Scope.Session.step_lenient_eq_error_iff]
    cases h : x.innermost.step .lenient op <;> simp [step, h]
  | _ => simp [step, misses]

theorem step_strict {x : Session τ α ω} {op : Op τ} (h : x.RoomFor (x.cost op)) :
    x.step .strict op = Mode.strict.stop (x.breach? op) (x.step .lenient op) := by
  obtain ⟨hcounter, hslots⟩ := h
  cases op with
  | declare d =>
    have hroom : x.stack.current.contains d.name = false →
        LawfulAllocator.numbered x.stack.counter + 1 < UInt32.size := by
      intro hc
      simpa [cost, hc] using hcounter
    simp only [step, breach?, Stack.declare, Scope.declare_strict d hroom, Mode.bind_stop]
  | reserveInternal ty =>
    simp only [step, breach?, Stack.reserveInternal, Scope.reserveInternal_strict ty hcounter,
      Mode.bind_stop]
  | reserve size =>
    have hr : x.stack.counter.reserve .strict size =
        Mode.strict.stop (LawfulAllocator.totalBreach? x.stack.counter size)
          (x.stack.counter.reserve .lenient size) := by
      rw [SlotCounter.reserve_lenient]
      exact LawfulAllocator.reserve_strict x.stack.counter size hcounter
    simp only [step, breach?, Stack.reserve, hr, Mode.map_stop, Mode.bind_stop]
  | call name c => simp only [step, breach?, call_strict, Mode.bind_stop]
  | foldLevel => simp only [step, breach?, foldLevel_eq_stop, Mode.bind_stop, Mode.stop_lenient]
  | takeArms label =>
    simp only [step, breach?, takeArms_eq_stop, Mode.bind_stop, Mode.stop_lenient]
  | current op =>
    have hop : x.innermost.step .strict op =
        Mode.strict.stop (x.innermost.breach? op) (x.innermost.step .lenient op) :=
      Scope.Session.step_strict hslots
    simp only [step, breach?, hop, Mode.bind_stop]
  | _ => rfl

/-- Room for what comes after an operation is left when the operation is done. -/
theorem roomFor_of_step {x y : Session τ α ω} {op : Op τ} {r : Reply τ} {n : Nat}
    (h : x.RoomFor (x.cost op + n)) (hs : x.step .lenient op = .ok (r, y)) : y.RoomFor n := by
  suffices hle : LawfulAllocator.numbered y.stack.counter ≤
        LawfulAllocator.numbered x.stack.counter + x.cost op ∧
      LawfulAllocator.numbered y.slots ≤ LawfulAllocator.numbered x.slots + x.cost op by
    simp only [RoomFor] at h ⊢
    omega
  have hsame : LawfulAllocator.numbered x.stack.counter ≤
        LawfulAllocator.numbered x.stack.counter + x.cost op ∧
      LawfulAllocator.numbered x.slots ≤ LawfulAllocator.numbered x.slots + x.cost op :=
    ⟨Nat.le_add_right _ _, Nat.le_add_right _ _⟩
  cases op with
  | closeScope =>
    simp only [step] at hs
    split at hs
    · next hc =>
      cases hs
      obtain ⟨outer, -, ho⟩ := Option.map_eq_some_iff.mp hc
      cases ho
      exact hsame
    · cases hs
      exact hsame
  | declare d =>
    cases hc : x.stack.current.contains d.name with
    | true =>
      simp only [step, Stack.declare, Scope.declare_of_contains _ _ hc, Violation.ok_bind] at hs
      cases hs
      exact hsame
    | false =>
      simp only [step, Stack.declare, Scope.declare_lenient _ hc, Violation.ok_bind] at hs
      cases hs
      refine ⟨?_, hsame.2⟩
      simpa [cost, hc] using
        LawfulAllocator.numbered_next x.stack.counter (Storable.storageSize d.ty)
  | reserveInternal ty =>
    simp only [step, Stack.reserveInternal, Scope.reserveInternal_lenient,
      Violation.ok_bind] at hs
    cases hs
    exact ⟨LawfulAllocator.numbered_next x.stack.counter (Storable.storageSize ty), hsame.2⟩
  | reserve size =>
    simp only [step, Stack.reserve, SlotCounter.reserve_lenient] at hs
    cases hs
    exact ⟨LawfulAllocator.numbered_next x.stack.counter size, hsame.2⟩
  | call name c =>
    obtain ⟨⟨r', t⟩, hp, hq⟩ := Violation.bind_eq_ok_iff.mp hs
    cases hq
    have hc : t.counter = x.stack.counter := counter_call hp
    exact ⟨by simpa only [hc] using hsame.1, hsame.2⟩
  | foldLevel =>
    simp only [step, foldLevel_eq_stop, Mode.stop_lenient, Violation.ok_bind] at hs
    cases hs
    exact hsame
  | takeArms label =>
    simp only [step, takeArms_eq_stop, Mode.stop_lenient, Violation.ok_bind] at hs
    cases hs
    exact hsame
  | current op =>
    obtain ⟨⟨r', z⟩, hp, hq⟩ := Violation.bind_eq_ok_iff.mp hs
    cases hq
    exact ⟨hsame.1, Scope.Session.numbered_step_lenient hp⟩
  | _ =>
    cases hs
    exact hsame

/-- Sessions on a stack, as a system that is followed in both modes. -/
def conduct : Conduct (Session τ α ω) (Op τ) (Reply τ) where
  step mode x op := x.step mode op
  breach? := breach?
  misses := misses
  cost := cost
  RoomFor := RoomFor

theorem lawful_conduct : (conduct : Conduct (Session τ α ω) (Op τ) (Reply τ)).Lawful where
  lenient_eq_error_iff := step_lenient_eq_error_iff
  breach?_of_misses {x op} h := by
    cases op with
    | current op => exact Scope.Session.lawful_conduct.breach?_of_misses h
    | _ => exact absurd h id
  strict_eq_stop h := step_strict h
  roomFor_of_step h hs := roomFor_of_step h hs
  roomFor_of_add {x m n} h := by
    simp only [conduct, RoomFor] at h ⊢
    omega

theorem run_conduct (mode : Mode) (x : Session τ α ω) (ops : List (Op τ)) :
    conduct.run mode x ops = x.run mode ops := rfl

end Session

end Stack

/-- The two modes, with room for the slots a session reserves. A lenient run fails exactly
where an operation on a scope needs a name that is not bound. A strict run gives what
the lenient one gives, for as long as nothing is breached, and stops exactly at the
first breach, with what is breached there. -/
theorem modes_agree_up_to_first_breach [Storable τ] [Allocator α] [LawfulAllocator α] [Sink ω] :
    (∀ (x : Scope.Session τ α ω) (ops : List (Scope.Op τ)),
      LawfulAllocator.numbered x.slots + Scope.Session.conduct.spent x ops < UInt32.size →
        (∀ v, x.run .lenient ops = .error v ↔ v = .unboundName ∧
          ∃ before name c after rs y, ops = before ++ .demand name c :: after ∧
            x.run .lenient before = .ok (rs, y) ∧ y.scope.contains name = false) ∧
        (∀ before after, ops = before ++ after → Scope.Session.conduct.Keeps x before →
          ∃ p, x.run .strict before = .ok p ∧ x.run .lenient before = .ok p) ∧
        (∀ v, x.run .strict ops = .error v ↔ Scope.Session.conduct.FirstBreach x ops v)) ∧
    (∀ (x : Stack.Session τ α ω) (ops : List (Stack.Op τ)),
      x.RoomFor (Stack.Session.conduct.spent x ops) →
        (∀ v, x.run .lenient ops = .error v ↔ v = .unboundName ∧
          ∃ before name c after rs y, ops = before ++ .current (.demand name c) :: after ∧
            x.run .lenient before = .ok (rs, y) ∧ y.stack.current.contains name = false) ∧
        (∀ before after, ops = before ++ after → Stack.Session.conduct.Keeps x before →
          ∃ p, x.run .strict before = .ok p ∧ x.run .lenient before = .ok p) ∧
        (∀ v, x.run .strict ops = .error v ↔ Stack.Session.conduct.FirstBreach x ops v)) := by
  refine ⟨fun x ops hroom ↦ ⟨fun v ↦ ?_, ?_, fun v ↦ ?_⟩,
    fun x ops hroom ↦ ⟨fun v ↦ ?_, ?_, fun v ↦ ?_⟩⟩
  · rw [← Scope.Session.run_conduct, Scope.Session.lawful_conduct.run_lenient_eq_error_iff]
    refine and_congr_right fun _ ↦ ?_
    constructor
    · rintro ⟨before, op, after, rs, y, he, hr, hm⟩
      cases op with
      | demand name c =>
        exact ⟨before, name, c, after, rs, y, he, by rwa [← Scope.Session.run_conduct], hm⟩
      | _ => exact absurd hm id
    · rintro ⟨before, name, c, after, rs, y, he, hr, hm⟩
      exact ⟨before, .demand name c, after, rs, y, he, by rwa [Scope.Session.run_conduct], hm⟩
  · rintro before after rfl hk
    rw [← Scope.Session.run_conduct, ← Scope.Session.run_conduct]
    exact Scope.Session.lawful_conduct.run_strict_of_keeps
      (Scope.Session.lawful_conduct.roomFor_spent_of_append hroom) hk
  · rw [← Scope.Session.run_conduct]
    exact Scope.Session.lawful_conduct.run_strict_eq_error_iff hroom
  · rw [← Stack.Session.run_conduct, Stack.Session.lawful_conduct.run_lenient_eq_error_iff]
    refine and_congr_right fun _ ↦ ?_
    constructor
    · rintro ⟨before, op, after, rs, y, he, hr, hm⟩
      cases op with
      | current op =>
        cases op with
        | demand name c =>
          exact ⟨before, name, c, after, rs, y, he, by rwa [← Stack.Session.run_conduct], hm⟩
        | _ => exact absurd hm id
      | _ => exact absurd hm id
    · rintro ⟨before, name, c, after, rs, y, he, hr, hm⟩
      exact ⟨before, .current (.demand name c), after, rs, y, he,
        by rwa [Stack.Session.run_conduct], hm⟩
  · rintro before after rfl hk
    rw [← Stack.Session.run_conduct, ← Stack.Session.run_conduct]
    exact Stack.Session.lawful_conduct.run_strict_of_keeps
      (Stack.Session.lawful_conduct.roomFor_spent_of_append hroom) hk
  · rw [← Stack.Session.run_conduct]
    exact Stack.Session.lawful_conduct.run_strict_eq_error_iff hroom

/-- A level pushed on a scope and taken back from its one variable: the level of the scope
can then not be popped, and the variable is named. On a stack, a name that is looked up
and not bound stops either mode. -/
theorem modes_part_where_levels_are_out_of_step :
    let d : Declaration Layout := ⟨"x", ⟨1, false⟩, true, default⟩
    let x : Scope.Session Layout SlotCounter Log := .start {} .empty
    let ops : List (Scope.Op Layout) :=
      [.declare d, .pushLevel, .call "x" .takeLevel, .declare d, .foldLevel]
    let y : Stack.Session Layout SlotCounter Log := .start {} {} .empty
    let moves : List (Stack.Op Layout) := [.pushLevel, .current (.demand "x" .read)]
    LawfulAllocator.numbered x.slots + Scope.Session.conduct.spent x ops < UInt32.size ∧
      x.run .strict ops = .error (.basePop "x") ∧ (∃ p, x.run .lenient ops = .ok p) ∧
      y.RoomFor (Stack.Session.conduct.spent y moves) ∧
      y.run .lenient moves = .error .unboundName := by
  intro d x ops y moves
  have hx : LawfulAllocator.numbered x.slots + Scope.Session.conduct.spent x ops <
      UInt32.size := by decide
  have hy : y.RoomFor (Stack.Session.conduct.spent y moves) := by constructor <;> decide
  have hk : Scope.Session.conduct.Keeps x [.declare d, .pushLevel, .call "x" .takeLevel,
      .declare d] := by
    refine .cons rfl fun r y h ↦ ?_
    cases h
    refine .cons rfl fun r y h ↦ ?_
    cases h
    refine .cons rfl fun r y h ↦ ?_
    cases h
    exact .cons rfl fun r y h ↦ .nil
  refine ⟨hx, ?_, ⟨_, rfl⟩, hy, ?_⟩
  · exact ((modes_agree_up_to_first_breach.1 x ops hx).2.2 (.basePop "x")).mpr
      ⟨_, .foldLevel, [], _, _, rfl, hk, rfl, rfl⟩
  · exact ((modes_agree_up_to_first_breach.2 y moves hy).1 .unboundName).mpr
      ⟨rfl, [.pushLevel], "x", .read, [], _, _, rfl, rfl, rfl⟩

end DefiniteAssignment
