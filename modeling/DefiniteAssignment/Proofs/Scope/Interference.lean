import DefiniteAssignment.Proofs.Scope.Restriction

/-!
# Variables do not interfere

Of a run on a scope all declarations of some names are taken out, and all calls on them.
What is left runs as it did before. After each of its operations the scope is the one there
was, restricted to the other names. What was asked about these names is answered in the same
way, and what was reported about them is reported again, in the same sequence.

What is reported is told here by name: a check says something about a binding, in words that
its caller chose, and the name is that of the binding.
-/

namespace DefiniteAssignment.Scope

variable {τ α ω : Type}

/-- The name that an operation is about, if it is about one alone. -/
def Op.subject? : Op τ → Option String
  | .declare d | .declareAt d _ _ => some d.name
  | .contains name | .call name _ | .demand name _ => some name
  | _ => none

/-- An operation on all variables, or on one whose name is in the set. -/
def Op.concerns (N : String → Bool) (op : Op τ) : Bool := op.subject?.all N

/-- An operation that takes no storage from an allocator, and has nothing to say but about
bindings. -/
def Op.isPlain : Op τ → Bool
  | .declare _ | .reserveInternal _ | .report _ => false
  | _ => true

/-- What is answered where only the names in a set are seen, and `n` reports are made. -/
def Reply.restrict (N : String → Bool) (n : Nat) : Reply τ → Reply τ
  | .arm a => .arm (a.restrict N)
  | .counted _ => .counted n
  | r => r

/-- One operation of a run, and what came of it. -/
structure Turn (τ : Type) where
  op : Op τ
  reply : Reply τ
  /-- What was reported, each with the name of the binding. -/
  told : List (String × Report)
  /-- The scope after the operation. -/
  scope : Scope τ

/-- A turn as it is where only the names in a set are seen. -/
def Turn.restrict (N : String → Bool) (t : Turn τ) : Turn τ where
  op := t.op
  reply := t.reply.restrict N (t.told.filter fun p ↦ N p.1).length
  told := t.told.filter fun p ↦ N p.1
  scope := t.scope.restrict N

namespace Session

variable [Storable τ]

/-- What an operation reports, each with the name of the binding it is about. -/
def told (x : Session τ α ω) : Op τ → List (String × Report)
  | .checkAll span kindOf =>
    (x.scope.bindings.filter Variable.lacksValue).map fun v ↦
      (v.name, .error ⟨kindOf v.name, span⟩)
  | .recommend =>
    (x.scope.bindings.filter Variable.couldBeFrozen).map fun v ↦
      (v.name, .warning ⟨.neverMutated v.name, v.span⟩)
  | _ => []

/-- A session in which only the names in a set are left, with a sink of its own. -/
def restrict (N : String → Bool) (x : Session τ α ω) (sink : ω) : Session τ α ω :=
  ⟨x.scope.restrict N, x.slots, x.shelf.restrict N, sink⟩

variable [Allocator α] [Sink ω]

/-- The turns of a run, up to where it stops. -/
def turns (mode : Mode) : Session τ α ω → List (Op τ) → List (Turn τ)
  | _, [] => []
  | x, op :: ops =>
    match x.step mode op with
    | .ok (r, y) => ⟨op, r, x.told op, y.scope⟩ :: y.turns mode ops
    | .error _ => []

section
variable {N : String → Bool} {mode : Mode} {x y : Session τ α ω} {op : Op τ} {r : Reply τ}

omit [Allocator α] [Sink ω] in
/-- Nothing is reported by an operation on one variable. -/
theorem told_of_concerns_eq_false (x : Session τ α ω) (h : op.concerns N = false) :
    x.told op = [] := by
  cases op with
  | checkAll | recommend => cases h
  | _ => rfl

omit [Allocator α] [Sink ω] in
theorem told_restrict (x : Session τ α ω) (sink : ω) (op : Op τ) :
    (x.restrict N sink).told op = (x.told op).filter fun p ↦ N p.1 := by
  cases op with
  | checkAll | recommend =>
    simp only [told, restrict, Scope.restrict, List.filter_map, List.filter_filter,
      Function.comp_def, Bool.and_comm]
  | _ => rfl

/-- What is told goes to the sink. -/
theorem sink_of_step (hop : op.isPlain) (h : x.step mode op = .ok (r, y)) :
    y.sink = emitAll x.sink ((x.told op).map (·.2)) := by
  cases op with
  | declare | reserveInternal | report => cases hop
  | declareAt =>
    simp only [step] at h
    split at h <;> cases h <;> rfl
  | call | demand | foldLevel | takeArm =>
    obtain ⟨p, -, h⟩ := Violation.bind_eq_ok_iff.mp h
    cases h
    rfl
  | checkAll span kindOf =>
    cases h
    simp [uninitialized, told, Function.comp_def]
  | recommend =>
    cases h
    simp [Scope.recommend, unmutated, told, Function.comp_def]
  | contains | setAll | pushLevel | joinArms =>
    cases h
    rfl

/-- What only the names in a set are told of an operation. -/
abbrev toldOf (N : String → Bool) (x : Session τ α ω) (op : Op τ) : List (String × Report) :=
  (x.told op).filter fun p ↦ N p.1

/-! ## One operation -/

/-- An operation on a name outside of the set is not seen. -/
theorem restrict_of_step (hop : op.isPlain) (hN : op.concerns N = false)
    (h : x.step mode op = .ok (r, y)) (sink : ω) : y.restrict N sink = x.restrict N sink := by
  cases op with
  | declare | reserveInternal | report => cases hop
  | declareAt d slot inherited =>
    simp only [step] at h
    split at h
    · next t ht =>
      cases h
      rw [restrict, restrict_of_declareAt hN ht]
      rfl
    · cases h
      rfl
  | contains =>
    cases h
    rfl
  | call name c =>
    obtain ⟨⟨q, t⟩, hp, h⟩ := Violation.bind_eq_ok_iff.mp h
    cases h
    rw [restrict, restrict_of_call hN hp]
    rfl
  | demand name c =>
    obtain ⟨⟨q, t⟩, hp, h⟩ := Violation.bind_eq_ok_iff.mp h
    cases h
    rw [restrict, restrict_of_call hN (call_of_demand hp)]
    rfl
  | setAll | pushLevel | foldLevel | takeArm | joinArms | checkAll | recommend => cases hN

/-- Any other operation does and answers the same where only these names are left. -/
theorem step_restrict (hop : op.isPlain) (hN : op.concerns N)
    (h : x.step mode op = .ok (r, y)) (sink : ω) :
    (x.restrict N sink).step mode op =
      .ok (r.restrict N (x.toldOf N op).length,
        y.restrict N (emitAll sink ((x.toldOf N op).map (·.2)))) := by
  cases op with
  | declare | reserveInternal | report => cases hop
  | declareAt d slot inherited =>
    simp only [step] at h ⊢
    rw [restrict, declareAt_restrict hN]
    split at h
    · next t ht =>
      cases h
      rw [ht]
      rfl
    · next e he =>
      cases h
      rw [he]
      rfl
  | contains name =>
    cases h
    simp only [step, restrict, contains_restrict x.scope hN]
    rfl
  | call name c =>
    obtain ⟨⟨q, t⟩, hp, h⟩ := Violation.bind_eq_ok_iff.mp h
    cases h
    rw [step, restrict, call_restrict hN hp]
    cases q <;> rfl
  | demand name c =>
    obtain ⟨⟨q, t⟩, hp, h⟩ := Violation.bind_eq_ok_iff.mp h
    cases h
    rw [step, restrict, demand_restrict hN hp]
    rfl
  | setAll initial =>
    cases h
    rw [step, restrict, ← restrict_setAll]
    rfl
  | pushLevel =>
    cases h
    rw [step, restrict, ← restrict_pushLevel]
    rfl
  | foldLevel =>
    obtain ⟨t, ht, h⟩ := Violation.bind_eq_ok_iff.mp h
    cases h
    rw [step, restrict, foldLevel_restrict ht]
    rfl
  | takeArm label =>
    obtain ⟨⟨arm, t⟩, ht, h⟩ := Violation.bind_eq_ok_iff.mp h
    cases h
    rw [step, restrict, takeArm_restrict ht]
    rfl
  | joinArms refs exhaustive =>
    cases h
    have harms : refs.map (x.shelf.restrict N).arm = (refs.map x.shelf.arm).map (·.restrict N) := by
      rw [List.map_map]
      exact List.map_congr_left fun ref _ ↦ x.shelf.arm_restrict ref
    rw [step, restrict, harms, ← restrict_joinArms]
    rfl
  | checkAll span kindOf =>
    cases h
    rw [toldOf, ← told_restrict x sink]
    simp [step, Scope.checkAll, uninitialized, told, restrict, Reply.restrict, Function.comp_def]
  | recommend =>
    cases h
    rw [toldOf, ← told_restrict x sink]
    simp [step, Scope.recommend, unmutated, told, restrict, Reply.restrict, Function.comp_def]

/-! ## Runs -/

theorem turns_cons (h : x.step mode op = .ok (r, y)) (ops : List (Op τ)) :
    x.turns mode (op :: ops) = ⟨op, r, x.told op, y.scope⟩ :: y.turns mode ops := by
  rw [turns, h]

/-- The turns of a run say what it answers and what it reports. -/
theorem eq_turns_of_run {ops : List (Op τ)} {rs : List (Reply τ)} (hops : ∀ op ∈ ops, op.isPlain)
    (h : x.run mode ops = .ok (rs, y)) :
    rs = (x.turns mode ops).map (·.reply) ∧
      y.sink = emitAll x.sink (((x.turns mode ops).flatMap (·.told)).map (·.2)) := by
  induction ops generalizing x rs with
  | nil =>
    cases h
    exact ⟨rfl, rfl⟩
  | cons op ops ih =>
    obtain ⟨r, z, qs, hstep, hrun, rfl⟩ := run_cons_eq_ok_iff.mp h
    obtain ⟨hreplies, hsink⟩ := ih (fun o ho ↦ hops o (List.mem_cons_of_mem op ho)) hrun
    rw [turns_cons hstep]
    constructor
    · rw [List.map_cons, ← hreplies]
    · rw [hsink, sink_of_step (hops op List.mem_cons_self) hstep, List.flatMap_cons,
        List.map_append, emitAll_append]

/-- The turns that are left of a run where only the names in a set are left. -/
def kept (N : String → Bool) (ts : List (Turn τ)) : List (Turn τ) :=
  (ts.filter fun t ↦ t.op.concerns N).map (·.restrict N)

omit [Storable τ] in
theorem kept_cons (N : String → Bool) (t : Turn τ) (ts : List (Turn τ)) :
    kept N (t :: ts) = if t.op.concerns N then t.restrict N :: kept N ts else kept N ts := by
  rw [kept, List.filter_cons]
  split <;> rfl

/-- What is told in the turns that are left is what was told about the names in the set. -/
theorem flatMap_told_kept {ops : List (Op τ)} {rs : List (Reply τ)}
    (h : x.run mode ops = .ok (rs, y)) :
    (kept N (x.turns mode ops)).flatMap (·.told) =
      ((x.turns mode ops).flatMap (·.told)).filter fun p ↦ N p.1 := by
  induction ops generalizing x rs with
  | nil => rfl
  | cons op ops ih =>
    obtain ⟨r, z, qs, hstep, hrun, rfl⟩ := run_cons_eq_ok_iff.mp h
    rw [turns_cons hstep, kept_cons, List.flatMap_cons, List.filter_append, ← ih hrun]
    cases hN : op.concerns N with
    | true => rfl
    | false =>
      rw [told_of_concerns_eq_false x hN]
      rfl

/-- A run goes through where only the names in a set are left, turn by turn. -/
theorem run_restrict {ops : List (Op τ)} {rs : List (Reply τ)} (hops : ∀ op ∈ ops, op.isPlain)
    (h : x.run mode ops = .ok (rs, y)) (sink : ω) :
    ∃ qs out, (x.restrict N sink).run mode (ops.filter (·.concerns N)) =
        .ok (qs, y.restrict N out) ∧
      (x.restrict N sink).turns mode (ops.filter (·.concerns N)) =
        kept N (x.turns mode ops) := by
  induction ops generalizing x rs sink with
  | nil =>
    cases h
    exact ⟨[], sink, rfl, rfl⟩
  | cons op ops ih =>
    obtain ⟨r, z, qs, hstep, hrun, rfl⟩ := run_cons_eq_ok_iff.mp h
    have hop : op.isPlain := hops op List.mem_cons_self
    have hrest := fun out ↦ ih (fun o ho ↦ hops o (List.mem_cons_of_mem op ho)) hrun out
    rw [turns_cons hstep, kept_cons]
    cases hN : op.concerns N with
    | true =>
      have hleft := step_restrict hop hN hstep sink
      obtain ⟨qs, out, hqs, hturns⟩ := hrest (emitAll sink ((x.toldOf N op).map (·.2)))
      rw [List.filter_cons_of_pos hN, turns_cons hleft, hturns, told_restrict]
      exact ⟨_, out, run_cons_eq_ok_iff.mpr ⟨_, _, qs, hleft, hqs, rfl⟩, rfl⟩
    | false =>
      have hdrop : ¬op.concerns N := Bool.not_eq_true _ ▸ hN
      obtain ⟨qs, out, hqs, hturns⟩ := hrest sink
      rw [List.filter_cons_of_neg hdrop, ← restrict_of_step hop hN hstep sink]
      exact ⟨qs, out, hqs, hturns⟩

end

end Session

/-- Variables do not interfere. Take a run on a scope opened with any number of levels, and any
set of names. With all declarations of other names and all calls on them taken out, the run
goes through. Each of its turns is what the turn was: the same operation with the same answer,
which is restricted to the names in the set where an arm was taken or reports were counted, the
same reports about these names, and after it the scope restricted to them. So is the last scope,
and the sink gets the reports about these names in the sequence in which they were made. What
becomes of a variable is therefore the same in any two runs that agree on what they do to it and
to all variables. -/
theorem variables_do_not_interfere [Storable τ] [Allocator α] [Sink ω] (mode : Mode)
    (depth : Nat) (slots : α) (sink : ω) :
    let x : Session τ α ω := ⟨.opened depth, slots, .empty, sink⟩
    (∀ (N : String → Bool) (ops : List (Op τ)) (rs : List (Reply τ)) (y : Session τ α ω),
      (∀ op ∈ ops, op.isPlain) → x.run mode ops = .ok (rs, y) →
        let turns := x.turns mode ops
        let kept := (turns.filter fun t ↦ t.op.concerns N).map (·.restrict N)
        let told := turns.flatMap (·.told)
        rs = turns.map (·.reply) ∧ y.sink = emitAll sink (told.map (·.2)) ∧
        ∃ z, x.run mode (ops.filter (·.concerns N)) = .ok (kept.map (·.reply), z) ∧
          x.turns mode (ops.filter (·.concerns N)) = kept ∧
          z.scope = y.scope.restrict N ∧
          z.sink = emitAll sink ((told.filter fun p ↦ N p.1).map (·.2))) ∧
    ∀ (name : String) (ops ops' : List (Op τ)) (rs rs' : List (Reply τ)) (y y' : Session τ α ω),
      (∀ op ∈ ops, op.isPlain) → (∀ op ∈ ops', op.isPlain) →
      x.run mode ops = .ok (rs, y) → x.run mode ops' = .ok (rs', y') →
        ops.filter (·.concerns (· == name)) = ops'.filter (·.concerns (· == name)) →
          y.scope.find? name = y'.scope.find? name := by
  intro x
  have hx (N : String → Bool) : x.restrict N sink = x := rfl
  constructor
  · intro N ops rs y hops h turns kept told
    obtain ⟨hreplies, hsink⟩ := Session.eq_turns_of_run hops h
    refine ⟨hreplies, hsink, ?_⟩
    -- The start is its own restriction, so the run that is left starts from it too.
    obtain ⟨qs, out, hqs, hturns⟩ := Session.run_restrict (N := N) hops h sink
    rw [hx] at hqs hturns
    have hplain : ∀ op ∈ ops.filter (·.concerns N), op.isPlain := fun op hop ↦
      hops op (List.mem_of_mem_filter hop)
    obtain ⟨hkept, hout⟩ := Session.eq_turns_of_run hplain hqs
    rw [hturns] at hkept hout
    rw [Session.flatMap_told_kept h] at hout
    rw [hkept] at hqs
    exact ⟨y.restrict N out, hqs, hturns, rfl, hout⟩
  · intro name ops ops' rs rs' y y' hops hops' h h' heq
    obtain ⟨qs, out, hqs, -⟩ := Session.run_restrict (N := (· == name)) hops h sink
    obtain ⟨qs', out', hqs', -⟩ := Session.run_restrict (N := (· == name)) hops' h' sink
    rw [hx, heq] at hqs
    rw [hx, hqs] at hqs'
    have hscope : y.scope.restrict (· == name) = y'.scope.restrict (· == name) :=
      congrArg (·.scope) (Prod.mk.inj (Except.ok.inj hqs')).2
    have hfind (s : Scope τ) : (s.restrict (· == name)).find? name = s.find? name :=
      find?_restrict s (beq_self_eq_true name)
    rw [← hfind, hscope, hfind]

/-- Two variables that are given values under one arm, are joined with it, and could both be
frozen. Without one of them the other has the same levels, and one warning is left. -/
theorem neighbour_does_not_interfere :
    let d (name : String) : Declaration Layout := ⟨name, ⟨1, false⟩, false, default⟩
    let ops : List (Op Layout) :=
      [.declareAt (d "y") ⟨0⟩ false, .declareAt (d "x") ⟨1⟩ false, .pushLevel,
        .call "y" (.define 1), .call "x" (.define 2), .takeArm "arm",
        .joinArms [.kept "arm" 0] true, .recommend]
    let alone : List (Op Layout) :=
      [.declareAt (d "x") ⟨1⟩ false, .pushLevel, .call "x" (.define 2), .takeArm "arm",
        .joinArms [.kept "arm" 0] true, .recommend]
    let x : Session Layout SlotCounter Log := ⟨.opened 0, {}, .empty, .empty⟩
    (∀ op ∈ ops, op.isPlain) ∧ (∀ op ∈ alone, op.isPlain) ∧
      ops.filter (·.concerns (· == "x")) = alone ∧
      ∃ rs y qs z, x.run .strict ops = .ok (rs, y) ∧ x.run .strict alone = .ok (qs, z) ∧
        z.scope = y.scope.restrict (· == "x") ∧ y.scope.find? "x" = z.scope.find? "x" ∧
        y.scope.current "x" = some 2 ∧ y.sink.warnings.length = 2 ∧ z.sink.warnings.length = 1 := by
  intro d ops alone x
  have hops : ∀ op ∈ ops, op.isPlain := by decide
  have halone : ∀ op ∈ alone, op.isPlain := by decide
  have hfilter : ops.filter (·.concerns (· == "x")) = alone := rfl
  obtain ⟨rs, y, hy, hcurrent, hwarnings⟩ : ∃ rs y, x.run .strict ops = .ok (rs, y) ∧
      y.scope.current "x" = some 2 ∧ y.sink.warnings.length = 2 := ⟨_, _, rfl, rfl, rfl⟩
  obtain ⟨qs, z, hz, hwarning⟩ : ∃ qs z, x.run .strict alone = .ok (qs, z) ∧
      z.sink.warnings.length = 1 := ⟨_, _, rfl, rfl⟩
  obtain ⟨hrestrict, hfind⟩ :=
    variables_do_not_interfere (τ := Layout) .strict 0 ({} : SlotCounter) Log.empty
  obtain ⟨-, -, w, hw, -, hscope, -⟩ := hrestrict (· == "x") ops rs y hops hy
  rw [hfilter, hz] at hw
  cases hw
  exact ⟨hops, halone, hfilter, rs, y, _, z, hy, hz, hscope,
    hfind "x" ops alone rs _ y z hops halone hy hz rfl, hcurrent, hwarnings, hwarning⟩

end DefiniteAssignment.Scope
