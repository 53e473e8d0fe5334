import DefiniteAssignment.Proofs.Stack.Depths
import Mathlib.Data.List.Induction
import Mathlib.Logic.Function.Iterate

/-!
# Inner scopes leave the enclosing ones alone

A part of an analysis that opens a scope and closes it again touches every scope around it:
its levels are pushed on all of them, and its arms are taken from all of them and joined
into all of them. If it pops the levels that it has pushed, joins the arms that it has
taken, and calls on variables that it has declared, then nothing of this is left. A scope
on which levels were pushed and nothing else happened gives the same scope back when they
are popped, in either way. An arm taken from it says what the scope knows already, and so
do all of them together.

So between the opening and the closing each enclosing scope is the scope it was before, with
the levels pushed on it that the part has not popped yet. This is the invariant that is
carried along the part.
-/

namespace DefiniteAssignment

variable {τ α ω : Type}

/-! ## One variable, one scope -/

namespace Variable

/-- A level that says what the one below it says is folded into it without a trace. -/
@[simp] theorem folded_pushLevel (v : Variable τ) : v.pushLevel.folded = v := by
  have hleave : v.pushLevel.folded =
      v.pushLevel.leave (Level.fold v.current v.current) v.enclosing := rfl
  rw [hleave, Level.fold_self, leave_pushLevel]

@[simp] theorem shed_pushLevel (v : Variable τ) : v.pushLevel.shed = v := leave_pushLevel v

@[simp] theorem popBreach?_pushLevel (v : Variable τ) : v.pushLevel.popBreach? = none :=
  popBreach?_of_ne_nil (List.cons_ne_nil v.current v.enclosing)

end Variable

/-- Where none of several regions knows anything, nothing is known after them. -/
theorem Level.meet_eq_none {ls : List Level} (h : ∀ l ∈ ls, l = none) : meet ls = none := by
  cases ls with
  | nil => rfl
  | cons l ls =>
    rw [meet, h l List.mem_cons_self, ite_self]

namespace Scope

section
variable (s : Scope τ)

theorem folded_pushLevel : s.pushLevel.folded = s := by
  simp [folded, pushLevel, Function.comp_def]

theorem shed_pushLevel : s.pushLevel.shed = s := by
  simp [shed, pushLevel, Function.comp_def]

theorem popBreach?_pushLevel : s.pushLevel.popBreach? = none := by
  simp [popBreach?, pushLevel, List.findSome?_eq_none_iff]

theorem knowledge_pushLevel : s.pushLevel.knowledge = s.knowledge := by
  simp only [knowledge, Arm.ofLevels, pushLevel, List.filterMap_map, Function.comp_def,
    Variable.current_pushLevel, Variable.toDeclaration_pushLevel]

theorem foldLevel_pushLevel (mode : Mode) : s.pushLevel.foldLevel mode = .ok s := by
  rw [foldLevel_eq_stop, popBreach?_pushLevel, Mode.stop_none, folded_pushLevel]

theorem takeArm_pushLevel (mode : Mode) :
    s.pushLevel.takeArm mode = .ok (s.knowledge, s) := by
  have hd : s.pushLevel.depth ≠ 0 := Nat.succ_ne_zero s.depth
  rw [takeArm_eq_stop, popBreach?_pushLevel, Mode.stop_none, shed_pushLevel, lastArm, if_neg hd,
    knowledge_pushLevel]

theorem knowledge_iterate_pushLevel (n : Nat) : (pushLevel^[n] s).knowledge = s.knowledge := by
  induction n with
  | zero => rfl
  | succ n ih => rw [Function.iterate_succ_apply', knowledge_pushLevel, ih]

end

theorem InStep.iterate_pushLevel {s : Scope τ} (hs : s.InStep) (n : Nat) :
    (Scope.pushLevel^[n] s).InStep := by
  induction n with
  | zero => exact hs
  | succ n ih =>
    rw [Function.iterate_succ_apply']
    exact ih.pushLevel

/-- Arms that know what the scope knows have nothing to add. -/
theorem InStep.joinArms_eq_self {s : Scope τ} (hs : s.InStep) {arms : List Arm}
    (h : ∀ a ∈ arms, a = s.knowledge) (exhaustive : Bool) : s.joinArms arms exhaustive = s := by
  cases exhaustive with
  | false => rfl
  | true =>
    have hsettle : ∀ v ∈ s.bindings, v.settle (.meet arms) = v := by
      intro v hv
      by_cases hi : v.initialized
      · exact Variable.settle_of_initialized _ hi
      · have hnone : v.current = none := Option.not_isSome_iff_eq_none.mp hi
        have hmeet : (Arm.meet arms).order? v.name = none := by
          rw [Arm.order?_meet]
          apply Level.meet_eq_none
          intro l hl
          obtain ⟨a, ha, rfl⟩ := List.mem_map.mp hl
          rw [h a ha, hs.order?_knowledge, current_of_find? (hs.find?_of_mem hv), hnone]
        simp only [Variable.settle, if_neg hi, hmeet]
    rw [joinArms_true, Scope.mapAll, List.map_congr_left hsettle, List.map_id']

end Scope

namespace Stack

/-! ## Counting -/

/-- Levels that were pushed before do not count against an operation. -/
theorem Op.levels?_add {op : Op τ} {n m : Nat} (h : op.levels? n = some m) (k : Nat) :
    op.levels? (k + n) = some (k + m) := by
  cases op with
  | foldLevel | takeArms =>
    simp only [levels?] at h ⊢
    split at h
    · cases h
    · cases h
      rw [if_neg (by omega)]
      exact congrArg some (by omega)
  | _ =>
    cases h
    rfl

/-- Scopes that were open before do not count against an operation. -/
theorem Op.opened?_add {op : Op τ} {n m : Nat} (h : op.opened? n = some m) (k : Nat) :
    op.opened? (k + n) = some (k + m) := by
  cases op with
  | closeScope =>
    simp only [opened?] at h ⊢
    split at h
    · cases h
    · cases h
      rw [if_neg (by omega)]
      exact congrArg some (by omega)
  | _ =>
    cases h
    rfl

namespace Session

variable {mode : Mode} {x y z : Session τ α ω} {before : List (Op τ)} {k k' j j' : Nat}
  {op : Op τ} {r : Reply τ}

/-! ## The enclosing scopes -/

/-- How the scopes that are open in `x` are found after a part that opened a scope inside
of them. It has `levels` levels of its own pushed, and `opened` more scopes open. -/
structure Apart (x : Session τ α ω) (before : List (Op τ)) (levels opened : Nat)
    (y : Session τ α ω) : Prop where
  config : y.stack.config = x.stack.config
  depth : y.stack.depth = x.stack.depth + levels
  length : y.stack.enclosing.length = x.stack.scopes.length + opened
  scopes {place : Nat} {c : Scope τ} : x.stack.scopes[place]? = some c →
    y.stack.scopes[place]? = some (Scope.pushLevel^[levels] c)
  /-- The arms that were taken say what was known before any of this. -/
  arms {label : String} {place : Nat} {c : Scope τ} : .takeArms label ∈ before →
    x.stack.scopes[place]? = some c → (y.shelf.arms label)[place]? = some c.knowledge

theorem apart_openScope (x : Session τ α ω) :
    Apart x [] 0 0 { x with stack := x.stack.openScope } where
  config := rfl
  depth := rfl
  length := rfl
  scopes {place c} hc := by
    obtain ⟨hlt, -⟩ := List.getElem?_eq_some_iff.mp hc
    rw [scopes_openScope, List.getElem?_append_left hlt, hc]
    rfl
  arms h _ := absurd h List.not_mem_nil

variable [Storable τ]

/-- What falls to an enclosing scope pushes a level on it, or takes back what was pushed. -/
theorem Apart.eq_of_perform (hs : x.stack.InStep) (h : Apart x before k j y)
    (hk : op.levels? k = some k')
    (hjoins : ∀ labels exhaustive, op = .joinArms labels exhaustive →
      ∀ label, some label ∈ labels → .takeArms label ∈ before)
    (hcalls : ∀ name c place, op = .call name c → y.stack.place? name = some place →
      x.stack.scopes.length ≤ place)
    {place : Nat} {c d : Scope τ} (hc : x.stack.scopes[place]? = some c) {a : Scope.Reply τ}
    (hperform : (y.shareAt place op).elim (d = Scope.pushLevel^[k] c) fun share ↦
      share.perform mode (Scope.pushLevel^[k] c) = .ok (a, d)) :
    d = Scope.pushLevel^[k'] c := by
  obtain ⟨hlt, -⟩ := List.getElem?_eq_some_iff.mp hc
  cases op with
  | openScope | closeScope | reserve | current | report =>
    cases hk
    exact hperform
  | declare | reserveInternal =>
    cases hk
    have hplace : place ≠ y.stack.enclosing.length := by
      rw [h.length]
      omega
    rw [shareAt, if_neg hplace] at hperform
    exact hperform
  | call name call =>
    cases hk
    have hmeaning : ¬y.stack.givesMeaning name place := by
      rw [givesMeaning_iff]
      intro hplace
      exact absurd (hcalls name call place rfl hplace) (Nat.not_le.mpr hlt)
    rw [shareAt, if_neg hmeaning] at hperform
    exact hperform
  | pushLevel =>
    cases hk
    cases hperform
    rw [Function.iterate_succ_apply']
  | foldLevel =>
    cases k with
    | zero => cases hk
    | succ k =>
      cases hk
      obtain ⟨t, ht, hd⟩ := Violation.bind_eq_ok_iff.mp hperform
      rw [Function.iterate_succ_apply', Scope.foldLevel_pushLevel] at ht
      cases ht
      cases hd
      rfl
  | takeArms label =>
    cases k with
    | zero => cases hk
    | succ k =>
      cases hk
      obtain ⟨p, hp, hd⟩ := Violation.bind_eq_ok_iff.mp hperform
      rw [Function.iterate_succ_apply', Scope.takeArm_pushLevel] at hp
      cases hp
      cases hd
      rfl
  | joinArms labels exhaustive =>
    cases hk
    cases hperform
    -- Whatever scopes were open when an arm was taken, it has an entry at this place, and the
    -- scope knew then what it knows now.
    apply ((hs.of_getElem? hc).1.iterate_pushLevel k).joinArms_eq_self
    intro arm harm
    obtain ⟨arms, harms, harm⟩ := List.mem_filterMap.mp harm
    obtain ⟨label, hlabel, rfl⟩ := List.mem_map.mp harms
    cases label with
    | none => cases harm
    | some label =>
      have htaken : .takeArms label ∈ before := hjoins labels exhaustive rfl label hlabel
      rw [Option.elim_some, h.arms htaken hc] at harm
      cases harm
      rw [Scope.knowledge_iterate_pushLevel]

variable [Allocator α] [Sink ω]

/-! ## Inside of a scope that closes again -/

theorem advances_of_run {ops : List (Op τ)} {rs : List (Reply τ)}
    (hops : ∀ op ∈ ops, op.isDirect = false) (h : x.run mode ops = .ok (rs, y)) :
    x.stack.counter.Advances mode y.stack.counter :=
  invariant_of_runBy (fun z : Session τ α ω ↦ x.stack.counter.Advances mode z.stack.counter) h
    .refl fun op hop _ _ _ hz hstep ↦ hz.trans (shares_of_step (hops op hop) hstep).counter

/-- An arm taken from an enclosing scope, which has nothing but levels pushed on it. -/
theorem Apart.arms_of_takeArms {label : String} (h : Apart x before (k + 1) j y)
    (hstep : y.step mode (.takeArms label) = .ok (r, z)) {place : Nat} {c : Scope τ}
    (hc : x.stack.scopes[place]? = some c) :
    (z.shelf.arms label)[place]? = some c.knowledge := by
  obtain ⟨arms, rfl, -, hplaces⟩ := Session.arms_of_takeArms hstep
  obtain ⟨arm, d, harm, -, htake⟩ := hplaces place _ (h.scopes hc)
  have hshelf : z.shelf = y.shelf.keep label arms := (shares_of_step rfl hstep).shelf
  rw [Function.iterate_succ_apply', Scope.takeArm_pushLevel] at htake
  cases htake
  rw [hshelf, Shelf.arms_keep_self, harm, Scope.knowledge_iterate_pushLevel]

theorem Apart.of_step (hs : x.stack.InStep) (h : Apart x before k j y)
    (hop : op.isDirect = false) (hk : op.levels? k = some k') (hj : op.opened? j = some j')
    (hjoins : ∀ labels exhaustive, op = .joinArms labels exhaustive →
      ∀ label, some label ∈ labels → .takeArms label ∈ before)
    (hcalls : ∀ name c place, op = .call name c → y.stack.place? name = some place →
      x.stack.scopes.length ≤ place)
    (hstep : y.step mode op = .ok (r, z)) : Apart x (before ++ [op]) k' j' z := by
  have hshares := shares_of_step hop hstep
  have hlength : z.stack.enclosing.length = x.stack.scopes.length + j' := by
    rw [hshares.length, h.length, Op.opened?_add hj, Option.getD_some]
  refine ⟨hshares.config.trans h.config, ?_, hlength, ?_, ?_⟩
  · rw [hshares.depth, h.depth, Op.levels?_add hk, Option.getD_some]
  · intro place c hc
    obtain ⟨hlt, -⟩ := List.getElem?_eq_some_iff.mp hc
    have hopen : place < z.stack.scopes.length := by
      rw [length_scopes, hlength]
      omega
    have hd := List.getElem?_eq_getElem hopen
    rw [hd]
    exact congrArg some (h.eq_of_perform hs hk hjoins hcalls hc
      (hshares.perform (h.scopes hc) hd))
  · intro label place c hlabel hc
    cases op with
    | takeArms other =>
      obtain ⟨n, rfl⟩ : ∃ n, k = n + 1 := by
        cases k with
        | zero => cases hk
        | succ n => exact ⟨n, rfl⟩
      by_cases hother : label = other
      · subst hother
        exact h.arms_of_takeArms hstep hc
      · obtain ⟨arms, rfl, -⟩ := Session.arms_of_takeArms hstep
        have hshelf : z.shelf = y.shelf.keep other arms := hshares.shelf
        rw [hshelf, Shelf.arms_keep_of_ne _ _ hother]
        apply h.arms _ hc
        simpa [hother] using hlabel
    | _ =>
      rw [hshares.shelf]
      apply h.arms _ hc
      simpa using hlabel

/-- A part of an analysis that keeps to the scopes it opens. -/
structure Confined (mode : Mode) (x : Session τ α ω) (body : List (Op τ)) : Prop where
  indirect : ∀ op ∈ body, op.isDirect = false
  /-- No more levels are popped than were pushed, and in the end all of them. -/
  levels : body.foldlM Op.levels? 0 = some 0
  /-- No more scopes are closed than were opened, and in the end all of them. -/
  scopes : body.foldlM Op.opened? 0 = some 0
  /-- Only arms are joined that were taken before. -/
  joins {before after : List (Op τ)} {labels : List (Option String)} {exhaustive : Bool} :
    body = before ++ .joinArms labels exhaustive :: after →
      ∀ label, some label ∈ labels → .takeArms label ∈ before
  /-- A name that is called on has its meaning in a scope that was opened, if it has any. -/
  calls {before after : List (Op τ)} {name : String} {c : Variable.Call} {rs : List (Reply τ)}
      {y : Session τ α ω} {place : Nat} : body = before ++ .call name c :: after →
    x.run mode (.openScope :: before) = .ok (rs, y) → y.stack.place? name = some place →
      x.stack.scopes.length ≤ place

/-- The enclosing scopes stay apart from all that a confined part does. -/
theorem Confined.apart {body : List (Op τ)} (hbody : Confined mode x body)
    (hs : x.stack.InStep) {after : List (Op τ)} (hsplit : body = before ++ after)
    (hk : before.foldlM Op.levels? 0 = some k) (hj : before.foldlM Op.opened? 0 = some j)
    {rs : List (Reply τ)} (hrun : x.run mode (.openScope :: before) = .ok (rs, y)) :
    Apart x before k j y := by
  -- From the end, since labels are looked for in all that was done before an operation.
  induction before using List.reverseRecOn generalizing after k j rs y with
  | nil =>
    obtain ⟨r, z, qs, hstep, hrest, -⟩ := run_cons_eq_ok_iff.mp hrun
    cases hstep
    cases hrest
    cases hk
    cases hj
    exact apart_openScope x
  | append_singleton before op ih =>
    rw [List.foldlM_append] at hk hj
    obtain ⟨n, hn, hk⟩ := Option.bind_eq_some_iff.mp hk
    obtain ⟨m, hm, hj⟩ := Option.bind_eq_some_iff.mp hj
    simp only [List.foldlM_cons, List.foldlM_nil, bind_pure] at hk hj
    rw [← List.cons_append] at hrun
    obtain ⟨qs, w, r, hbefore, hstep, -⟩ := run_concat_eq_ok_iff.mp hrun
    have hsplit' : body = before ++ op :: after := by
      rw [hsplit, List.append_assoc, List.singleton_append]
    have hmem : op ∈ body := by
      rw [hsplit']
      exact List.mem_append_right _ List.mem_cons_self
    apply (ih hsplit' hn hm hbefore).of_step hs (hbody.indirect op hmem) hk hj _ _ hstep
    · rintro labels exhaustive rfl
      exact hbody.joins hsplit'
    · rintro name c place rfl hplace
      exact hbody.calls hsplit' hbefore hplace

/-- Where the enclosing scopes have no levels of a part pushed on them and no scope of it is
open but one, closing that one gives them back. -/
theorem Apart.closeScope (h : Apart x before 0 0 y) (mode : Mode) :
    ∃ inner z, y.step mode .closeScope = .ok (.closed inner, z) ∧
      z.stack = { x.stack with counter := y.stack.counter } := by
  have henclosing : y.stack.enclosing = x.stack.scopes := by
    ext place : 1
    by_cases hplace : place < x.stack.scopes.length
    · have hc := List.getElem?_eq_getElem hplace
      have hlt : place < y.stack.enclosing.length := h.length ▸ hplace
      have houter : y.stack.scopes[place]? = y.stack.enclosing[place]? :=
        List.getElem?_append_left hlt
      rw [← houter]
      exact (h.scopes hc).trans hc.symm
    · rw [List.getElem?_eq_none (h.length ▸ Nat.le_of_not_lt hplace),
        List.getElem?_eq_none (Nat.le_of_not_lt hplace)]
  have hclose : y.stack.closeScope? y.sink =
      some (y.stack.current, { x.stack with counter := y.stack.counter },
        judge y.stack.config y.sink y.stack.current) := by
    rw [closeScope?, henclosing, Stack.scopes, List.getLast?_concat, Option.map_some,
      List.dropLast_concat, h.config, h.depth]
    rfl
  refine ⟨y.stack.current, { y with
    stack := { x.stack with counter := y.stack.counter }
    sink := judge y.stack.config y.sink y.stack.current }, ?_, rfl⟩
  rw [step, hclose]

end Session

/-- Inner scopes leave the enclosing ones alone. On a stack that came about without moving
the levels of one variable or of the innermost scope alone, a scope is opened, and then a part
of an analysis runs that pops the levels it has pushed, closes the scopes it has opened, joins
the arms it has taken, and calls on names that have their meaning in its own scopes. The scope
that was opened can then be closed, and the stack is the one it was before, whatever names were
shadowed and whatever was done under them: the same bindings, with all that is known of them at
every level. Only the counter has gone on, by the slots that were reserved. -/
theorem inner_scopes_are_isolated [Storable τ] [Allocator α] [Sink ω] (mode : Mode)
    (config : Config) (slots : α) (shelf : Shelf) (sink : ω) (ops : List (Op τ))
    (rs : List (Reply τ)) (x : Session τ α ω) (body : List (Op τ)) (qs : List (Reply τ))
    (z : Session τ α ω) (hops : ∀ op ∈ ops, op.movesAlike)
    (hx : (Session.mk (start config) slots shelf sink).run mode ops = .ok (rs, x))
    (hbody : Session.Confined mode x body)
    (hrun : x.run mode (.openScope :: body) = .ok (qs, z)) :
    ∃ inner y, z.step mode .closeScope = .ok (.closed inner, y) ∧
      y.stack = { x.stack with counter := y.stack.counter } ∧
      x.stack.counter.Advances mode y.stack.counter := by
  have hs : x.stack.InStep := ((inStep_start config).of_run hops hx).1
  have hapart : Session.Apart x body 0 0 z :=
    hbody.apart hs (List.append_nil body).symm hbody.levels hbody.scopes hrun
  have hindirect : ∀ op ∈ .openScope :: body, op.isDirect = false := by
    intro op hop
    rcases List.mem_cons.mp hop with rfl | hop
    · rfl
    · exact hbody.indirect op hop
  obtain ⟨inner, y, hclose, hstack⟩ := hapart.closeScope mode
  have hcounter : y.stack.counter = z.stack.counter := by rw [hstack]
  refine ⟨inner, y, hclose, ?_, ?_⟩
  · rw [hcounter]
    exact hstack
  · rw [hcounter]
    exact Session.advances_of_run hindirect hrun

/-- A name is shadowed, and its inner binding given a value under an arm that is taken with
more scopes open than it is joined with. -/
theorem shadowed_binding_is_isolated :
    let d : Declaration Layout := ⟨"x", ⟨1, false⟩, true, default⟩
    let ops : List (Op Layout) := [.declare d, .pushLevel]
    let x : Session Layout SlotCounter Log :=
      ⟨{ current := ⟨[.fresh d ⟨0⟩ false 1], 1, 1⟩, counter := ⟨1, 1⟩, depth := 1 }, {}, .empty,
        .empty⟩
    let body : List (Op Layout) :=
      [.pushLevel, .openScope, .declare d, .call "x" (.define 1), .takeArms "arm", .closeScope,
        .joinArms [some "arm"] true]
    (∀ op ∈ ops, op.movesAlike) ∧
      (∃ rs, (Session.mk (start {}) ({} : SlotCounter) .empty Log.empty).run .strict ops =
        .ok (rs, x)) ∧
      x.Confined .strict body ∧
      ∃ qs z, x.run .strict (.openScope :: body) = .ok (qs, z) ∧
        ∃ inner y, z.step .strict .closeScope = .ok (.closed inner, y) ∧
          y.stack = { x.stack with counter := y.stack.counter } ∧
          x.stack.counter.Advances .strict y.stack.counter := by
  intro d ops x body
  have hops : ∀ op ∈ ops, op.movesAlike := by decide
  obtain ⟨rs, hx⟩ : ∃ rs, (Session.mk (start {}) ({} : SlotCounter) .empty Log.empty).run .strict
      ops = .ok (rs, x) := ⟨_, rfl⟩
  have hbody : x.Confined .strict body :=
    { indirect := by decide
      levels := rfl
      scopes := rfl
      joins := by
        intro before after labels exhaustive h label hlabel
        obtain ⟨rfl, rfl⟩ : before = body.take 6 ∧ labels = [some "arm"] := by
          simp [body, List.cons_eq_append_iff] at h
          exact ⟨h.1, h.2.1.1⟩
        simpa [body] using hlabel
      calls := by
        intro before after name c rs y place h hrun hplace
        obtain ⟨rfl, rfl⟩ : before = body.take 3 ∧ name = "x" := by
          simp [body, List.cons_eq_append_iff] at h
          exact ⟨h.1, h.2.1.1⟩
        cases hrun
        cases hplace
        decide }
  obtain ⟨qs, z, hrun⟩ : ∃ qs z, x.run .strict (.openScope :: body) = .ok (qs, z) := ⟨_, _, rfl⟩
  exact ⟨hops, ⟨rs, hx⟩, hbody, qs, z, hrun, inner_scopes_are_isolated .strict {}
    ({} : SlotCounter) .empty Log.empty ops rs x body qs z hops hx hbody hrun⟩

end Stack

end DefiniteAssignment
