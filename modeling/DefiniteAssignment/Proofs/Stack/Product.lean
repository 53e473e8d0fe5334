import DefiniteAssignment.Proofs.Stack.Shares
import Mathlib.Logic.Function.Iterate

/-!
# A stack is a product of scopes

The life of a scope on a stack is told without the stack: how many levels were pushed when
it was opened, and what has fallen to it since. A scope that is left to itself and lives
through the same is in the state in which the stack has it, and answers what the stack
answered. Nothing passes from one scope to another but what a life says: the slots that
were given, and which scope gave a name its meaning.

The lives of the open scopes are followed along a run, place by place. Where no scope was
open before an operation and one is after it, a life begins.
-/

namespace DefiniteAssignment.Stack

variable {τ α ω : Type}

/-- What a scope has lived through since it was opened. -/
structure Life (τ : Type) where
  /-- How many levels were pushed on the stack when the scope was opened. -/
  depth : Nat
  shares : List (Scope.Share τ)
  /-- What the stack answered, as far as it concerns the scope. -/
  answers : List (Scope.Reply τ)

namespace Life

/-- The life of a scope that is opened. -/
def begun (depth : Nat) : Life τ := ⟨depth, [], []⟩

/-- A life goes on. An operation of which nothing falls to the scope leaves no trace. -/
def add (life : Life τ) (share : Option (Scope.Share τ)) (answer : Scope.Reply τ) : Life τ :=
  share.elim life fun share ↦
    { life with shares := life.shares ++ [share], answers := life.answers ++ [answer] }

end Life

variable [Storable τ]

/-! ## A scope on its own -/

/-- Performs shares in order, and collects what the scope answers. -/
def performAll (mode : Mode) (shares : List (Scope.Share τ)) (s : Scope τ) :
    Except Violation (List (Scope.Reply τ) × Scope τ) :=
  runBy (fun s share ↦ share.perform mode s) s shares

/-- A scope on its own, which begins empty with the levels pushed that the stack had, and
lives through the same. -/
def Life.replay (mode : Mode) (life : Life τ) :
    Except Violation (List (Scope.Reply τ) × Scope τ) :=
  performAll mode life.shares (Scope.pushLevel^[life.depth] .empty)

section
variable {mode : Mode}

theorem performAll_concat {shares : List (Scope.Share τ)} {share : Scope.Share τ}
    {s t u : Scope τ} {rs : List (Scope.Reply τ)} {r : Scope.Reply τ}
    (h : performAll mode shares s = .ok (rs, t)) (hshare : share.perform mode t = .ok (r, u)) :
    performAll mode (shares ++ [share]) s = .ok (rs ++ [r], u) :=
  runBy_concat_eq_ok_iff.mpr ⟨rs, t, r, h, hshare, rfl⟩

omit [Storable τ] in
theorem iterate_pushLevel_opened (n depth : Nat) :
    Scope.pushLevel^[n] (.opened depth : Scope τ) = .opened (depth + n) := by
  induction n generalizing depth with
  | zero => rfl
  | succ n ih =>
    have hpush : (.opened depth : Scope τ).pushLevel = .opened (depth + 1) := rfl
    rw [Function.iterate_succ_apply, hpush, ih, Nat.add_assoc, Nat.add_comm 1 n]

/-- A scope that is opened on a stack is like one of its own with the levels of the stack. -/
theorem Life.replay_begun (depth : Nat) :
    (begun depth : Life τ).replay mode = .ok ([], .opened depth) := by
  rw [replay, begun, Scope.empty, iterate_pushLevel_opened, Nat.zero_add]
  rfl

/-- A scope on its own has got to the state `c`, and answered what the stack answered. -/
def Life.Leads (mode : Mode) (life : Life τ) (c : Scope τ) : Prop :=
  life.replay mode = .ok (life.answers, c)

theorem Life.Leads.add {life : Life τ} {c d : Scope τ} {share : Option (Scope.Share τ)}
    {answer : Scope.Reply τ} (h : life.Leads mode c)
    (hshare : share.elim (d = c) fun share ↦ share.perform mode c = .ok (answer, d)) :
    (life.add share answer).Leads mode d := by
  cases share with
  | none =>
    rw [Option.elim_none] at hshare
    rw [hshare]
    exact h
  | some share => exact performAll_concat h hshare

end

namespace Session

/-! ## Lives along a run -/

/-- The lives of the open scopes after an operation. -/
def livesAfter (x : Session τ α ω) (lives : List (Life τ)) (op : Op τ) (r : Reply τ)
    (y : Session τ α ω) : List (Life τ) :=
  y.stack.scopes.mapIdx fun place _ ↦
    lives[place]?.elim (.begun x.stack.depth) fun life ↦
      life.add (x.shareAt place op) (r.answerAt place)

/-- Every open scope is where its life leads. -/
structure Lived (mode : Mode) (x : Session τ α ω) (lives : List (Life τ)) : Prop where
  length : lives.length = x.stack.scopes.length
  leads {place : Nat} {c : Scope τ} {life : Life τ} : x.stack.scopes[place]? = some c →
    lives[place]? = some life → life.Leads mode c

variable [Allocator α] [Sink ω]

/-- The lives of the open scopes after operations. -/
def lives (mode : Mode) : Session τ α ω → List (Life τ) → List (Op τ) → List (Life τ)
  | _, lives, [] => lives
  | x, lives, op :: ops =>
    match x.step mode op with
    | .ok (r, y) => y.lives mode (x.livesAfter lives op r y) ops
    | .error _ => lives

section
variable {mode : Mode} {x y : Session τ α ω} {ls : List (Life τ)}

omit [Allocator α] [Sink ω] in
theorem Lived.exists_life (h : Lived mode x ls) {place : Nat} {c : Scope τ}
    (hc : x.stack.scopes[place]? = some c) :
    ∃ life, ls[place]? = some life ∧ life.Leads mode c := by
  obtain ⟨hlt, -⟩ := List.getElem?_eq_some_iff.mp hc
  obtain ⟨life, hlife⟩ : ∃ life, ls[place]? = some life :=
    ⟨_, List.getElem?_eq_getElem (h.length ▸ hlt)⟩
  exact ⟨life, hlife, h.leads hc hlife⟩

omit [Allocator α] [Sink ω] in
theorem lived_start (config : Config) (slots : α) (shelf : Shelf) (sink : ω) :
    Lived mode (mk (.start config) slots shelf sink) [Life.begun (τ := τ) 0] where
  length := rfl
  leads {place c life} hc hlife := by
    cases place with
    | zero =>
      cases hc
      cases hlife
      exact Life.replay_begun 0
    | succ place => cases hlife

theorem Lived.of_step {op : Op τ} {r : Reply τ} (h : Lived mode x ls)
    (hop : op.isDirect = false) (hstep : x.step mode op = .ok (r, y)) :
    Lived mode y (x.livesAfter ls op r y) where
  length := List.length_mapIdx
  leads {place d life} hd hlife := by
    have hshares := shares_of_step hop hstep
    rw [livesAfter, List.getElem?_mapIdx, hd] at hlife
    cases hlife
    cases hc : x.stack.scopes[place]? with
    | none =>
      -- A life begins, whatever life ended at this place before.
      obtain ⟨-, rfl⟩ := hshares.opened hc hd
      rw [List.getElem?_eq_none (h.length ▸ List.getElem?_eq_none_iff.mp hc)]
      exact Life.replay_begun x.stack.depth
    | some c =>
      obtain ⟨life, hlife, hleads⟩ := h.exists_life hc
      rw [hlife]
      exact hleads.add (hshares.perform hc hd)

theorem Lived.of_run {ops : List (Op τ)} {rs : List (Reply τ)} (h : Lived mode x ls)
    (hops : ∀ op ∈ ops, op.isDirect = false) (hrun : x.run mode ops = .ok (rs, y)) :
    Lived mode y (x.lives mode ls ops) := by
  induction ops generalizing x ls rs with
  | nil =>
    cases hrun
    exact h
  | cons op ops ih =>
    obtain ⟨r, z, qs, hstep, hrest, rfl⟩ := run_cons_eq_ok_iff.mp hrun
    rw [lives, hstep]
    exact ih (h.of_step (hops op List.mem_cons_self) hstep)
      (fun o ho ↦ hops o (List.mem_cons_of_mem op ho)) hrest

end

end Session

/-- A stack is the product of its scopes. At any point of a run that leaves the direct work
on the innermost scope aside, each open scope is in the state that a scope on its own gets
to that begins empty with the levels that were pushed when the scope was opened, and then
performs what fell to it: the declarations and slots made while it was innermost, the calls
on names that it gave their meaning, every level pushed or popped, and every join with the
arms at its place. On the way it answers what the stack answered. An arm taken next has one
entry for each scope, which is the one the scope gives on its own. Any arms may lie on the
shelf to begin with. -/
theorem product_of_scopes [Allocator α] [Sink ω] (mode : Mode) (config : Config) (slots : α)
    (shelf : Shelf) (sink : ω) (ops : List (Op τ)) (rs : List (Reply τ)) (y : Session τ α ω)
    (hops : ∀ op ∈ ops, op.isDirect = false)
    (hrun : (Session.mk (start config) slots shelf sink).run mode ops = .ok (rs, y)) :
    let lives := (Session.mk (start config) slots shelf sink).lives mode [.begun 0] ops
    lives.length = y.stack.scopes.length ∧
    (∀ (place : Nat) (c : Scope τ), y.stack.scopes[place]? = some c →
      ∃ life : Life τ, lives[place]? = some life ∧
        life.replay mode = .ok (life.answers, c)) ∧
    ∀ label r z, y.step mode (.takeArms label) = .ok (r, z) →
      ∃ arms, r = .arms arms ∧ arms.length = y.stack.scopes.length ∧
        ∀ (place : Nat) (c : Scope τ), y.stack.scopes[place]? = some c →
          ∃ arm d, arms[place]? = some arm ∧ z.stack.scopes[place]? = some d ∧
            c.takeArm mode = .ok (arm, d) := by
  intro lives
  have hlived : Session.Lived mode y lives :=
    (Session.lived_start config slots shelf sink).of_run hops hrun
  exact ⟨hlived.length, fun place c ↦ hlived.exists_life,
    fun label r z ↦ Session.arms_of_takeArms⟩

/-- A name bound in the root and, inside a region, in a scope that is open there. Both scopes
take part in the arm and in the join, but only the inner binding is given a value, and of
that nothing falls to the root. -/
theorem shadowed_scopes_live_apart :
    let d : Declaration Layout := ⟨"x", ⟨1, false⟩, true, default⟩
    let ops : List (Op Layout) :=
      [.declare d, .pushLevel, .openScope, .declare d, .pushLevel, .call "x" (.define 1),
        .takeArms "arm", .joinArms [some "arm"] true]
    let x := Session.mk (start {}) ({} : SlotCounter) .empty Log.empty
    let lives := x.lives .strict [.begun 0] ops
    (∀ op ∈ ops, op.isDirect = false) ∧
      (lives.map fun life ↦ (life.depth, life.shares.length)) = [(0, 5), (1, 5)] ∧
      ∃ rs y, x.run .strict ops = .ok (rs, y) ∧
        (y.stack.scopes.map fun c ↦ c.current "x") = [none, some 1] ∧
        ∀ (place : Nat) (c : Scope Layout), y.stack.scopes[place]? = some c →
          ∃ life : Life Layout, lives[place]? = some life ∧
            life.replay .strict = .ok (life.answers, c) := by
  intro d ops x lives
  have hops : ∀ op ∈ ops, op.isDirect = false := by decide
  obtain ⟨rs, y, hrun, hscopes⟩ : ∃ rs y, x.run .strict ops = .ok (rs, y) ∧
      (y.stack.scopes.map fun c ↦ c.current "x") = [none, some 1] := ⟨_, _, rfl, rfl⟩
  have hplaces := (product_of_scopes .strict {} ({} : SlotCounter) .empty Log.empty ops rs y
    hops hrun).2.1
  exact ⟨hops, by decide +kernel, rs, y, hrun, hscopes, hplaces⟩

end DefiniteAssignment.Stack
