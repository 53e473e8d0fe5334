import DefiniteAssignment.Proofs.Scope.Twins
import DefiniteAssignment.Proofs.Stack.Turns
import Mathlib.Data.List.Induction

/-!
# Every binding is judged once

A scope is judged when it closes: when it is the innermost one and is closed by itself, or with
all that are open when the unit is finished. What is said then does not depend on how the scope
came to be closed, but on its history alone.

The chronicle of a run is made of the histories of all scopes that were ever opened. Each turn
adds an event to the history of one scope at most, so nothing that happens is told of two scopes
or of none, also where names are shadowed. The verdicts on these histories, in the order in which
the scopes are closed, are all that is ever reported.
-/

namespace DefiniteAssignment

variable {τ α ω : Type}

/-! ## Verdicts -/

/-- What is said of a scope that closes. -/
def Config.due (config : Config) (s : Scope τ) : List Warning :=
  if config.recommendFrozen then s.unmutated else []

namespace Stack

/-- Whichever sink is at hand, it gets what is due for the scope. -/
theorem judge_eq_emitAll [Sink ω] (config : Config) (sink : ω) (s : Scope τ) :
    judge config sink s = emitAll sink ((config.due s).map .warning) := by
  rw [judge, Config.due]
  cases config.recommendFrozen <;> rfl

theorem foldl_judge_eq_emitAll [Sink ω] (config : Config) (ss : List (Scope τ)) (sink : ω) :
    ss.foldl (judge config) sink = emitAll sink ((ss.flatMap config.due).map .warning) := by
  induction ss generalizing sink with
  | nil => rfl
  | cons s ss ih =>
    rw [List.foldl_cons, ih, judge_eq_emitAll, List.flatMap_cons, List.map_append, emitAll_append]

theorem judge_eq (config : Config) (log : Log) (s : Scope τ) :
    judge config log s = ⟨log.errors, log.warnings ++ config.due s⟩ :=
  (judge_eq_emitAll config log s).trans (log.emitAll_warnings (config.due s))

theorem foldl_judge (config : Config) (ss : List (Scope τ)) (log : Log) :
    ss.foldl (judge config) log = ⟨log.errors, log.warnings ++ ss.flatMap config.due⟩ :=
  (foldl_judge_eq_emitAll config ss log).trans (log.emitAll_warnings (ss.flatMap config.due))

/-! ## Chronicles -/

/-- An operation that reports something besides the verdicts. -/
def Op.speaks : Op τ → Bool
  | .report _ => true
  | .current op => op.speaks
  | _ => false

/-- An operation that opens a scope or closes one. -/
def Op.nests : Op τ → Bool
  | .openScope | .closeScope => true
  | _ => false

/-- The event that a turn is, and the place of the scope in whose history it belongs. -/
def Turn.event? (t : Turn τ α ω) : Option (Nat × Scope.Event τ) :=
  match t.op, t.reply with
  | .declare d, .done => some (t.before.stack.enclosing.length, .declared d)
  | .call name c, .variable q =>
    (t.before.stack.place? name).bind fun place ↦
      ((t.before.stack.find? name).bind (Scope.Event.called? name c q)).map (place, ·)
  | .current op, .current r =>
    (t.before.stack.current.event? op r).map (t.before.stack.enclosing.length, ·)
  | _, _ => none

/-- The histories of all scopes. -/
structure Chronicle (τ : Type) where
  /-- Of those that were closed, in the order in which they were. -/
  closed : List (List (Scope.Event τ)) := []
  /-- Of those that are open, the root first. -/
  opened : List (List (Scope.Event τ)) := [[]]

namespace Chronicle

/-- Adds an event to the history of the scope at a place. -/
def add (c : Chronicle τ) : Option (Nat × Scope.Event τ) → Chronicle τ
  | some (place, e) => { c with opened := c.opened.modify place (· ++ [e]) }
  | none => c

def note (c : Chronicle τ) (t : Turn τ α ω) : Chronicle τ :=
  match t.op, t.reply with
  | .openScope, _ => { c with opened := c.opened ++ [[]] }
  | .closeScope, .closed _ => ⟨c.closed ++ c.opened.getLast?.toList, c.opened.dropLast⟩
  | _, _ => c.add t.event?

end Chronicle

def chronicle (ts : List (Turn τ α ω)) : Chronicle τ := ts.foldl Chronicle.note {}

theorem chronicle_concat (ts : List (Turn τ α ω)) (t : Turn τ α ω) :
    chronicle (ts ++ [t]) = (chronicle ts).note t := by
  rw [chronicle, List.foldl_concat, ← chronicle]

/-! ## One turn -/

/-- What an event makes of the ledgers of all scopes. -/
inductive Enters : Option (Nat × Scope.Event τ) → List (Scope.Ledger τ) →
    List (Scope.Ledger τ) → Prop
  | nothing (ls : List (Scope.Ledger τ)) : Enters none ls ls
  | event {place : Nat} {e : Scope.Event τ} {ls : List (Scope.Ledger τ)} {l l' : Scope.Ledger τ}
      (hl : ls[place]? = some l) (he : Scope.Event.Enters (some e) l l') :
      Enters (some (place, e)) ls (ls.set place l')

theorem enters_of_set {s t : Stack τ} {place : Nat} {b c : Scope τ} {e : Option (Scope.Event τ)}
    (hb : s.scopes[place]? = some b) (ht : t.scopes = s.scopes.set place c)
    (he : Scope.Event.Enters e b.ledger c.ledger) :
    Enters (e.map (place, ·)) (s.scopes.map Scope.ledger) (t.scopes.map Scope.ledger) := by
  rw [ht]
  cases e with
  | none =>
    rw [map_set_of_eq hb he.eq_of_none]
    exact .nothing _
  | some e =>
    rw [List.map_set]
    refine .event ?_ he
    rw [List.getElem?_map, hb, Option.map_some]

theorem enters_of_current {s t : Stack τ} {e : Option (Scope.Event τ)}
    (ht : t.enclosing = s.enclosing)
    (he : Scope.Event.Enters e s.current.ledger t.current.ledger) :
    Enters (e.map (s.enclosing.length, ·)) (s.scopes.map Scope.ledger)
      (t.scopes.map Scope.ledger) := by
  refine enters_of_set (b := s.current) ?_ ?_ he
  · rw [scopes, List.getElem?_concat_length]
  · rw [scopes, scopes, ht, List.set_append_right _ _ (Nat.le_refl _), Nat.sub_self]
    rfl

namespace Chronicle

variable {c : Chronicle τ} {e : Option (Nat × Scope.Event τ)} {ls ls' : List (Scope.Ledger τ)}

theorem note_eq_add {x y : Session τ α ω} {op : Op τ} {r : Reply τ} (hop : op.nests = false) :
    c.note ⟨x, op, r, y⟩ = c.add (Turn.mk x op r y).event? := by
  cases op with
  | openScope | closeScope => cases hop
  | _ => rfl

@[simp] theorem closed_add : (c.add e).closed = c.closed := by
  cases e <;> rfl

theorem tells_add (h : c.opened.Forall₂ Scope.Tells ls) (he : Enters e ls ls') :
    (c.add e).opened.Forall₂ Scope.Tells ls' := by
  cases he with
  | nothing => exact h
  | event hl he => exact forall₂_modify_set h hl fun _ htells ↦ htells.enter he

theorem perm_add (h : c.opened.Forall₂ Scope.Tells ls) (he : Enters e ls ls') :
    (c.add e).opened.flatten.Perm (c.opened.flatten ++ (e.map Prod.snd).toList) := by
  cases he with
  | nothing => rw [Option.map_none, Option.toList_none, List.append_nil, add]
  | event hl he =>
    obtain ⟨hlt, -⟩ := List.getElem?_eq_some_iff.mp hl
    exact perm_flatten_modify (h.length_eq ▸ hlt) _

end Chronicle

/-- What only the opening and closing of scopes and reports change. -/
structure Turn.Quiet (t : Turn τ α ω) : Prop where
  config : t.after.stack.config = t.before.stack.config
  sink : t.after.sink = t.before.sink
  closed : t.closed? = none

namespace Session

section
variable [Storable τ] [Allocator α] [Sink ω] {mode : Mode} {x y : Session τ α ω} {op : Op τ}
  {r : Reply τ}

theorem quiet_of_step (hnests : op.nests = false) (hspeaks : op.speaks = false)
    (h : x.step mode op = .ok (r, y)) : (Turn.mk x op r y).Quiet := by
  cases op with
  | openScope | closeScope => cases hnests
  | report => cases hspeaks
  | declare d =>
    rcases declare_cases h with ⟨-, rfl, rfl⟩ | ⟨-, rfl, haround, -⟩
    · exact ⟨rfl, rfl, rfl⟩
    · exact ⟨haround.config, haround.sink, rfl⟩
  | reserveInternal ty =>
    obtain ⟨haround, slot, total, rfl, -⟩ := reserveInternal_eq_ok h
    exact ⟨haround.config, haround.sink, rfl⟩
  | reserve size =>
    obtain ⟨haround, -, slot, rfl, -⟩ := reserve_eq_ok h
    exact ⟨haround.config, haround.sink, rfl⟩
  | call name c =>
    have hconfig := (shares_of_step rfl h).config
    obtain ⟨⟨q, t⟩, -, h⟩ := Violation.bind_eq_ok_iff.mp h
    cases h
    cases q <;> exact ⟨hconfig, rfl, rfl⟩
  | pushLevel | joinArms =>
    have hsame := map_scopes_of_isRegional Scope.overlooks_ledger rfl h
    cases h
    exact ⟨hsame.2.2.1, hsame.2.2.2, rfl⟩
  | foldLevel | takeArms =>
    have hsame := map_scopes_of_isRegional Scope.overlooks_ledger rfl h
    obtain ⟨p, -, h⟩ := Violation.bind_eq_ok_iff.mp h
    cases h
    exact ⟨hsame.2.2.1, hsame.2.2.2, rfl⟩
  | current op =>
    obtain ⟨⟨q, z⟩, hz, h⟩ := Violation.bind_eq_ok_iff.mp h
    cases h
    exact ⟨rfl, Scope.Session.sink_of_speaks_eq_false hspeaks hz, rfl⟩

/-- A turn changes the ledgers as its event does. -/
theorem enters_of_step (hs : ∀ s ∈ x.stack.scopes, s.names.Nodup) (hnests : op.nests = false)
    (h : x.step mode op = .ok (r, y)) : Enters (Turn.mk x op r y).event?
      (x.stack.scopes.map Scope.ledger) (y.stack.scopes.map Scope.ledger) := by
  cases op with
  | openScope | closeScope => cases hnests
  | declare d =>
    rcases declare_cases h with
      ⟨-, rfl, rfl⟩ | ⟨hc, rfl, haround, slot, total, -, -, hcurrent⟩
    · exact .nothing _
    · refine enters_of_current (e := some (.declared d)) haround.enclosing ?_
      rw [hcurrent]
      exact Scope.enters_bind hc slot false total
  | reserveInternal ty =>
    obtain ⟨haround, slot, total, rfl, -, -, hcurrent⟩ := reserveInternal_eq_ok h
    refine enters_of_current (e := none) haround.enclosing ?_
    rw [hcurrent]
    exact .nothing _
  | reserve size =>
    obtain ⟨haround, hcurrent, slot, rfl, -⟩ := reserve_eq_ok h
    refine enters_of_current (e := none) haround.enclosing ?_
    rw [hcurrent]
    exact .nothing _
  | call name c =>
    obtain ⟨⟨q, t⟩, ht, h⟩ := Violation.bind_eq_ok_iff.mp h
    cases h
    rcases call_eq_ok ht with
      ⟨-, rfl, rfl⟩ | ⟨place, b, v, w, q, hplace, hb, hfind, hv, hw, rfl, -, hscopes⟩
    · exact .nothing _
    · have hevent : (Turn.mk x (.call name c) (.variable q) { x with stack := t }).event? =
          (Scope.Event.called? name c q v).map (place, ·) := by
        simp only [Turn.event?, hplace, hfind, Option.bind_some]
      rw [Option.elim_some, hevent]
      exact enters_of_set hb hscopes (Scope.enters_set (hs b (List.mem_of_getElem? hb)) hv hw)
  | pushLevel | joinArms =>
    rw [(map_scopes_of_isRegional Scope.overlooks_ledger rfl h).1]
    cases h
    exact .nothing _
  | foldLevel | takeArms =>
    rw [(map_scopes_of_isRegional Scope.overlooks_ledger rfl h).1]
    obtain ⟨p, -, h⟩ := Violation.bind_eq_ok_iff.mp h
    cases h
    exact .nothing _
  | current op =>
    obtain ⟨⟨q, z⟩, hz, h⟩ := Violation.bind_eq_ok_iff.mp h
    cases h
    have hcurrent : x.innermost.scope.names.Nodup :=
      hs x.stack.current (List.mem_append_right _ (List.mem_singleton_self _))
    exact enters_of_current rfl (Scope.Session.enters_of_step hcurrent hz)
  | report =>
    cases h
    exact .nothing _

end

/-! ## A whole run -/

section
variable [Storable τ] [Allocator α] {mode : Mode} {config : Config} {ts : List (Turn τ α Log)}
  {x y : Session τ α Log} {op : Op τ} {r : Reply τ}

/-- The chronicle tells of every scope that was opened, and nothing was reported but what was due
for those that were closed. -/
structure Chronicled (config : Config) (ts : List (Turn τ α Log)) (x : Session τ α Log) : Prop where
  configured : x.stack.config = config
  closed : (chronicle ts).closed.Forall₂ Scope.Tells
    ((ts.filterMap Turn.closed?).map Scope.ledger)
  opened : (chronicle ts).opened.Forall₂ Scope.Tells (x.stack.scopes.map Scope.ledger)
  events : ((chronicle ts).closed.flatten ++ (chronicle ts).opened.flatten).Perm
    ((ts.filterMap Turn.event?).map Prod.snd)
  sink : x.sink = ⟨[], (ts.filterMap Turn.closed?).flatMap config.due⟩

omit [Storable τ] [Allocator α] in
theorem chronicled_start (config : Config) (slots : α) (shelf : Shelf) :
    Chronicled (τ := τ) config [] ⟨.start config, slots, shelf, .empty⟩ where
  configured := rfl
  closed := .nil
  opened := .cons (Scope.tells_opened 0) .nil
  events := .nil
  sink := rfl

omit [Storable τ] [Allocator α] in
/-- A turn that opens no scope and closes none adds its event. -/
theorem Chronicled.enter {t : Turn τ α Log} (h : Chronicled config ts t.before) (ht : t.Quiet)
    (hnote : (chronicle ts).note t = (chronicle ts).add t.event?)
    (he : Enters t.event? (t.before.stack.scopes.map Scope.ledger)
      (t.after.stack.scopes.map Scope.ledger)) : Chronicled config (ts ++ [t]) t.after := by
  have hchronicle : chronicle (ts ++ [t]) = (chronicle ts).add t.event? :=
    (chronicle_concat ts t).trans hnote
  have hclosed : (ts ++ [t]).filterMap Turn.closed? = ts.filterMap Turn.closed? :=
    filterMap_concat_of_none ts ht.closed
  constructor
  · exact ht.config.trans h.configured
  · rw [hchronicle, hclosed, Chronicle.closed_add]
    exact h.closed
  · rw [hchronicle]
    exact Chronicle.tells_add h.opened he
  · rw [hchronicle, Chronicle.closed_add, filterMap_concat, List.map_append, ← Option.toList_map]
    refine ((Chronicle.perm_add h.opened he).append_left _).trans ?_
    rw [← List.append_assoc]
    exact h.events.append_right _
  · rw [hclosed, ht.sink]
    exact h.sink

theorem Chronicled.openScope (h : Chronicled config ts x)
    (hstep : x.step mode .openScope = .ok (r, y)) :
    Chronicled config (ts ++ [⟨x, .openScope, r, y⟩]) y := by
  have hchronicle : chronicle (ts ++ [Turn.mk x .openScope r y]) =
      { chronicle ts with opened := (chronicle ts).opened ++ [[]] } := chronicle_concat ts _
  cases hstep
  constructor
  · exact h.configured
  · rw [hchronicle, filterMap_concat_of_none ts rfl]
    exact h.closed
  · rw [hchronicle, scopes_openScope, List.map_append]
    exact List.rel_append h.opened (.cons (Scope.tells_opened x.stack.depth) .nil)
  · rw [hchronicle, filterMap_concat_of_none ts rfl, List.flatten_concat, List.append_nil]
    exact h.events
  · rw [filterMap_concat_of_none ts rfl]
    exact h.sink

/-- The history of a scope that closes is closed with it, and its verdict is given. -/
theorem Chronicled.closeScope (h : Chronicled config ts x)
    (hstep : x.step mode .closeScope = .ok (r, y)) :
    Chronicled config (ts ++ [⟨x, .closeScope, r, y⟩]) y := by
  rcases closeScope_cases hstep with ⟨-, rfl, rfl⟩ | ⟨rfl, hscopes, -, hconfig, hsink⟩
  · exact h.enter ⟨rfl, rfl, rfl⟩ rfl (.nothing _)
  · have hopened := h.opened
    rw [scopes, List.map_append, List.map_singleton] at hopened
    obtain ⟨outer, inner, heq, houter, hinner⟩ := exists_of_forall₂_concat hopened
    have hchronicle : chronicle (ts ++ [Turn.mk x .closeScope (.closed x.stack.current) y]) =
        ⟨(chronicle ts).closed ++ [inner], outer⟩ := by
      rw [chronicle_concat, Chronicle.note, heq, List.getLast?_concat, List.dropLast_concat]
      rfl
    have hclosed : (ts ++ [Turn.mk x .closeScope (.closed x.stack.current) y]).filterMap
        Turn.closed? = ts.filterMap Turn.closed? ++ [x.stack.current] := filterMap_concat _ ts _
    have hevents := h.events
    rw [heq, List.flatten_concat] at hevents
    constructor
    · exact hconfig.trans h.configured
    · rw [hchronicle, hclosed, List.map_append]
      exact List.rel_append h.closed (.cons hinner .nil)
    · rw [hchronicle, hscopes]
      exact houter
    · rw [hchronicle, filterMap_concat_of_none ts rfl, List.flatten_concat, List.append_assoc]
      exact (List.perm_append_comm.append_left _).trans hevents
    · rw [hsink, h.configured, h.sink, judge_eq, hclosed, List.flatMap_append,
        List.flatMap_singleton]

theorem Chronicled.step (h : Chronicled config ts x) (hs : ∀ s ∈ x.stack.scopes, s.names.Nodup)
    (hop : op.speaks = false) (hstep : x.step mode op = .ok (r, y)) :
    Chronicled config (ts ++ [⟨x, op, r, y⟩]) y := by
  cases hnests : op.nests with
  | false =>
    exact h.enter (quiet_of_step hnests hop hstep) (Chronicle.note_eq_add hnests)
      (enters_of_step hs hnests hstep)
  | true =>
    cases op with
    | openScope => exact h.openScope hstep
    | closeScope => exact h.closeScope hstep
    | _ => cases hnests

theorem Chronicled.of_run {slots : α} {shelf : Shelf} {ops : List (Op τ)} {rs : List (Reply τ)}
    (hops : ∀ op ∈ ops, op.speaks = false)
    (hrun : (Session.mk (.start config) slots shelf Log.empty).run mode ops = .ok (rs, y)) :
    Chronicled config ((Session.mk (.start config) slots shelf Log.empty).turns mode ops) y := by
  -- The chronicle grows at its end, so the last operation is the one to set apart.
  induction ops using List.reverseRecOn generalizing rs y with
  | nil =>
    cases hrun
    exact chronicled_start config slots shelf
  | append_singleton ops op ih =>
    obtain ⟨qs, z, r, hbefore, hstep, rfl⟩ := run_concat_eq_ok_iff.mp hrun
    have hz := ih (fun op' hop' ↦ hops op' (List.mem_append_left _ hop')) hbefore
    have hs : ∀ s ∈ z.stack.scopes, s.names.Nodup := fun s hs ↦
      (((Arises.start config).of_run hbefore).scopes s hs).wellKept.nodup
    rw [turns_concat hbefore hstep]
    exact hz.step hs (hops op (List.mem_append_right _ (List.mem_singleton_self op))) hstep

end

end Session

theorem head?_scopes (s : Stack τ) : s.scopes.head? = some s.root := by
  rw [scopes, root]
  cases s.enclosing <;> rfl

/-- What is due for scopes are the verdicts on their histories. -/
theorem flatMap_due_of_tells (config : Config) {hs : List (List (Scope.Event τ))}
    {ss : List (Scope τ)} (h : hs.Forall₂ Scope.Tells (ss.map Scope.ledger)) :
    ss.flatMap config.due = if config.recommendFrozen then hs.flatMap Scope.verdict else [] := by
  have hdue : (ss.map Scope.ledger).map Scope.due = hs.map Scope.verdict :=
    map_eq_of_forall₂ (fun _ _ htells ↦ htells.due_eq) h
  cases hrecommend : config.recommendFrozen with
  | false => simp [Config.due, hrecommend]
  | true =>
    have heach : config.due = Scope.due ∘ (Scope.ledger (τ := τ)) := by
      funext s
      exact (if_pos hrecommend).trans s.unmutated_eq_due
    rw [if_pos rfl, heach, List.flatMap_def, List.flatMap_def, ← hdue, List.map_map]

/-- Every binding is judged once, when its scope closes. Take a run of a stack in which nothing
is reported besides the verdicts, and finish the unit after it. Each scope that was ever opened
has a history, in which its bindings were declared in their order, and each event of the run
belongs to one of the histories. The warnings are those that are due for the histories, scope by
scope in the order of closing: first those that were closed in the run, then those that were
still open, from the innermost one to the root. There are none if they are not asked for, and
there are no errors. The root is handed back in the end. If it is asked to close before, it stays,
and nothing is reported. -/
theorem every_binding_is_judged_once [Storable τ] [Allocator α] (mode : Mode) (config : Config)
    (slots : α) (shelf : Shelf) {ops : List (Op τ)} {rs : List (Reply τ)} {y : Session τ α Log} :
    let x : Session τ α Log := ⟨.start config, slots, shelf, .empty⟩
    let turns := x.turns mode ops
    (∀ op ∈ ops, op.speaks = false) → x.run mode ops = .ok (rs, y) →
      let histories := (chronicle turns).closed ++ (chronicle turns).opened.reverse
      let scopes := turns.filterMap Turn.closed? ++ y.stack.scopes.reverse
      let out := y.stack.finish y.sink
      histories.map (·.filterMap Scope.Event.declaration?) =
        scopes.map (fun s ↦ s.bindings.map (·.toDeclaration)) ∧
      histories.flatten.Perm ((turns.filterMap Turn.event?).map Prod.snd) ∧
      out.2.warnings =
        (if config.recommendFrozen then histories.flatMap Scope.verdict else []) ∧
      out.2.errors = [] ∧ y.stack.scopes.head? = some out.1 ∧
      (y.stack.enclosing = [] → y.step mode .closeScope = .ok (.atRoot, y)) := by
  intro x turns hops hrun histories scopes out
  have h : Session.Chronicled config turns y := Session.Chronicled.of_run hops hrun
  have htells : histories.Forall₂ Scope.Tells (scopes.map Scope.ledger) := by
    rw [List.map_append, List.map_reverse]
    exact List.rel_append h.closed (List.rel_reverse h.opened)
  have hout : out.2 = ⟨[], scopes.flatMap config.due⟩ := by
    change y.stack.scopes.reverse.foldl (judge y.stack.config) y.sink = _
    rw [h.configured, foldl_judge, h.sink, List.flatMap_append]
  refine ⟨?_, ?_, ?_, ?_, head?_scopes y.stack, fun hroot ↦ ?_⟩
  · rw [← map_eq_of_forall₂ (fun _ _ hl ↦ hl.declarations_eq) htells, List.map_map]
    refine List.map_congr_left fun s _ ↦ ?_
    rw [Function.comp_apply, Scope.ledger, List.map_map]
    rfl
  · refine List.Perm.trans ?_ h.events
    rw [List.flatten_append]
    exact (List.reverse_perm _).flatten.append_left _
  · rw [hout, flatMap_due_of_tells config htells]
  · rw [hout]
  · rw [Session.step, (closeScope?_eq_none_iff y.stack y.sink).mpr hroot]

/-- Two variables of one name, and a third declaration of it that is refused. The inner one is
assigned after its value was taken from it, which is no mutation. The outer one is mutated from
within another scope, which the end of the unit finds open. -/
theorem shadowed_bindings_are_judged_once :
    let d (name : String) (line : Nat) : Declaration Layout :=
      ⟨name, ⟨8, false⟩, false, .point ⟨0, line, 1⟩⟩
    let ops : List (Op Layout) :=
      [.closeScope, .declare (d "x" 1), .call "x" (.define 0), .pushLevel, .openScope,
        .declare (d "x" 2), .declare (d "x" 3), .call "x" (.define 1), .call "x" .undefine,
        .call "x" (.assign 2 default), .closeScope, .foldLevel, .openScope, .declare (d "y" 4),
        .current (.declareAt (d "z" 5) ⟨7⟩ true), .current (.call "z" .markMutated),
        .call "x" (.assign 3 default)]
    let x : Session Layout SlotCounter Log := ⟨.start {}, {}, .empty, .empty⟩
    (∀ op ∈ ops, op.speaks = false) ∧ ∃ rs y, x.run .strict ops = .ok (rs, y) ∧
      rs.head? = some .atRoot ∧ (y.stack.finish y.sink).2.errors = [] ∧
      (y.stack.finish y.sink).2.warnings =
        [⟨.neverMutated "x", .point ⟨0, 2, 1⟩⟩, ⟨.neverMutated "y", .point ⟨0, 4, 1⟩⟩] := by
  intro d ops x
  have hops : ∀ op ∈ ops, op.speaks = false := by decide
  obtain ⟨rs, y, hrun, hroot⟩ : ∃ rs y, x.run .strict ops = .ok (rs, y) ∧
      rs.head? = some .atRoot := ⟨_, _, rfl, rfl⟩
  have hverdicts : ((chronicle (x.turns .strict ops)).closed ++
      (chronicle (x.turns .strict ops)).opened.reverse).flatMap Scope.verdict =
        [⟨.neverMutated "x", .point ⟨0, 2, 1⟩⟩, ⟨.neverMutated "y", .point ⟨0, 4, 1⟩⟩] := by
    decide +kernel
  obtain ⟨-, -, hwarnings, herrors, -, -⟩ :=
    every_binding_is_judged_once .strict {} ({} : SlotCounter) .empty hops hrun
  exact ⟨hops, rs, y, hrun, hroot, herrors, (hwarnings.trans (if_pos rfl)).trans hverdicts⟩

end Stack

end DefiniteAssignment
