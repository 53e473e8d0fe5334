import DefiniteAssignment.Proofs.Contract.Storage
import DefiniteAssignment.Proofs.Stack.Names
import DefiniteAssignment.Stack.Session
import Mathlib.Logic.Relation

/-!
# What falls to one scope

An operation on a stack is work for some of its scopes: for the innermost one, for the one
that gives a name its meaning, or for all of them. What falls to a scope is its share of
the operation. A share is said without the stack: the slot that was given and the arms that
stand at the place of the scope are part of it, so that a scope on its own can perform it.

The main statement is about one step, whatever the operation. Each scope that stays open
performs its share and nothing else, and what the stack answers is for that scope what it
answers itself. What runs of a stack keep is derived from this.
-/

namespace DefiniteAssignment

variable {τ α ω : Type}

/-- An allocator that was told which slot to give. -/
structure Given where
  slot : SlotId

instance : Allocator Given where
  reserve _ given _ := .ok (given.slot, given)

namespace Scope

/-- What falls to one scope of something that is done to a stack. -/
inductive Share (τ : Type) where
  /-- A declaration, and the slot the variable is given if it is accepted. -/
  | declare (d : Declaration τ) (slot : SlotId)
  | reserveInternal (ty : τ) (slot : SlotId)
  | call (name : String) (c : Variable.Call)
  | pushLevel
  | foldLevel
  | takeArm
  | joinArms (arms : List Arm) (exhaustive : Bool)

namespace Share

variable [Storable τ]

/-- What a scope on its own answers to a share, and the scope after it. -/
def perform (mode : Mode) : Share τ → Scope τ → Except Violation (Reply τ × Scope τ)
  | declare d slot, s => do
    match ← s.declare mode (Given.mk slot) d with
    | .ok (t, _) => .ok (.done, t)
    | .error e => .ok (.refused e, s)
  | reserveInternal ty slot, s => do
    let (given, t, _) ← s.reserveInternal mode (Given.mk slot) ty
    .ok (.slot given, t)
  | call name c, s => do
    let (r, t) ← s.call mode name c
    .ok (r.elim .absent .variable, t)
  | pushLevel, s => .ok (.done, s.pushLevel)
  | foldLevel, s => do
    let t ← s.foldLevel mode
    .ok (.done, t)
  | takeArm, s => do
    let (arm, t) ← s.takeArm mode
    .ok (.arm arm, t)
  | joinArms arms exhaustive, s => .ok (.done, s.joinArms arms exhaustive)

end Share

end Scope

/-! ## Breaches of the whole and of a part -/

/-- Where a loop breaches nothing, none of its elements does. -/
theorem Mode.stop_of_mem {β γ ι : Type} {mode : Mode} {b : ι → Option Violation} {l : List ι}
    {x : Except Violation β} {y : β} (h : mode.stop (l.findSome? b) x = .ok y) {i : ι}
    (hi : i ∈ l) (z : Except Violation γ) : mode.stop (b i) z = z :=
  stop_eq_self h (fun hb ↦ List.findSome?_eq_none_iff.mp hb i hi) z

/-! ## Slots that are told -/

/-- One counter leads to the other by reservations alone. -/
def SlotCounter.Advances (mode : Mode) : SlotCounter → SlotCounter → Prop :=
  Relation.ReflTransGen fun c c' ↦ ∃ size slot, c.reserve mode size = .ok (slot, c')

/-- The slot a counter gives is the one it points to. -/
theorem SlotCounter.slot_of_reserve {mode : Mode} {c c' : SlotCounter} {size : UInt64}
    {slot : SlotId} (h : c.reserve mode size = .ok (slot, c')) : slot = ⟨c.reservedSlots⟩ := by
  rw [reserve_eq_bind] at h
  obtain ⟨slots, -, h⟩ := Violation.bind_eq_ok_iff.mp h
  obtain ⟨total, -, h⟩ := Violation.bind_eq_ok_iff.mp h
  cases h
  rfl

namespace Scope

variable [Storable τ] {mode : Mode} {s t : Scope τ} {counter counter' : SlotCounter}

/-- A declaration that is accepted could as well have been told its slot. -/
theorem declare_told {d : Declaration τ}
    (h : s.declare mode counter d = .ok (.ok (t, counter'))) :
    s.declare mode (Given.mk ⟨counter.reservedSlots⟩) d =
      .ok (.ok (t, Given.mk ⟨counter.reservedSlots⟩)) := by
  obtain ⟨hc, slot, total, hr, htotal, rfl⟩ := charged_of_declare h
  obtain rfl := SlotCounter.slot_of_reserve hr
  simp only [declare, hc, grow, htotal, Allocator.reserve, Violation.ok_bind]
  rfl

/-- Whether a declaration is refused does not depend on the allocator. -/
theorem declare_refused {α' : Type} [Allocator α] [Allocator α'] {slots : α} (slots' : α')
    {d : Declaration τ} {e : Error} (h : s.declare mode slots d = .ok (.error e)) :
    s.declare mode slots' d = .ok (.error e) := by
  obtain ⟨hc, rfl⟩ := declare_eq_refused h
  exact declare_of_contains mode slots' hc

theorem reserveInternal_told {ty : τ} {slot : SlotId}
    (h : s.reserveInternal mode counter ty = .ok (slot, t, counter')) :
    s.reserveInternal mode (Given.mk ⟨counter.reservedSlots⟩) ty =
      .ok (slot, t, Given.mk ⟨counter.reservedSlots⟩) := by
  obtain ⟨total, htotal, hr, rfl⟩ := charged_of_reserveInternal h
  obtain rfl := SlotCounter.slot_of_reserve hr
  simp only [reserveInternal, grow, htotal, Allocator.reserve]
  rfl

theorem advances_of_declare {d : Declaration τ}
    (h : s.declare mode counter d = .ok (.ok (t, counter'))) :
    counter.Advances mode counter' := by
  obtain ⟨-, slot, total, hr, -⟩ := charged_of_declare h
  exact .single ⟨_, _, hr⟩

theorem advances_of_reserveInternal {ty : τ} {slot : SlotId}
    (h : s.reserveInternal mode counter ty = .ok (slot, t, counter')) :
    counter.Advances mode counter' := by
  obtain ⟨total, -, hr, -⟩ := charged_of_reserveInternal h
  exact .single ⟨_, _, hr⟩

end Scope

namespace Stack

/-! ## Whose share it is -/

/-- The scope at a place binds the name, and no scope inside it does. -/
def givesMeaning (s : Stack τ) (name : String) (place : Nat) : Bool :=
  s.scopes[place]?.any (·.contains name) && !(s.scopes.drop (place + 1)).any (·.contains name)

theorem placeInnermost_eq_none_iff {name : String} {scopes : List (Scope τ)} :
    placeInnermost name scopes = none ↔ scopes.any (·.contains name) = false := by
  induction scopes with
  | nil => simp [placeInnermost]
  | cons b inner ih =>
    rw [placeInnermost, List.any_cons, Bool.or_eq_false_iff, ← ih]
    cases placeInnermost name inner with
    | some k => simp
    | none => cases b.contains name <;> simp

theorem placeInnermost_eq_some_iff {name : String} {scopes : List (Scope τ)} {place : Nat} :
    placeInnermost name scopes = some place ↔
      scopes[place]?.any (·.contains name) ∧
        (scopes.drop (place + 1)).any (·.contains name) = false := by
  induction scopes generalizing place with
  | nil => simp [placeInnermost]
  | cons b inner ih =>
    rw [placeInnermost]
    cases place with
    | zero =>
      rw [List.getElem?_cons_zero, Option.any_some, List.drop_succ_cons, List.drop_zero,
        ← placeInnermost_eq_none_iff]
      cases placeInnermost name inner with
      | some k => simp
      | none => cases b.contains name <;> simp
    | succ k =>
      rw [List.getElem?_cons_succ, List.drop_succ_cons, ← ih]
      cases placeInnermost name inner with
      | some j => simp
      | none => cases b.contains name <;> simp

theorem givesMeaning_iff {s : Stack τ} {name : String} {place : Nat} :
    s.givesMeaning name place ↔ s.place? name = some place := by
  rw [place?, placeInnermost_eq_some_iff, givesMeaning, Bool.and_eq_true, Bool.not_eq_true']

theorem config_set (s : Stack τ) (name : String) (v : Variable τ) :
    (s.set name v).config = s.config ∧ (s.set name v).depth = s.depth ∧
      (s.set name v).counter = s.counter := by
  rw [set]
  split <;> exact ⟨rfl, rfl, rfl⟩

/-- An operation on the innermost scope alone. -/
def Op.isDirect : Op τ → Bool
  | .current _ => true
  | _ => false

/-- How many levels are pushed after an operation that finds `n` of them. There is no
answer where a level is popped and none is pushed. -/
def Op.levels? (n : Nat) : Op τ → Option Nat
  | .pushLevel => some (n + 1)
  | .foldLevel | .takeArms _ => if n = 0 then none else some (n - 1)
  | _ => some n

/-- Where no level is pushed, a pop leaves none. -/
theorem Op.getD_levels?_pop (n : Nat) :
    (if n = 0 then none else some (n - 1) : Option Nat).getD n = n - 1 := by
  split
  · next hn => rw [hn, Option.getD_none]
  · rfl

/-- How many scopes are open inside a scope after an operation that finds `n` of them.
There is no answer where the scope itself is asked to close. -/
def Op.opened? (n : Nat) : Op τ → Option Nat
  | .openScope => some (n + 1)
  | .closeScope => if n = 0 then none else some (n - 1)
  | _ => some n

/-- The shelf after an operation that is answered by `r`. Only arms that are taken are kept. -/
def Op.shelfAfter (r : Reply τ) (shelf : Shelf) : Op τ → Shelf
  | .takeArms label =>
    match r with
    | .arms as => shelf.keep label as
    | _ => shelf
  | _ => shelf

/-- What an answer of the stack is for the scope at a place. -/
def Reply.answerAt (place : Nat) : Reply τ → Scope.Reply τ
  | .refused e => .refused e
  | .slot id => .slot id
  | .absent => .absent
  | .variable r => .variable r
  | .arms as => .arm (as[place]?.getD .empty)
  | .current r => r
  | .done | .closed _ | .atRoot => .done

namespace Session

/-- The arms that labels stand for; no label stands for an arm with no scopes. -/
def armsOf (x : Session τ α ω) (labels : List (Option String)) : List (List Arm) :=
  labels.map fun label ↦ label.elim [] x.shelf.arms

/-- What falls to the scope at a place, if anything does. -/
def shareAt (x : Session τ α ω) (place : Nat) : Op τ → Option (Scope.Share τ)
  | .declare d =>
    if place = x.stack.enclosing.length then
      some (.declare d ⟨x.stack.counter.reservedSlots⟩)
    else none
  | .reserveInternal ty =>
    if place = x.stack.enclosing.length then
      some (.reserveInternal ty ⟨x.stack.counter.reservedSlots⟩)
    else none
  | .call name c => if x.stack.givesMeaning name place then some (.call name c) else none
  | .pushLevel => some .pushLevel
  | .foldLevel => some .foldLevel
  | .takeArms _ => some .takeArm
  | .joinArms labels exhaustive => some (.joinArms (armsAt (x.armsOf labels) place) exhaustive)
  | _ => none

variable [Storable τ]

/-- What an operation that is answered by `r` does to a stack and its scopes. -/
structure Shares (mode : Mode) (x : Session τ α ω) (op : Op τ) (r : Reply τ)
    (y : Session τ α ω) : Prop where
  config : y.stack.config = x.stack.config
  depth : y.stack.depth = (op.levels? x.stack.depth).getD x.stack.depth
  length : y.stack.enclosing.length =
    (op.opened? x.stack.enclosing.length).getD x.stack.enclosing.length
  counter : x.stack.counter.Advances mode y.stack.counter
  shelf : y.shelf = op.shelfAfter r x.shelf
  /-- A scope that stays open performs its share. -/
  perform {place : Nat} {c d : Scope τ} : x.stack.scopes[place]? = some c →
    y.stack.scopes[place]? = some d →
      (x.shareAt place op).elim (d = c) fun share ↦
        share.perform mode c = .ok (r.answerAt place, d)
  /-- A scope that was not open was opened just now. -/
  opened {place : Nat} {d : Scope τ} : x.stack.scopes[place]? = none →
    y.stack.scopes[place]? = some d → op = .openScope ∧ d = .opened x.stack.depth

section
variable {mode : Mode} {x y : Session τ α ω} {op : Op τ} {r : Reply τ}

/-- Nothing falls to any scope, and nothing is done to one. -/
theorem shares_of_scopes_eq (hscopes : y.stack.scopes = x.stack.scopes)
    (hconfig : y.stack.config = x.stack.config)
    (hdepth : y.stack.depth = (op.levels? x.stack.depth).getD x.stack.depth)
    (hopened : (op.opened? x.stack.enclosing.length).getD x.stack.enclosing.length =
      x.stack.enclosing.length)
    (hcounter : x.stack.counter.Advances mode y.stack.counter)
    (hshelf : y.shelf = op.shelfAfter r x.shelf)
    (hshare : ∀ place, x.shareAt place op = none) : Shares mode x op r y where
  counter := hcounter
  shelf := hshelf
  config := hconfig
  depth := hdepth
  length := by
    have hlen := congrArg List.length hscopes
    rw [length_scopes, length_scopes] at hlen
    omega
  perform {place c d} hc hd := by
    rw [hscopes, hc] at hd
    rw [hshare]
    exact (Option.some.inj hd).symm
  opened {place d} hc hd := by
    rw [hscopes, hc] at hd
    cases hd

/-- A share falls to the innermost scope alone. -/
theorem shares_of_current (share : Scope.Share τ) (c : Scope τ) (counter : SlotCounter)
    (hstack : y.stack = { x.stack with current := c, counter := counter })
    (hlevels : op.levels? x.stack.depth = some x.stack.depth)
    (hopened : op.opened? x.stack.enclosing.length = some x.stack.enclosing.length)
    (hcounter : x.stack.counter.Advances mode counter)
    (hshelf : y.shelf = op.shelfAfter r x.shelf)
    (hshare : ∀ place, x.shareAt place op =
      if place = x.stack.enclosing.length then some share else none)
    (hperform : ∀ place, share.perform mode x.stack.current = .ok (r.answerAt place, c)) :
    Shares mode x op r y where
  counter := by
    rw [hstack]
    exact hcounter
  shelf := hshelf
  config := by rw [hstack]
  depth := by rw [hstack, hlevels, Option.getD_some]
  length := by rw [hstack, hopened, Option.getD_some]
  perform {place b d} hb hd := by
    rw [hshare]
    rw [hstack, scopes, List.getElem?_append] at hd
    rw [scopes, List.getElem?_append] at hb
    split at hb
    · next hlt =>
      rw [if_pos hlt, hb] at hd
      rw [if_neg (Nat.ne_of_lt hlt)]
      exact (Option.some.inj hd).symm
    · next hlt =>
      rw [if_neg hlt] at hd
      rw [List.getElem?_singleton] at hb hd
      split at hb
      · next hz =>
        rw [if_pos hz] at hd
        cases hb
        cases hd
        rw [if_pos (by omega)]
        exact hperform place
      · cases hb
  opened {place d} hc hd := by
    have hlen := List.getElem?_eq_none_iff.mp hc
    rw [hstack] at hd
    obtain ⟨hlt, -⟩ := List.getElem?_eq_some_iff.mp hd
    rw [length_scopes] at hlen hlt
    exact absurd hlt (Nat.not_lt.mpr hlen)

/-- A share falls to every scope. -/
theorem shares_of_mapIdx (share : Nat → Scope.Share τ) (g : Nat → Scope τ → Scope τ)
    (hscopes : y.stack.scopes = x.stack.scopes.mapIdx g)
    (hconfig : y.stack.config = x.stack.config)
    (hdepth : y.stack.depth = (op.levels? x.stack.depth).getD x.stack.depth)
    (hopened : op.opened? x.stack.enclosing.length = some x.stack.enclosing.length)
    (hcounter : y.stack.counter = x.stack.counter)
    (hshelf : y.shelf = op.shelfAfter r x.shelf)
    (hshare : ∀ place, x.shareAt place op = some (share place))
    (hperform : ∀ place c, x.stack.scopes[place]? = some c →
      (share place).perform mode c = .ok (r.answerAt place, g place c)) :
    Shares mode x op r y where
  counter := by
    rw [hcounter]
    exact .refl
  shelf := hshelf
  config := hconfig
  depth := hdepth
  length := by
    have hlen := congrArg List.length hscopes
    rw [List.length_mapIdx, length_scopes, length_scopes] at hlen
    rw [hopened, Option.getD_some]
    omega
  perform {place c d} hc hd := by
    rw [hscopes, List.getElem?_mapIdx, hc] at hd
    cases hd
    rw [hshare]
    exact hperform place c hc
  opened {place d} hc hd := by
    rw [hscopes, List.getElem?_mapIdx, hc] at hd
    cases hd

end

/-! ## One operation -/

variable [Allocator α] [Sink ω] {mode : Mode} {x y : Session τ α ω} {r : Reply τ}

theorem shares_openScope (h : x.step mode .openScope = .ok (r, y)) :
    Shares mode x .openScope r y := by
  cases h
  refine ⟨rfl, rfl, ?_, .refl, rfl, fun {place c d} hc hd ↦ ?_, fun {place d} hc hd ↦ ?_⟩
  · exact length_scopes x.stack
  · obtain ⟨hlt, -⟩ := List.getElem?_eq_some_iff.mp hc
    rw [scopes_openScope, List.getElem?_append_left hlt, hc] at hd
    exact (Option.some.inj hd).symm
  · rw [scopes_openScope, List.getElem?_append_right (List.getElem?_eq_none_iff.mp hc),
      List.getElem?_singleton] at hd
    split at hd
    · cases hd
      exact ⟨rfl, rfl⟩
    · cases hd

theorem shares_closeScope (h : x.step mode .closeScope = .ok (r, y)) :
    Shares mode x .closeScope r y := by
  simp only [step] at h
  split at h
  · next closed stack sink hclose =>
    cases h
    obtain ⟨outer, hlast, hstack⟩ := Option.map_eq_some_iff.mp hclose
    have hne : x.stack.enclosing.length ≠ 0 := by
      intro hz
      rw [List.eq_nil_of_length_eq_zero hz] at hlast
      cases hlast
    obtain ⟨-, hscopes, hdepth, hcounter⟩ := scopes_of_closeScope? hclose
    refine ⟨by cases hstack; rfl, hdepth, ?_, by rw [hcounter]; exact .refl, rfl,
      fun {place c d} hc hd ↦ ?_, fun {place d} hc hd ↦ ?_⟩
    · have hlen := congrArg List.length hscopes
      rw [length_scopes] at hlen
      rw [Op.opened?, if_neg hne, Option.getD_some, ← hlen, Nat.add_sub_cancel]
    · rw [hscopes] at hd
      obtain ⟨hlt, -⟩ := List.getElem?_eq_some_iff.mp hd
      rw [scopes, List.getElem?_append_left hlt, hd] at hc
      exact Option.some.inj hc
    · rw [hscopes] at hd
      obtain ⟨hlt, -⟩ := List.getElem?_eq_some_iff.mp hd
      rw [scopes, List.getElem?_append_left hlt, hd] at hc
      cases hc
  · next hclose =>
    cases h
    refine shares_of_scopes_eq rfl rfl rfl ?_ .refl rfl fun _ ↦ rfl
    rw [(closeScope?_eq_none_iff _ _).mp hclose]
    rfl

theorem shares_declare {d : Declaration τ} (h : x.step mode (.declare d) = .ok (r, y)) :
    Shares mode x (.declare d) r y := by
  obtain ⟨p, hp, h⟩ := Violation.bind_eq_ok_iff.mp h
  obtain ⟨q, hq, hp⟩ := Violation.bind_eq_ok_iff.mp hp
  cases q with
  | error e =>
    cases hp
    cases h
    refine shares_of_current _ x.stack.current x.stack.counter rfl rfl rfl .refl rfl
      (fun _ ↦ rfl) fun _ ↦ ?_
    rw [Scope.Share.perform, Scope.declare_refused (Given.mk _) hq]
    rfl
  | ok q =>
    cases hp
    cases h
    refine shares_of_current _ q.1 q.2 rfl rfl rfl (Scope.advances_of_declare hq) rfl
      (fun _ ↦ rfl) fun _ ↦ ?_
    rw [Scope.Share.perform, Scope.declare_told hq]
    rfl

theorem shares_reserveInternal {ty : τ} (h : x.step mode (.reserveInternal ty) = .ok (r, y)) :
    Shares mode x (.reserveInternal ty) r y := by
  obtain ⟨p, hp, h⟩ := Violation.bind_eq_ok_iff.mp h
  obtain ⟨⟨slot, c, counter⟩, hq, hp⟩ := Violation.bind_eq_ok_iff.mp hp
  cases hp
  cases h
  refine shares_of_current _ c counter rfl rfl rfl (Scope.advances_of_reserveInternal hq) rfl
    (fun _ ↦ rfl) fun _ ↦ ?_
  rw [Scope.Share.perform, Scope.reserveInternal_told hq]
  rfl

theorem shares_reserve {size : UInt64} (h : x.step mode (.reserve size) = .ok (r, y)) :
    Shares mode x (.reserve size) r y := by
  obtain ⟨p, hp, h⟩ := Violation.bind_eq_ok_iff.mp h
  cases hr : x.stack.counter.reserve mode size with
  | error v =>
    rw [reserve, hr] at hp
    cases hp
  | ok q =>
    rw [reserve, hr] at hp
    cases hp
    cases h
    exact shares_of_scopes_eq rfl rfl rfl rfl (.single ⟨size, q.1, hr⟩) rfl fun _ ↦ rfl

theorem shares_foldLevel (h : x.step mode .foldLevel = .ok (r, y)) :
    Shares mode x .foldLevel r y := by
  obtain ⟨t, ht, h⟩ := Violation.bind_eq_ok_iff.mp h
  cases h
  rw [foldLevel_eq_stop] at ht
  obtain rfl := Mode.eq_of_stop_eq_ok ht
  refine shares_of_mapIdx (fun _ ↦ .foldLevel) (fun _ ↦ .folded) ?_ rfl ?_ rfl rfl rfl
    (fun _ ↦ rfl) fun place c hc ↦ ?_
  · rw [scopes_folded, map_eq_mapIdx]
  · exact (Op.getD_levels?_pop x.stack.depth).symm
  · rw [Scope.Share.perform, Scope.foldLevel_eq_stop,
      Mode.stop_of_mem ht (List.mem_of_getElem? hc)]
    rfl

theorem shares_takeArms {label : String} (h : x.step mode (.takeArms label) = .ok (r, y)) :
    Shares mode x (.takeArms label) r y := by
  obtain ⟨⟨arms, t⟩, ht, h⟩ := Violation.bind_eq_ok_iff.mp h
  cases h
  rw [takeArms_eq_stop] at ht
  cases Mode.eq_of_stop_eq_ok ht
  refine shares_of_mapIdx (fun _ ↦ .takeArm) (fun _ ↦ .shed) ?_ rfl ?_ rfl rfl rfl
    (fun _ ↦ rfl) fun place c hc ↦ ?_
  · rw [scopes_shed, map_eq_mapIdx]
  · exact (Op.getD_levels?_pop x.stack.depth).symm
  · rw [Scope.Share.perform, Scope.takeArm_eq_stop,
      Mode.stop_of_mem ht (List.mem_of_getElem? hc), Reply.answerAt, lastArms,
      List.getElem?_map, hc]
    rfl

/-- Taken arms stand at the places of their scopes, each as the scope gives it. -/
theorem arms_of_takeArms {label : String} {r : Reply τ}
    (h : x.step mode (.takeArms label) = .ok (r, y)) :
    ∃ arms, r = .arms arms ∧ arms.length = x.stack.scopes.length ∧
      ∀ (place : Nat) (c : Scope τ), x.stack.scopes[place]? = some c →
        ∃ arm d, arms[place]? = some arm ∧ y.stack.scopes[place]? = some d ∧
          c.takeArm mode = .ok (arm, d) := by
  obtain ⟨⟨arms, t⟩, ht, h⟩ := Violation.bind_eq_ok_iff.mp h
  cases h
  rw [takeArms_eq_stop] at ht
  cases Mode.eq_of_stop_eq_ok ht
  refine ⟨x.stack.lastArms, rfl, List.length_map _, ?_⟩
  intro place c hc
  refine ⟨c.lastArm, c.shed, ?_, ?_, ?_⟩
  · rw [lastArms, List.getElem?_map, hc]
    rfl
  · rw [scopes_shed, List.getElem?_map, hc]
    rfl
  · rw [Scope.takeArm_eq_stop]
    exact Mode.stop_of_mem ht (List.mem_of_getElem? hc) _

theorem shares_pushLevel (h : x.step mode .pushLevel = .ok (r, y)) :
    Shares mode x .pushLevel r y := by
  cases h
  refine shares_of_mapIdx (fun _ ↦ .pushLevel) (fun _ ↦ .pushLevel) ?_ rfl rfl rfl rfl rfl
    (fun _ ↦ rfl) fun _ _ _ ↦ rfl
  rw [← map_eq_mapIdx]
  exact scopes_pushLevel x.stack

theorem shares_joinArms {labels : List (Option String)} {exhaustive : Bool}
    (h : x.step mode (.joinArms labels exhaustive) = .ok (r, y)) :
    Shares mode x (.joinArms labels exhaustive) r y := by
  cases h
  exact shares_of_mapIdx (fun place ↦ .joinArms (armsAt (x.armsOf labels) place) exhaustive) _
    (scopes_joinArms (x.armsOf labels) exhaustive x.stack) rfl rfl rfl rfl rfl
    (fun _ ↦ rfl) fun _ _ _ ↦ rfl

theorem shares_call {name : String} {c : Variable.Call}
    (h : x.step mode (.call name c) = .ok (r, y)) : Shares mode x (.call name c) r y := by
  obtain ⟨⟨q, t⟩, ht, h⟩ := Violation.bind_eq_ok_iff.mp h
  cases h
  rw [call] at ht
  cases hplace : x.stack.place? name with
  | none =>
    rw [place?_eq_none_iff.mp hplace] at ht
    cases ht
    refine shares_of_scopes_eq rfl rfl rfl rfl .refl rfl fun place ↦ if_neg ?_
    rw [givesMeaning_iff, hplace]
    exact Option.some_ne_none place ∘ Eq.symm
  | some k =>
    obtain ⟨b, hb, hfind, hcontains, hset⟩ := exists_of_place? hplace
    obtain ⟨v, hv⟩ := Option.isSome_iff_exists.mp hcontains
    rw [hfind, hv] at ht
    cases hw : v.call mode c with
    | error e =>
      simp only [hw] at ht
      cases ht
    | ok p =>
      simp only [hw] at ht
      cases ht
      obtain ⟨hconfig, hdepth, hcounter⟩ := config_set x.stack name p.2
      have hget := getElem?_of_set hb (hset p.2)
      refine ⟨hconfig, hdepth, ?_, by rw [hcounter]; exact .refl, rfl,
        fun {place e d} he hd ↦ ?_, fun {place d} he hd ↦ ?_⟩
      · have hlen := congrArg List.length (hset p.2)
        rw [List.length_set, length_scopes, length_scopes] at hlen
        exact Nat.succ.inj hlen
      · rw [hget] at hd
        rw [shareAt]
        by_cases hk : place = k
        · subst hk
          rw [if_pos rfl] at hd
          rw [hb] at he
          cases he
          cases hd
          rw [if_pos (givesMeaning_iff.mpr hplace), Option.elim_some, Scope.Share.perform,
            Scope.call_of_find?_eq_some hv, hw]
          rfl
        · rw [if_neg hk, he] at hd
          have hnot : ¬x.stack.givesMeaning name place := by
            rw [givesMeaning_iff, hplace]
            exact fun hp ↦ hk (Option.some.inj hp).symm
          rw [if_neg hnot]
          exact (Option.some.inj hd).symm
      · rw [hget] at hd
        split at hd
        · next hk =>
          rw [hk, hb] at he
          cases he
        · rw [he] at hd
          cases hd

/-- Each scope that stays open performs its share of an operation, and nothing else. -/
theorem shares_of_step {op : Op τ} (hop : op.isDirect = false)
    (h : x.step mode op = .ok (r, y)) : Shares mode x op r y := by
  cases op with
  | openScope => exact shares_openScope h
  | closeScope => exact shares_closeScope h
  | declare d => exact shares_declare h
  | reserveInternal ty => exact shares_reserveInternal h
  | reserve size => exact shares_reserve h
  | call name c => exact shares_call h
  | pushLevel => exact shares_pushLevel h
  | foldLevel => exact shares_foldLevel h
  | takeArms label => exact shares_takeArms h
  | joinArms labels exhaustive => exact shares_joinArms h
  | current op => cases hop
  | report e =>
    cases h
    exact shares_of_scopes_eq rfl rfl rfl rfl .refl rfl fun _ ↦ rfl

end Session

end Stack

end DefiniteAssignment
