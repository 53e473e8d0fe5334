import DefiniteAssignment.Proofs.Contract.Basic
import DefiniteAssignment.Scope.Basic

/-!
# Flags beside orders

A level can be kept less tightly than as an order that may be missing: as a flag that says whether
there is a value, and beside it an order. The levels of a variable can be kept as a list, of which
nothing says that it is not empty. An arm can be kept as the orders it was told, where some may be
missing, and arms can then be joined with something put in place of a missing order.

Here scopes are worked on in this form. Every operation writes the flag and the order by itself,
and takes levels off a list by itself. Variables that have no level, levels whose flag and order
disagree, and arms that lack an order are all there to be had. That none of them ever comes about
is a matter of how the operations work together, and is shown of all scopes and arms that arise.
-/

namespace DefiniteAssignment

variable {τ : Type}

structure FlaggedLevel where
  initialized : Bool := false
  order : Option Order := none
deriving DecidableEq, Repr

structure FlaggedVariable (τ : Type) extends Declaration τ where
  slot : SlotId
  inherited : Bool := false
  mutated : Bool := false
  /-- The current level first, the base last. -/
  levels : List FlaggedLevel := [{}]
  firstOrder : Option Order := none
deriving DecidableEq, Repr

namespace FlaggedVariable

/-! ## The current level -/

/-- Where there is no level, it counts as one without a value. -/
def top (v : FlaggedVariable τ) : FlaggedLevel := v.levels.headD {}

/-- Overwrites the current level, if there is one. -/
def setTop (l : FlaggedLevel) (v : FlaggedVariable τ) : FlaggedVariable τ :=
  { v with levels := v.levels.modifyHead fun _ ↦ l }

def initialized (v : FlaggedVariable τ) : Bool := v.top.initialized

def define (order : Order) (v : FlaggedVariable τ) : FlaggedVariable τ :=
  { v.setTop { initialized := true, order := some order } with
    firstOrder := if v.firstOrder.isNone then some order else v.firstOrder }

def undefine (v : FlaggedVariable τ) : FlaggedVariable τ :=
  v.setTop { initialized := false, order := none }

def markMutated (v : FlaggedVariable τ) : FlaggedVariable τ := { v with mutated := true }

/-- A frozen variable that has a value refuses another. -/
def assign (order : Order) (v : FlaggedVariable τ) : FlaggedVariable τ :=
  if v.initialized then
    if v.frozen then v else v.markMutated.define order
  else v.define order

/-! ## Levels -/

def pushLevel (v : FlaggedVariable τ) : FlaggedVariable τ := { v with levels := v.top :: v.levels }

/-- A variable as it is when declared with `depth` regions open: its base level is copied once for
each of them. -/
def fresh (d : Declaration τ) (slot : SlotId) (inherited : Bool) (depth : Nat) :
    FlaggedVariable τ :=
  Nat.repeat pushLevel depth { toDeclaration := d, slot := slot, inherited := inherited }

/-- Takes the current level off, unless it is the only one. -/
def popLevel (mode : Mode) (v : FlaggedVariable τ) :
    Except Violation (Option FlaggedLevel × FlaggedVariable τ) :=
  match v.levels with
  | l :: outer :: rest => .ok (some l, { v with levels := outer :: rest })
  | _ => mode.breach (.basePop v.name) (none, v)

/-- Ends a region that always runs. What it learned is kept where nothing was known. -/
def foldLevel (mode : Mode) (v : FlaggedVariable τ) : Except Violation (FlaggedVariable τ) := do
  let (popped, w) ← v.popLevel mode
  match popped with
  | some l => .ok (if l.initialized && !w.initialized then w.setTop l else w)
  | none => .ok w

/-- Ends an arm. The base level is only read. -/
def takeLevel (mode : Mode) (v : FlaggedVariable τ) :
    Except Violation (FlaggedLevel × FlaggedVariable τ) := do
  let (popped, w) ← v.popLevel mode
  .ok (popped.getD w.top, w)

/-- What becomes of a variable that is called. -/
def call (mode : Mode) : Variable.Call → FlaggedVariable τ → Except Violation (FlaggedVariable τ)
  | .read, v | .ensureInitialized _, v => .ok v
  | .define order, v => .ok (v.define order)
  | .undefine, v => .ok v.undefine
  | .markMutated, v => .ok v.markMutated
  | .assign order _, v => .ok (v.assign order)
  | .pushLevel, v => .ok v.pushLevel
  | .foldLevel, v => v.foldLevel mode
  | .takeLevel, v => (v.takeLevel mode).map Prod.snd

end FlaggedVariable

/-- The names an arm was told, each with the order it was told, in the sequence in which the names
were first told. -/
@[ext]
structure FlaggedArm where
  entries : List (String × Option Order) := []
deriving DecidableEq, Repr

namespace FlaggedArm

def isInitialized (a : FlaggedArm) (name : String) : Bool := (a.entries.lookup name).isSome

def order (a : FlaggedArm) (name : String) : Option Order := (a.entries.lookup name).join

/-- Tells an arm a name. A name that it was told before keeps its place. -/
def record (name : String) (order : Option Order) (a : FlaggedArm) : FlaggedArm :=
  if a.isInitialized name then
    ⟨a.entries.map fun e ↦ if e.1 = name then (name, order) else e⟩
  else ⟨a.entries ++ [(name, order)]⟩

/-- The names that all arms were told, with the orders of the first. An order that is missing is
made up. -/
def intersect (fallback : Order) : List FlaggedArm → List (String × Order)
  | [] => []
  | first :: rest =>
    (first.entries.filter fun e ↦ rest.all (·.isInitialized e.1)).map fun e ↦
      (e.1, e.2.getD fallback)

end FlaggedArm

structure FlaggedScope (τ : Type) where
  bindings : List (FlaggedVariable τ) := []
  depth : Nat := 0
deriving DecidableEq, Repr

namespace FlaggedScope

def opened (depth : Nat) : FlaggedScope τ := { depth := depth }

/-! ## Bindings -/

def find? (s : FlaggedScope τ) (name : String) : Option (FlaggedVariable τ) :=
  s.bindings.find? fun v ↦ v.name = name

def contains (s : FlaggedScope τ) (name : String) : Bool := (s.find? name).isSome

def set (s : FlaggedScope τ) (name : String) (v : FlaggedVariable τ) : FlaggedScope τ :=
  { s with bindings := s.bindings.map fun w ↦ if w.name = name then v else w }

def bind (s : FlaggedScope τ) (d : Declaration τ) (slot : SlotId) (inherited : Bool) :
    FlaggedScope τ :=
  { s with bindings := s.bindings ++ [.fresh d slot inherited s.depth] }

/-- What becomes of a scope of which one variable is called. -/
def call (mode : Mode) (name : String) (c : Variable.Call) (s : FlaggedScope τ) :
    Except Violation (FlaggedScope τ) :=
  match s.find? name with
  | none => .ok s
  | some v => (v.call mode c).map (s.set name)

def setAll (initial : Bool) (s : FlaggedScope τ) : FlaggedScope τ :=
  { s with bindings := s.bindings.map fun v ↦ if initial then v.define 0 else v.undefine }

/-! ## Levels -/

def pushLevel (s : FlaggedScope τ) : FlaggedScope τ :=
  { s with bindings := s.bindings.map .pushLevel, depth := s.depth + 1 }

def foldLevel (mode : Mode) (s : FlaggedScope τ) : Except Violation (FlaggedScope τ) :=
  match s.depth with
  | 0 => mode.breach .unbalancedPop s
  | depth + 1 => do
    let bindings ← s.bindings.mapM (·.foldLevel mode)
    .ok { s with bindings := bindings, depth := depth }

/-- Ends an arm for one variable after the other, and tells the arm of each that has a value. -/
def takeAll (mode : Mode) : List (FlaggedVariable τ) → FlaggedArm →
    Except Violation (List (FlaggedVariable τ) × FlaggedArm)
  | [], arm => .ok ([], arm)
  | v :: vs, arm => do
    let (l, w) ← v.takeLevel mode
    let (ws, arm) ← takeAll mode vs (if l.initialized then arm.record v.name l.order else arm)
    .ok (w :: ws, arm)

def takeArm (mode : Mode) (s : FlaggedScope τ) : Except Violation (FlaggedArm × FlaggedScope τ) :=
  match s.depth with
  | 0 => mode.breach .unbalancedPop ({}, s)
  | depth + 1 => do
    let (bindings, arm) ← takeAll mode s.bindings {}
    .ok (arm, { s with bindings := bindings, depth := depth })

/-- Gives a value to the variable of a name, if it is bound and has none. -/
def learn (s : FlaggedScope τ) (e : String × Order) : FlaggedScope τ :=
  match s.find? e.1 with
  | none => s
  | some v => if v.initialized then s else s.set e.1 (v.define e.2)

def joinArms (fallback : Order) (arms : List FlaggedArm) (exhaustive : Bool) (s : FlaggedScope τ) :
    FlaggedScope τ :=
  if exhaustive then (FlaggedArm.intersect fallback arms).foldl learn s else s

end FlaggedScope

/-! ## What comes about -/

/-- A scope, or an arm that is kept. -/
inductive Flagged (τ : Type) where
  | scope (s : FlaggedScope τ)
  | arm (a : FlaggedArm)

/-- Scopes and arms that come about in any way. A scope is opened with some regions open. It is
worked on in either mode, its variables may be called in any way, and any arms that came about may
be joined in it. Arms are taken from scopes, or initialize nothing. -/
inductive Flagged.Arises : Flagged τ → Prop
  | opened (depth : Nat) : Arises (.scope (.opened depth))
  | bind {s : FlaggedScope τ} {d : Declaration τ} (slot : SlotId) (inherited : Bool) :
      Arises (.scope s) → s.contains d.name = false → Arises (.scope (s.bind d slot inherited))
  | call {s t : FlaggedScope τ} {mode : Mode} {name : String} {c : Variable.Call} :
      Arises (.scope s) → s.call mode name c = .ok t → Arises (.scope t)
  | setAll {s : FlaggedScope τ} (initial : Bool) :
      Arises (.scope s) → Arises (.scope (s.setAll initial))
  | pushLevel {s : FlaggedScope τ} : Arises (.scope s) → Arises (.scope s.pushLevel)
  | foldLevel {s t : FlaggedScope τ} {mode : Mode} :
      Arises (.scope s) → s.foldLevel mode = .ok t → Arises (.scope t)
  | takeArm {s t : FlaggedScope τ} {mode : Mode} {a : FlaggedArm} :
      Arises (.scope s) → s.takeArm mode = .ok (a, t) → Arises (.scope t)
  | taken {s t : FlaggedScope τ} {mode : Mode} {a : FlaggedArm} :
      Arises (.scope s) → s.takeArm mode = .ok (a, t) → Arises (.arm a)
  | nothing : Arises (.arm {})
  | joinArms {s : FlaggedScope τ} {arms : List FlaggedArm} (fallback : Order) (exhaustive : Bool) :
      Arises (.scope s) → (∀ a ∈ arms, Arises (.arm a)) →
        Arises (.scope (s.joinArms fallback arms exhaustive))

end DefiniteAssignment
