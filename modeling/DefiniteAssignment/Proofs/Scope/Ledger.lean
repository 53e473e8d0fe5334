import DefiniteAssignment.Proofs.Scope.Reached

/-!
# The ledger of a scope

A scope is judged by two things alone: what was declared in it, and which of its variables were
mutated. Its ledger holds both. Two kinds of events change a ledger. A declaration that is
accepted adds an entry, and a mutation marks the entry of a variable. Whatever else is done to a
scope leaves its ledger as it is, since levels do not come into it.
-/

namespace DefiniteAssignment

variable {τ α ω β : Type}

namespace Variable

@[simp] theorem mutated_folded (v : Variable τ) : v.folded.mutated = v.mutated := by
  unfold folded
  split <;> rfl

@[simp] theorem mutated_shed (v : Variable τ) : v.shed.mutated = v.mutated := by
  unfold shed
  split <;> rfl

@[simp] theorem mutated_settle (a : Arm) (v : Variable τ) :
    (settle a v).mutated = v.mutated := by
  unfold settle
  split
  · rfl
  · split <;> rfl

/-- A call mutates a variable by marking it, or by an assignment that is accepted where the
variable has a value. -/
def mutates (v : Variable τ) : Call → Reply τ → Bool
  | .markMutated, _ => true
  | .assign _ _, .accepted => v.initialized
  | _, _ => false

theorem mutated_of_call {mode : Mode} {c : Call} {v w : Variable τ} {q : Reply τ}
    (h : v.call mode c = .ok (q, w)) : w.mutated = (v.mutated || v.mutates c q) := by
  cases c with
  | markMutated =>
    cases h
    exact (Bool.or_true v.mutated).symm
  | assign order span =>
    rcases call_assign_cases h with ⟨-, -, rfl, rfl⟩ | ⟨hi, -, rfl, rfl⟩ | ⟨hi, rfl, rfl⟩
    · exact (Bool.or_false w.mutated).symm
    · rw [mutates, hi, Bool.or_true]
      rfl
    · rw [mutates, hi, Bool.or_false]
      rfl
  | ensureInitialized span =>
    simp only [call] at h
    split at h <;> cases h <;> exact (Bool.or_false v.mutated).symm
  | foldLevel =>
    rw [call, foldLevel_eq_stop, Mode.map_stop] at h
    cases Mode.eq_of_stop_eq_ok h
    exact v.mutated_folded.trans (Bool.or_false v.mutated).symm
  | takeLevel =>
    rw [call, takeLevel_eq_stop, Mode.map_stop] at h
    cases Mode.eq_of_stop_eq_ok h
    exact v.mutated_shed.trans (Bool.or_false v.mutated).symm
  | read | define | undefine | pushLevel =>
    cases h
    exact (Bool.or_false v.mutated).symm

end Variable

namespace Scope

/-! ## What does not depend on levels -/

/-- Looks neither at levels nor at their number, in any variable. -/
def Overlooks (f : Scope τ → β) : Prop :=
  ∀ (s : Scope τ) (g : Variable τ → Variable τ) (depth : Nat),
    (∀ v, (g v).identity = v.identity ∧ (g v).mutated = v.mutated) → f (s.mapAll g depth) = f s

section
variable {f : Scope τ → β} (hf : Overlooks f) (s : Scope τ)
include hf

theorem Overlooks.pushLevel : f s.pushLevel = f s :=
  hf s .pushLevel (s.depth + 1) fun _ ↦ ⟨rfl, rfl⟩

theorem Overlooks.folded : f s.folded = f s := by
  by_cases hd : s.depth = 0
  · rw [Scope.folded, if_pos hd]
  · rw [folded_eq_mapAll hd]
    exact hf s .folded (s.depth - 1) fun v ↦ ⟨v.identity_folded, v.mutated_folded⟩

theorem Overlooks.shed : f s.shed = f s := by
  by_cases hd : s.depth = 0
  · rw [Scope.shed, if_pos hd]
  · rw [shed_eq_mapAll hd]
    exact hf s .shed (s.depth - 1) fun v ↦ ⟨v.identity_shed, v.mutated_shed⟩

theorem Overlooks.joinArms (arms : List Arm) (exhaustive : Bool) :
    f (s.joinArms arms exhaustive) = f s := by
  cases exhaustive with
  | false => rfl
  | true =>
    rw [joinArms_true]
    exact hf s _ s.depth fun v ↦ ⟨v.identity_settle _, v.mutated_settle _⟩

theorem Overlooks.setAll (initial : Bool) : f (s.setAll initial) = f s := by
  rw [setAll_eq_mapAll]
  refine hf s _ s.depth fun v ↦ ⟨identity_setAll initial v, ?_⟩
  cases initial <;> rfl

end

/-! ## Ledgers -/

/-- Declarations in their order, each with whether the variable was mutated. -/
abbrev Ledger (τ : Type) := List (Declaration τ × Bool)

def ledger (s : Scope τ) : Ledger τ := s.bindings.map fun v ↦ (v.toDeclaration, v.mutated)

theorem overlooks_ledger : Overlooks (ledger : Scope τ → Ledger τ) := by
  intro s g depth hg
  rw [ledger, ledger, mapAll, List.map_map]
  refine List.map_congr_left fun v _ ↦ ?_
  obtain ⟨hidentity, hmutated⟩ := hg v
  exact Prod.ext (congrArg (·.1) hidentity) hmutated

theorem names_eq_map_ledger (s : Scope τ) : s.names = s.ledger.map (·.1.name) := by
  rw [names, ledger, List.map_map]
  rfl

/-- The warnings that are due for a ledger. -/
def due (l : Ledger τ) : List Warning :=
  (l.filter fun p ↦ !p.1.frozen && !p.2).map fun p ↦ ⟨.neverMutated p.1.name, p.1.span⟩

theorem unmutated_eq_due (s : Scope τ) : s.unmutated = due s.ledger := by
  rw [unmutated, due, ledger, List.filter_map, List.map_map]
  rfl

/-! ## Events -/

/-- What a ledger is kept of. -/
inductive Event (τ : Type) where
  | declared (d : Declaration τ)
  | mutated (name : String)
deriving DecidableEq, Repr

namespace Event

/-- The event that a call on a variable is, if it mutates it. -/
def called? (name : String) (c : Variable.Call) (q : Variable.Reply τ) (v : Variable τ) :
    Option (Event τ) :=
  if v.mutates c q then some (.mutated name) else none

/-- What an event makes of a ledger. Only a name without an entry is declared, and only one that
has an entry is mutated. -/
inductive Enters : Option (Event τ) → Ledger τ → Ledger τ → Prop
  | nothing (l : Ledger τ) : Enters none l l
  | declared {l : Ledger τ} {d : Declaration τ} (h : d.name ∉ l.map (·.1.name)) :
      Enters (some (.declared d)) l (l ++ [(d, false)])
  | mutated {l : Ledger τ} {name : String} (h : name ∈ l.map (·.1.name)) :
      Enters (some (.mutated name)) l (l.map fun p ↦ (p.1, p.2 || p.1.name = name))

theorem Enters.eq_of_none {l l' : Ledger τ} (h : Enters none l l') : l' = l := by
  cases h
  rfl

end Event

/-- The event that an operation is, once it is answered. -/
def event? (s : Scope τ) : Op τ → Reply τ → Option (Event τ)
  | .declare d, .done | .declareAt d _ _, .done => some (.declared d)
  | .call name c, .variable q | .demand name c, .variable q =>
    (s.find? name).bind (Event.called? name c q)
  | _, _ => none

/-- An operation that reports something. -/
def Op.speaks : Op τ → Bool
  | .checkAll _ _ | .recommend | .report _ => true
  | _ => false

section
variable {mode : Mode} {s t : Scope τ} {name : String} {c : Variable.Call}

theorem enters_bind {d : Declaration τ} (h : s.contains d.name = false) (slot : SlotId)
    (inherited : Bool) (size : UInt64) : Event.Enters (some (.declared d)) s.ledger
      (({ s with size := size } : Scope τ).bind d slot inherited).ledger := by
  have hl : (({ s with size := size } : Scope τ).bind d slot inherited).ledger =
      s.ledger ++ [(d, false)] := by
    rw [ledger, bind, List.map_append]
    rfl
  rw [hl]
  refine .declared ?_
  rw [← names_eq_map_ledger, mem_names_iff, h]
  exact Bool.false_ne_true

theorem enters_set {v w : Variable τ} {q : Variable.Reply τ} (hs : s.names.Nodup)
    (hv : s.find? name = some v) (hcall : v.call mode c = .ok (q, w)) :
    Event.Enters (Event.called? name c q v) s.ledger (s.set name w).ledger := by
  have hl : (s.set name w).ledger =
      s.ledger.map fun p ↦ (p.1, p.2 || v.mutates c q && p.1.name = name) := by
    rw [ledger, ledger, set, List.map_map, List.map_map]
    refine List.map_congr_left fun u hu ↦ ?_
    -- A name is bound once, so what is put in the place of a variable has its declaration.
    simp only [Function.comp_apply]
    split
    · next hn =>
      rw [eq_of_name hs hv hu hn, Variable.toDeclaration_call hcall, Variable.mutated_of_call hcall,
        name_of_find? hv, decide_eq_true rfl, Bool.and_true]
    · next hn => rw [decide_eq_false hn, Bool.and_false, Bool.or_false]
  rw [hl, Event.called?]
  cases v.mutates c q with
  | false =>
    simp only [Bool.false_and, Bool.or_false, List.map_id']
    exact .nothing s.ledger
  | true =>
    simp only [Bool.true_and]
    refine .mutated ?_
    rw [← names_eq_map_ledger, ← name_of_find? hv]
    exact List.mem_map_of_mem (mem_of_find? hv)

theorem enters_call {r : Option (Variable.Reply τ)} (hs : s.names.Nodup)
    (h : s.call mode name c = .ok (r, t)) :
    Event.Enters (s.event? (.call name c) (r.elim .absent .variable)) s.ledger t.ledger := by
  rcases call_eq_ok h with ⟨-, rfl, rfl⟩ | ⟨v, w, q, hv, hw, rfl, rfl⟩
  · exact .nothing t.ledger
  · rw [Option.elim_some, event?, hv]
    exact enters_set hs hv hw

end

/-! ## One operation -/

namespace Session

variable [Storable τ] [Allocator α] [Sink ω] {mode : Mode} {x y : Session τ α ω} {op : Op τ}
  {r : Reply τ}

theorem enters_of_step (hs : x.scope.names.Nodup) (h : x.step mode op = .ok (r, y)) :
    Event.Enters (x.scope.event? op r) x.scope.ledger y.scope.ledger := by
  cases op with
  | declare d =>
    obtain ⟨p, hp, h⟩ := Violation.bind_eq_ok_iff.mp h
    cases p with
    | error e =>
      cases h
      exact .nothing _
    | ok p =>
      cases h
      obtain ⟨hc, slot, size, he⟩ := declare_eq_ok hp
      rw [he]
      exact enters_bind hc slot false size
  | declareAt d slot inherited =>
    simp only [step] at h
    split at h
    · next t ht =>
      cases h
      obtain ⟨hc, rfl⟩ := declareAt_eq_ok ht
      exact enters_bind hc slot inherited x.scope.size
    · cases h
      exact .nothing _
  | reserveInternal ty =>
    obtain ⟨⟨slot, t, slots⟩, hp, h⟩ := Violation.bind_eq_ok_iff.mp h
    cases h
    obtain ⟨size, rfl⟩ := reserveInternal_eq_ok hp
    exact .nothing _
  | call name c =>
    obtain ⟨p, hp, h⟩ := Violation.bind_eq_ok_iff.mp h
    cases h
    exact enters_call hs hp
  | demand name c =>
    obtain ⟨p, hp, h⟩ := Violation.bind_eq_ok_iff.mp h
    cases h
    exact enters_call hs (call_of_demand hp)
  | setAll initial =>
    cases h
    rw [overlooks_ledger.setAll]
    exact .nothing _
  | pushLevel =>
    cases h
    rw [overlooks_ledger.pushLevel]
    exact .nothing _
  | foldLevel =>
    obtain ⟨t, ht, h⟩ := Violation.bind_eq_ok_iff.mp h
    cases h
    rw [foldLevel_eq_stop] at ht
    rw [Mode.eq_of_stop_eq_ok ht, overlooks_ledger.folded]
    exact .nothing _
  | takeArm label =>
    obtain ⟨p, hp, h⟩ := Violation.bind_eq_ok_iff.mp h
    cases h
    rw [takeArm_eq_stop] at hp
    rw [Mode.eq_of_stop_eq_ok hp, overlooks_ledger.shed]
    exact .nothing _
  | joinArms arms exhaustive =>
    cases h
    rw [overlooks_ledger.joinArms]
    exact .nothing _
  | contains | checkAll | recommend | report =>
    cases h
    exact .nothing _

theorem sink_of_speaks_eq_false (hop : op.speaks = false) (h : x.step mode op = .ok (r, y)) :
    y.sink = x.sink := by
  cases op with
  | checkAll | recommend | report => cases hop
  | declare =>
    obtain ⟨p, -, h⟩ := Violation.bind_eq_ok_iff.mp h
    cases p <;> cases h <;> rfl
  | declareAt =>
    simp only [step] at h
    split at h <;> cases h <;> rfl
  | reserveInternal | call | demand | foldLevel | takeArm =>
    obtain ⟨p, -, h⟩ := Violation.bind_eq_ok_iff.mp h
    cases h
    rfl
  | contains | setAll | pushLevel | joinArms =>
    cases h
    rfl

end Session

/-! ## Histories -/

namespace Event

def declaration? : Event τ → Option (Declaration τ)
  | .declared d => some d
  | .mutated _ => none

def mutates (name : String) : Event τ → Bool
  | .declared _ => false
  | .mutated n => name = n

end Event

/-- The warnings that are due for a history: one for each declaration of a variable that is not
frozen and on which no mutation has happened. -/
def verdict (h : List (Event τ)) : List Warning :=
  ((h.filterMap Event.declaration?).filter fun d ↦
    !d.frozen && !h.any (Event.mutates d.name)).map fun d ↦ ⟨.neverMutated d.name, d.span⟩

/-- The ledger that a history leads to. -/
def recorded (h : List (Event τ)) : Ledger τ :=
  (h.filterMap Event.declaration?).map fun d ↦ (d, h.any (Event.mutates d.name))

section
variable (h : List (Event τ))

theorem verdict_eq_due : verdict h = due (recorded h) := by
  rw [verdict, due, recorded, List.filter_map, List.map_map]
  rfl

@[simp] theorem any_concat_declared (d : Declaration τ) (name : String) :
    (h ++ [Event.declared d]).any (Event.mutates name) = h.any (Event.mutates name) := by
  simp [Event.mutates]

@[simp] theorem any_concat_mutated (n name : String) :
    (h ++ [Event.mutated n]).any (Event.mutates name) =
      (h.any (Event.mutates name) || decide (name = n)) := by
  simp [Event.mutates]

theorem recorded_declared (d : Declaration τ) : recorded (h ++ [.declared d]) =
    recorded h ++ [(d, h.any (Event.mutates d.name))] := by
  simp only [recorded, any_concat_declared, List.filterMap_append, List.map_append]
  rfl

theorem recorded_mutated (name : String) : recorded (h ++ [.mutated name]) =
    (recorded h).map fun p ↦ (p.1, p.2 || p.1.name = name) := by
  simp only [recorded, any_concat_mutated, List.filterMap_append, List.map_append, List.map_map]
  exact List.append_nil _

end

/-- A history tells of a ledger, if it leads to it and tells of no mutation besides. -/
structure Tells (h : List (Event τ)) (l : Ledger τ) : Prop where
  recorded : l = recorded h
  bound {name : String} : h.any (Event.mutates name) → name ∈ l.map (·.1.name)

theorem tells_opened (depth : Nat) : Tells [] (opened depth : Scope τ).ledger where
  recorded := rfl
  bound h := by cases h

theorem Tells.due_eq {h : List (Event τ)} {l : Ledger τ} (hl : Tells h l) : due l = verdict h := by
  rw [verdict_eq_due, hl.recorded]

theorem Tells.declarations_eq {h : List (Event τ)} {l : Ledger τ} (hl : Tells h l) :
    l.map Prod.fst = h.filterMap Event.declaration? := by
  rw [hl.recorded, Scope.recorded, List.map_map]
  exact List.map_id _

theorem Tells.enter {h : List (Event τ)} {e : Option (Event τ)} {l l' : Ledger τ}
    (hl : Tells h l) (he : Event.Enters e l l') : Tells (h ++ e.toList) l' := by
  cases he with
  | nothing =>
    rw [Option.toList_none, List.append_nil]
    exact hl
  | @declared _ d hd =>
    -- Whatever was mutated has an entry, and this name has none yet.
    have hfresh : h.any (Event.mutates d.name) = false := by
      rw [Bool.eq_false_iff]
      exact fun hm ↦ hd (hl.bound hm)
    refine ⟨?_, fun hm ↦ ?_⟩
    · rw [Option.toList_some, recorded_declared, hfresh, ← hl.recorded]
    · rw [List.map_append]
      rw [Option.toList_some, any_concat_declared] at hm
      exact List.mem_append_left _ (hl.bound hm)
  | @mutated _ name hname =>
    have hnames : (l.map fun p ↦ (p.1, p.2 || decide (p.1.name = name))).map (·.1.name) =
        l.map (·.1.name) := by
      rw [List.map_map]
      rfl
    refine ⟨?_, fun {n} hm ↦ ?_⟩
    · rw [Option.toList_some, recorded_mutated, ← hl.recorded]
    · rw [hnames]
      rw [Option.toList_some, any_concat_mutated, Bool.or_eq_true, decide_eq_true_eq] at hm
      rcases hm with hm | rfl
      · exact hl.bound hm
      · exact hname

end Scope

end DefiniteAssignment
