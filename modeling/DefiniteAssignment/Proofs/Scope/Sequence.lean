import DefiniteAssignment.Proofs.Scope.Interference
import DefiniteAssignment.Proofs.Scope.Ledger
import DefiniteAssignment.Proofs.Scope.Twins

/-!
# The sequence of bindings

Two scopes have the same variables, but one of these stands before all others in the second. On
both the same is done. A scope looks at its variables one by one, and each of them is changed in
the same way wherever it stands, so the variables stay the same. The sequence is seen in two
places only: in an arm, which says the same of every name all the same, and in what is reported of
all variables.

No level of a single variable is moved. Otherwise a strict analysis could come to different
variables first that have no level to give up.
-/

namespace DefiniteAssignment

variable {τ α ω : Type}

theorem Arm.agrees_refl (a : Arm) : a.Agrees a := fun _ ↦ rfl

theorem Arm.agrees_getElem? {as bs : List Arm} (h : as.Forall₂ Agrees bs) (index : Nat) :
    Agrees (as[index]?.getD .empty) (bs[index]?.getD .empty) := by
  induction h generalizing index with
  | nil => exact agrees_refl .empty
  | cons hab _ ih =>
    cases index with
    | zero => exact hab
    | succ index => exact ih index

/-- Arms that agree one by one agree on what all of them know. -/
theorem Arm.agrees_meet {as bs : List Arm} (h : as.Forall₂ Agrees bs) :
    Agrees (meet as) (meet bs) := by
  intro name
  rw [order?_meet, order?_meet, map_eq_of_forall₂ (fun a b hab ↦ (hab name).symm) h]

/-- Under each label the same number of arms is kept on two shelves, and they agree. -/
def Shelf.Agrees (s t : Shelf) : Prop :=
  ∀ label, (s.arms label).Forall₂ Arm.Agrees (t.arms label)

namespace Shelf.Agrees

variable {s t : Shelf}

theorem refl (s : Shelf) : s.Agrees s := fun _ ↦
  List.forall₂_same.mpr fun a _ ↦ a.agrees_refl

theorem arm (h : s.Agrees t) (ref : ArmRef) : (s.arm ref).Agrees (t.arm ref) := by
  cases ref with
  | nothing => exact Arm.agrees_refl .empty
  | kept label index => exact Arm.agrees_getElem? (h label) index

theorem keep (h : s.Agrees t) (label : String) {a b : Arm} (hab : a.Agrees b) :
    (s.keep label [a]).Agrees (t.keep label [b]) := by
  intro other
  by_cases hl : other = label
  · subst hl
    rw [arms_keep_self, arms_keep_self]
    exact .cons hab .nil
  · rw [arms_keep_of_ne s _ hl, arms_keep_of_ne t _ hl]
    exact h other

end Shelf.Agrees

namespace Scope

/-- In the second scope the variable of a name is moved to the front. -/
structure Fronted (name : String) (s t : Scope τ) : Prop where
  bindings : ∃ v before after, v.name = name ∧ s.bindings = before ++ v :: after ∧
    t.bindings = v :: (before ++ after)
  size : t.size = s.size
  depth : t.depth = s.depth

namespace Fronted

variable {name n : String} {s t : Scope τ}

theorem perm (h : Fronted name s t) : t.bindings.Perm s.bindings := by
  obtain ⟨v, before, after, -, hs, ht⟩ := h.bindings
  rw [hs, ht]
  exact List.perm_middle.symm

/-- A name means the same, wherever its variable stands. -/
theorem find?_eq (h : Fronted name s t) (ht : t.names.Nodup) (n : String) :
    t.find? n = s.find? n := by
  cases hf : s.find? n with
  | none =>
    rw [find?_eq_none_iff] at hf ⊢
    exact fun hn ↦ hf ((h.perm.map _).mem_iff.mp hn)
  | some v =>
    have hv : v ∈ t.bindings := h.perm.mem_iff.mpr (mem_of_find? hf)
    rw [← name_of_find? hf]
    exact find?_of_mem ht hv

theorem contains_eq (h : Fronted name s t) (ht : t.names.Nodup) (n : String) :
    t.contains n = s.contains n := by
  rw [contains, contains, h.find?_eq ht]

theorem mapAll {g : Variable τ → Variable τ} (h : Fronted name s t)
    (hg : ∀ v, (g v).name = v.name) (depth : Nat) :
    Fronted name (s.mapAll g depth) (t.mapAll g depth) := by
  obtain ⟨v, before, after, hname, hs, ht⟩ := h.bindings
  refine ⟨⟨g v, before.map g, after.map g, (hg v).trans hname, ?_, ?_⟩, h.size, rfl⟩
  · rw [Scope.mapAll, hs, List.map_append, List.map_cons]
  · rw [Scope.mapAll, ht, List.map_cons, List.map_append]

theorem resize (h : Fronted name s t) (size : UInt64) :
    Fronted name { s with size := size } { t with size := size } := ⟨h.bindings, rfl, h.depth⟩

theorem bind (h : Fronted name s t) (d : Declaration τ) (slot : SlotId) (inherited : Bool) :
    Fronted name (s.bind d slot inherited) (t.bind d slot inherited) := by
  obtain ⟨v, before, after, hname, hs, ht⟩ := h.bindings
  refine ⟨⟨v, before, after ++ [.fresh d slot inherited s.depth], hname, ?_, ?_⟩, h.size, h.depth⟩
  · rw [Scope.bind, hs, List.append_assoc, List.cons_append]
  · rw [Scope.bind, ht, h.depth, List.cons_append, List.append_assoc]

theorem set {v : Variable τ} (h : Fronted name s t) (hv : v.name = n) :
    Fronted name (s.set n v) (t.set n v) := by
  rw [set_eq_mapAll, set_eq_mapAll, h.depth]
  refine h.mapAll (fun u ↦ ?_) s.depth
  split
  · next hu => rw [hv, hu]
  · rfl

theorem setAll (h : Fronted name s t) (initial : Bool) :
    Fronted name (s.setAll initial) (t.setAll initial) := by
  rw [setAll_eq_mapAll, setAll_eq_mapAll, h.depth]
  exact h.mapAll (fun v ↦ Variable.name_eq_of_identity (identity_setAll initial v)) s.depth

theorem pushLevel (h : Fronted name s t) : Fronted name s.pushLevel t.pushLevel := by
  have hmap := h.mapAll (fun v ↦ Variable.name_eq_of_identity v.identity_pushLevel) (s.depth + 1)
  exact ⟨hmap.bindings, h.size, congrArg (· + 1) h.depth⟩

theorem left {g : Variable τ → Variable τ} (h : Fronted name s t)
    (hg : ∀ v, (g v).name = v.name) :
    Fronted name (if s.depth = 0 then s else s.mapAll g (s.depth - 1))
      (if t.depth = 0 then t else t.mapAll g (t.depth - 1)) := by
  rw [h.depth]
  split
  · exact h
  · exact h.mapAll hg _

theorem folded (h : Fronted name s t) : Fronted name s.folded t.folded :=
  h.left fun v ↦ Variable.name_eq_of_identity v.identity_folded

theorem shed (h : Fronted name s t) : Fronted name s.shed t.shed :=
  h.left fun v ↦ Variable.name_eq_of_identity v.identity_shed

/-- A scope in step has a level to give up or not, whatever its variables. -/
theorem popBreach?_eq (h : Fronted name s t) (hs : s.InStep) (ht : t.InStep) :
    t.popBreach? = s.popBreach? := by
  by_cases hd : s.depth = 0
  · rw [popBreach?, popBreach?, if_pos hd, if_pos (h.depth.trans hd)]
  · have hd' : t.depth ≠ 0 := fun h0 ↦ hd (h.depth.symm.trans h0)
    rw [hs.popBreach?_eq_none hd, ht.popBreach?_eq_none hd']

theorem agrees_lastArm (h : Fronted name s t) (hs : s.names.Nodup) (ht : t.names.Nodup) :
    s.lastArm.Agrees t.lastArm := by
  rw [lastArm, lastArm, h.depth]
  split
  · exact Arm.agrees_refl .empty
  · intro n
    rw [order?_knowledge hs, order?_knowledge ht, current, current, h.find?_eq ht]

theorem joinArms (h : Fronted name s t) {as bs : List Arm} (hab : as.Forall₂ Arm.Agrees bs)
    (exhaustive : Bool) : Fronted name (s.joinArms as exhaustive) (t.joinArms bs exhaustive) := by
  cases exhaustive with
  | false => exact h
  | true =>
    -- Agreeing arms settle every variable in the same way.
    have hsettle : (Variable.settle (.meet bs) : Variable τ → Variable τ) =
        Variable.settle (.meet as) :=
      funext fun v ↦ Variable.settle_congr (Arm.agrees_meet hab v.name).symm
    rw [joinArms_true, joinArms_true, hsettle, h.depth]
    exact h.mapAll (fun v ↦ Variable.name_eq_of_identity (v.identity_settle _)) s.depth

theorem call (h : Fronted name s t) (ht : t.names.Nodup) (mode : Mode) (n : String)
    (c : Variable.Call) : Matched (fun p q ↦ q.1 = p.1 ∧ Fronted name p.2 q.2)
      (s.call mode n c) (t.call mode n c) := by
  cases hv : s.find? n with
  | none =>
    rw [call_of_find?_eq_none hv, call_of_find?_eq_none ((h.find?_eq ht n).trans hv)]
    exact ⟨rfl, h⟩
  | some v =>
    rw [call_of_find?_eq_some hv, call_of_find?_eq_some ((h.find?_eq ht n).trans hv)]
    cases hw : v.call mode c with
    | error e => exact rfl
    | ok p => exact ⟨rfl, h.set (name_of_call hv hw)⟩

theorem demand (h : Fronted name s t) (ht : t.names.Nodup) (mode : Mode) (n : String)
    (c : Variable.Call) : Matched (fun p q ↦ q.1 = p.1 ∧ Fronted name p.2 q.2)
      (s.demand mode n c) (t.demand mode n c) := by
  cases hv : s.find? n with
  | none =>
    rw [demand_of_find?_eq_none mode c hv,
      demand_of_find?_eq_none mode c ((h.find?_eq ht n).trans hv)]
    exact rfl
  | some v =>
    rw [demand_of_find?_eq_some mode c hv,
      demand_of_find?_eq_some mode c ((h.find?_eq ht n).trans hv)]
    cases hw : v.call mode c with
    | error e => exact rfl
    | ok p => exact ⟨rfl, h.set (name_of_call hv hw)⟩

theorem declareAt (h : Fronted name s t) (ht : t.names.Nodup) (d : Declaration τ)
    (slot : SlotId) (inherited : Bool) :
    Matched (Fronted name) (s.declareAt d slot inherited) (t.declareAt d slot inherited) := by
  rw [Scope.declareAt, Scope.declareAt, h.contains_eq ht]
  split
  · exact rfl
  · exact h.bind d slot inherited

theorem grow (h : Fronted name s t) (mode : Mode) (size : UInt64) :
    Matched (Fronted name) (s.grow mode size) (t.grow mode size) := by
  rw [Scope.grow, Scope.grow, h.size]
  refine (matched_refl (mode.addSize s.size size)).map ?_
  rintro total _ rfl
  exact h.resize total

variable [Storable τ] [Allocator α]

theorem declare (h : Fronted name s t) (ht : t.names.Nodup) (mode : Mode) (slots : α)
    (d : Declaration τ) :
    Matched (Matched fun p q ↦ Fronted name p.1 q.1 ∧ q.2 = p.2) (s.declare mode slots d)
      (t.declare mode slots d) := by
  rw [Scope.declare, Scope.declare, h.contains_eq ht]
  split
  · exact rfl
  · refine (matched_refl (Allocator.reserve mode slots (Storable.storageSize d.ty))).bind ?_
    rintro ⟨slot, given⟩ _ rfl
    refine (h.grow mode _).bind fun s' t' h' ↦ ?_
    exact ⟨h'.bind d slot false, rfl⟩

theorem reserveInternal (h : Fronted name s t) (mode : Mode) (slots : α) (ty : τ) :
    Matched (fun p q ↦ q.1 = p.1 ∧ Fronted name p.2.1 q.2.1 ∧ q.2.2 = p.2.2)
      (s.reserveInternal mode slots ty) (t.reserveInternal mode slots ty) := by
  rw [Scope.reserveInternal, Scope.reserveInternal]
  refine (h.grow mode _).bind fun s' t' h' ↦ ?_
  refine (matched_refl (Allocator.reserve mode slots (Storable.storageSize ty))).bind ?_
  rintro ⟨slot, given⟩ _ rfl
  exact ⟨rfl, h', rfl⟩

end Fronted

/-! ## Turns -/

/-- Two answers are equal, or two arms that agree. -/
def Reply.Agrees : Reply τ → Reply τ → Prop
  | .arm a, .arm b => a.Agrees b
  | r, q => r = q

theorem Reply.agrees_refl (r : Reply τ) : r.Agrees r := by
  cases r with
  | arm a => exact a.agrees_refl
  | _ => rfl

namespace Turn

/-- What an operation hands to the sink. -/
def reports (t : Turn τ) : List Report :=
  match t.op with
  | .report r => [r]
  | _ => t.told.map (·.2)

/-- Two turns of the same operation, on scopes of which the second has the variable of a name at
the front. The same is answered, and the same is reported in some sequence. -/
structure Fronted (name : String) (t u : Turn τ) : Prop where
  op : u.op = t.op
  reply : t.reply.Agrees u.reply
  told : u.told.Perm t.told
  scope : t.scope.Fronted name u.scope
  found (n : String) : u.scope.find? n = t.scope.find? n

end Turn

namespace Session

/-- Two sessions on such scopes, with the same slots to come and with arms that agree. -/
structure Fronted (name : String) (x y : Session τ α ω) : Prop where
  scope : x.scope.Fronted name y.scope
  slots : y.slots = x.slots
  shelf : x.shelf.Agrees y.shelf

variable [Storable τ] {name : String} {x y : Session τ α ω} {op : Op τ}

theorem Fronted.told (h : Fronted name x y) (op : Op τ) : (y.told op).Perm (x.told op) := by
  cases op with
  | checkAll | recommend => exact (h.scope.perm.filter _).map _
  | _ => exact .refl _

variable [Allocator α] [Sink ω] {mode : Mode} {r : Reply τ}

/-- What an operation hands to the sink is all that the sink gets. -/
theorem sink_eq_emitAll_reports (h : x.step mode op = .ok (r, y)) :
    y.sink = emitAll x.sink (Turn.reports ⟨op, r, x.told op, y.scope⟩) := by
  cases op with
  | report =>
    cases h
    rfl
  | checkAll | recommend => exact sink_of_step rfl h
  | _ => exact sink_of_speaks_eq_false rfl h

theorem sink_of_turns {ops : List (Op τ)} {rs : List (Reply τ)}
    (h : x.run mode ops = .ok (rs, y)) :
    y.sink = emitAll x.sink ((x.turns mode ops).flatMap Turn.reports) := by
  induction ops generalizing x rs with
  | nil =>
    cases h
    rfl
  | cons op ops ih =>
    obtain ⟨r, z, qs, hstep, hrun, rfl⟩ := run_cons_eq_ok_iff.mp h
    rw [turns_cons hstep, List.flatMap_cons, emitAll_append, ← sink_eq_emitAll_reports hstep]
    exact ih hrun

namespace Fronted

theorem step (h : Fronted name x y) (hx : x.scope.InStep) (hy : y.scope.InStep) (mode : Mode)
    (op : Op τ) : Matched (fun p q ↦ p.1.Agrees q.1 ∧ Fronted name p.2 q.2)
      (x.step mode op) (y.step mode op) := by
  have ht := hy.nodup
  cases op with
  | declare d =>
    rw [Session.step, Session.step, h.slots]
    refine (h.scope.declare ht mode x.slots d).bind fun p q hpq ↦ ?_
    rcases hpq.cases with ⟨e, rfl, rfl⟩ | ⟨⟨s, given⟩, ⟨t, _⟩, rfl, rfl, hst, rfl⟩
    · exact ⟨rfl, h⟩
    · exact ⟨rfl, hst, rfl, h.shelf⟩
  | declareAt d slot inherited =>
    rw [Session.step, Session.step]
    rcases (h.scope.declareAt ht d slot inherited).cases with ⟨e, hs, ht⟩ | ⟨s, t, hs, ht, hst⟩
    · rw [hs, ht]
      exact ⟨rfl, h⟩
    · rw [hs, ht]
      exact ⟨rfl, hst, h.slots, h.shelf⟩
  | reserveInternal ty =>
    rw [Session.step, Session.step, h.slots]
    refine (h.scope.reserveInternal mode x.slots ty).bind ?_
    rintro ⟨slot, s, given⟩ ⟨_, t, _⟩ ⟨rfl, hst, rfl⟩
    exact ⟨rfl, hst, rfl, h.shelf⟩
  | contains n => exact ⟨congrArg Reply.bound (h.scope.contains_eq ht n).symm, h⟩
  | call n c =>
    refine (h.scope.call ht mode n c).bind ?_
    rintro ⟨q, s⟩ ⟨_, t⟩ ⟨rfl, hst⟩
    exact ⟨Reply.agrees_refl _, hst, h.slots, h.shelf⟩
  | demand n c =>
    refine (h.scope.demand ht mode n c).bind ?_
    rintro ⟨q, s⟩ ⟨_, t⟩ ⟨rfl, hst⟩
    exact ⟨rfl, hst, h.slots, h.shelf⟩
  | setAll initial => exact ⟨rfl, h.scope.setAll initial, h.slots, h.shelf⟩
  | pushLevel => exact ⟨rfl, h.scope.pushLevel, h.slots, h.shelf⟩
  | foldLevel =>
    simp only [Session.step, foldLevel_eq_stop, Mode.bind_stop, h.scope.popBreach?_eq hx hy]
    exact matched_stop mode _ ⟨rfl, h.scope.folded, h.slots, h.shelf⟩
  | takeArm label =>
    have hab := h.scope.agrees_lastArm hx.nodup ht
    simp only [Session.step, takeArm_eq_stop, Mode.bind_stop, h.scope.popBreach?_eq hx hy]
    exact matched_stop mode _ ⟨hab, h.scope.shed, h.slots, h.shelf.keep label hab⟩
  | joinArms arms exhaustive =>
    refine ⟨rfl, h.scope.joinArms ?_ exhaustive, h.slots, h.shelf⟩
    rw [List.forall₂_map_left_iff, List.forall₂_map_right_iff, List.forall₂_same]
    exact fun ref _ ↦ h.shelf.arm ref
  | checkAll span kindOf =>
    refine ⟨congrArg Reply.counted ?_, h.scope, h.slots, h.shelf⟩
    rw [uninitialized, uninitialized, List.length_map, List.length_map]
    exact (h.scope.perm.filter _).length_eq.symm
  | recommend => exact ⟨rfl, h.scope, h.slots, h.shelf⟩
  | report r => exact ⟨rfl, h.scope, h.slots, h.shelf⟩

/-- Whatever is then done, without moving the levels of one variable alone, the turns are the same
but for the sequence, as far as they go. -/
theorem run (h : Fronted name x y) (hx : x.scope.InStep) (hy : y.scope.InStep) (mode : Mode)
    {ops : List (Op τ)} (hops : ∀ op ∈ ops, op.movesOne = false) :
    (x.turns mode ops).Forall₂ (Turn.Fronted name) (y.turns mode ops) ∧
      Matched (fun p q ↦ p.1.Forall₂ Reply.Agrees q.1 ∧ Fronted name p.2 q.2)
        (x.run mode ops) (y.run mode ops) := by
  induction ops generalizing x y with
  | nil => exact ⟨.nil, .nil, h⟩
  | cons op ops ih =>
    have hop : op.movesOne = false := hops op List.mem_cons_self
    rcases (h.step hx hy mode op).cases with
      ⟨e, hs, ht⟩ | ⟨⟨r, x'⟩, ⟨q, y'⟩, hs, ht, hreply, h'⟩
    · simp only [turns, Session.run_cons, hs, ht]
      exact ⟨.nil, rfl⟩
    · have hx' := hx.of_step hop hs
      have hy' := hy.of_step hop ht
      obtain ⟨hturns, hrest⟩ := ih h' hx' hy' fun o ho ↦ hops o (List.mem_cons_of_mem op ho)
      rw [turns_cons hs, turns_cons ht, Session.run_cons, Session.run_cons, hs, ht]
      refine ⟨.cons ⟨rfl, hreply, h.told op, h'.scope, h'.scope.find?_eq hy'.nodup⟩ hturns, ?_⟩
      refine hrest.bind ?_
      rintro ⟨rs, z⟩ ⟨qs, w⟩ ⟨hreplies, hzw⟩
      exact ⟨.cons hreply hreplies, hzw⟩

end Fronted

end Session

end Scope

end DefiniteAssignment
