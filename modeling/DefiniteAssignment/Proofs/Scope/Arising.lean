import DefiniteAssignment.Proofs.Scope.Reached

/-!
# What every scope keeps

A scope may be worked on in any way: levels may be popped that were never pushed, those of
one variable may be moved alone, and arms may be joined that were taken somewhere else. Some
things hold nevertheless. Each name is bound once. What was declared is not changed, and more
is only added behind it. And a variable that has a value at some level, or had one at a level
that is still there, remembers the order of its first one, since every value that is given for
the first time is noted, and all that is done to levels besides is to copy and to drop them.
-/

namespace DefiniteAssignment

variable {τ α ω : Type}

namespace Variable

/-- A variable that has a value at some level knows the order of its first one. -/
def Dated (v : Variable τ) : Prop :=
  ∀ l ∈ v.current :: v.enclosing, l.isSome → v.firstOrder.isSome

section
variable {v w : Variable τ}

theorem Dated.of_levels (h : v.Dated) (hfirst : w.firstOrder = v.firstOrder)
    (hl : ∀ l ∈ w.current :: w.enclosing, l.isSome → l ∈ v.current :: v.enclosing) :
    w.Dated := by
  intro l hmem hsome
  rw [hfirst]
  exact h l (hl l hmem hsome) hsome

theorem dated_fresh (d : Declaration τ) (slot : SlotId) (inherited : Bool) (depth : Nat) :
    (fresh d slot inherited depth).Dated := by
  intro l hl hsome
  rcases List.mem_cons.mp hl with rfl | hl
  · cases hsome
  · rw [List.eq_of_mem_replicate hl] at hsome
    cases hsome

theorem dated_define (order : Order) (v : Variable τ) : (v.define order).Dated := by
  intro _ _ _
  rw [define]
  cases v.firstOrder <;> rfl

theorem Dated.undefine (h : v.Dated) : v.undefine.Dated := by
  refine h.of_levels rfl fun l hl hsome ↦ ?_
  rcases List.mem_cons.mp hl with rfl | hl
  · cases hsome
  · exact List.mem_cons_of_mem _ hl

theorem Dated.pushLevel (h : v.Dated) : v.pushLevel.Dated := by
  refine h.of_levels rfl fun l hl _ ↦ ?_
  rcases List.mem_cons.mp hl with rfl | hl
  · exact List.mem_cons_self
  · exact hl

theorem Dated.folded (h : v.Dated) : v.folded.Dated := by
  cases he : v.enclosing with
  | nil =>
    rw [Variable.folded, he]
    exact h
  | cons l outer =>
    rw [folded_of_enclosing he]
    refine h.of_levels rfl fun m hm _ ↦ ?_
    rw [he]
    rcases List.mem_cons.mp hm with rfl | hm
    · -- Either the level around the current one has a value and is kept, or that one is.
      cases l with
      | none => exact List.mem_cons_self
      | some order => exact List.mem_cons_of_mem _ List.mem_cons_self
    · exact List.mem_cons_of_mem _ (List.mem_cons_of_mem _ hm)

theorem Dated.shed (h : v.Dated) : v.shed.Dated := by
  cases he : v.enclosing with
  | nil =>
    rw [Variable.shed, he]
    exact h
  | cons l outer =>
    rw [shed_of_enclosing he]
    refine h.of_levels rfl fun m hm _ ↦ ?_
    rw [he]
    exact List.mem_cons_of_mem _ hm

theorem Dated.settle (h : v.Dated) (a : Arm) : (v.settle a).Dated := by
  unfold Variable.settle
  split
  · exact h
  · split
    · exact dated_define _ v
    · exact h

/-- A call changes nothing that was declared, and every value it gives is noted. -/
theorem Dated.of_call {mode : Mode} {c : Call} {q : Reply τ} (h : v.Dated)
    (hcall : v.call mode c = .ok (q, w)) : w.identity = v.identity ∧ w.Dated := by
  cases c with
  | define order =>
    cases hcall
    exact ⟨rfl, dated_define order v⟩
  | undefine =>
    cases hcall
    exact ⟨rfl, h.undefine⟩
  | assign order span =>
    rcases call_assign_cases hcall with ⟨-, -, -, rfl⟩ | ⟨-, -, -, rfl⟩ | ⟨-, -, rfl⟩
    · exact ⟨rfl, h⟩
    · exact ⟨rfl, dated_define order _⟩
    · exact ⟨rfl, dated_define order _⟩
  | ensureInitialized span =>
    simp only [call] at hcall
    split at hcall <;> cases hcall <;> exact ⟨rfl, h⟩
  | pushLevel =>
    cases hcall
    exact ⟨rfl, h.pushLevel⟩
  | foldLevel =>
    rw [call, foldLevel_eq_stop, Mode.map_stop] at hcall
    cases Mode.eq_of_stop_eq_ok hcall
    exact ⟨v.identity_folded, h.folded⟩
  | takeLevel =>
    rw [call, takeLevel_eq_stop, Mode.map_stop] at hcall
    cases Mode.eq_of_stop_eq_ok hcall
    exact ⟨v.identity_shed, h.shed⟩
  | read | markMutated =>
    cases hcall
    exact ⟨rfl, h⟩

end

end Variable

namespace Scope

/-- A scope that comes about in any way, in either mode: opened with some regions open, and
worked on with any allocator, any arms kept and any sink. -/
inductive Arises [Storable τ] : Scope τ → Prop
  | opened (depth : Nat) : Arises (.opened depth)
  | step {α ω : Type} [Allocator α] [Sink ω] {mode : Mode} {x y : Session τ α ω} {op : Op τ}
      {r : Reply τ} : Arises x.scope → x.step mode op = .ok (r, y) → Arises y.scope

/-- Each name is bound once, and each variable knows the order of its first value. -/
structure WellKept (s : Scope τ) : Prop where
  nodup : s.names.Nodup
  dated : ∀ v ∈ s.bindings, v.Dated

section
variable {s t : Scope τ}

theorem wellKept_opened (depth : Nat) : (opened depth : Scope τ).WellKept :=
  ⟨List.nodup_nil, fun _ hv ↦ absurd hv List.not_mem_nil⟩

theorem WellKept.resize (hs : s.WellKept) (size : UInt64) :
    ({ s with size := size } : Scope τ).WellKept := ⟨hs.nodup, hs.dated⟩

theorem WellKept.bind {d : Declaration τ} (slot : SlotId) (inherited : Bool) (hs : s.WellKept)
    (h : s.contains d.name = false) : (s.bind d slot inherited).WellKept where
  nodup := nodup_names_bind slot inherited hs.nodup h
  dated v hv := by
    rcases List.mem_append.mp hv with hv | hv
    · exact hs.dated v hv
    · rw [List.mem_singleton.mp hv]
      exact Variable.dated_fresh d slot inherited s.depth

/-- What is kept of a scope on the way from `s` to `t`. -/
structure Outlives (s t : Scope τ) : Prop where
  wellKept : t.WellKept
  identities : s.identities <+: t.identities

theorem WellKept.outlives (hs : s.WellKept) : Outlives s s := ⟨hs, List.prefix_rfl⟩

theorem Outlives.trans {u : Scope τ} (h : Outlives s t) (h' : Outlives t u) : Outlives s u :=
  ⟨h'.wellKept, h.identities.trans h'.identities⟩

/-- A name that is bound stays bound. -/
theorem Outlives.contains {name : String} (h : Outlives s t) (hn : s.contains name) :
    t.contains name := by
  rw [← mem_names_iff, names_eq_map_identities] at hn ⊢
  exact (h.identities.map _).subset hn

theorem WellKept.outlives_mapAll {g : Variable τ → Variable τ} (hs : s.WellKept)
    (hg : ∀ v ∈ s.bindings, (g v).identity = v.identity ∧ (g v).Dated) (depth : Nat) :
    Outlives s (s.mapAll g depth) := by
  have hi : (s.mapAll g depth).identities = s.identities :=
    identities_mapAll fun v hv ↦ (hg v hv).1
  refine ⟨⟨?_, ?_⟩, ?_⟩
  · rw [names_congr hi]
    exact hs.nodup
  · intro w hw
    obtain ⟨v, hv, rfl⟩ := List.mem_map.mp hw
    exact (hg v hv).2
  · exact hi ▸ List.prefix_rfl

theorem WellKept.outlives_bind {d : Declaration τ} (slot : SlotId) (inherited : Bool)
    (size : UInt64) (hs : s.WellKept) (h : s.contains d.name = false) :
    Outlives s (({ s with size := size } : Scope τ).bind d slot inherited) where
  wellKept := (hs.resize size).bind slot inherited h
  identities := by
    rw [identities_bind]
    exact List.prefix_append _ _

theorem WellKept.outlives_call {mode : Mode} {name : String} {c : Variable.Call}
    {r : Option (Variable.Reply τ)} (hs : s.WellKept) (h : s.call mode name c = .ok (r, t)) :
    Outlives s t := by
  rcases call_eq_ok h with ⟨-, -, rfl⟩ | ⟨v, w, q, hv, hw, -, rfl⟩
  · exact hs.outlives
  · obtain ⟨hi, hdated⟩ := (hs.dated v (mem_of_find? hv)).of_call hw
    rw [set_eq_mapAll]
    refine hs.outlives_mapAll (fun u hu ↦ ⟨identity_set hs.nodup hv hi u hu, ?_⟩) s.depth
    split
    · exact hdated
    · exact hs.dated u hu

theorem WellKept.outlives_setAll (hs : s.WellKept) (initial : Bool) :
    Outlives s (s.setAll initial) := by
  rw [setAll_eq_mapAll]
  refine hs.outlives_mapAll (fun v hv ↦ ⟨identity_setAll initial v, ?_⟩) s.depth
  cases initial with
  | true => exact Variable.dated_define 0 v
  | false => exact (hs.dated v hv).undefine

theorem WellKept.outlives_folded (hs : s.WellKept) : Outlives s s.folded := by
  by_cases hd : s.depth = 0
  · rw [folded, if_pos hd]
    exact hs.outlives
  · rw [folded_eq_mapAll hd]
    exact hs.outlives_mapAll (fun v hv ↦ ⟨v.identity_folded, (hs.dated v hv).folded⟩) _

theorem WellKept.outlives_shed (hs : s.WellKept) : Outlives s s.shed := by
  by_cases hd : s.depth = 0
  · rw [shed, if_pos hd]
    exact hs.outlives
  · rw [shed_eq_mapAll hd]
    exact hs.outlives_mapAll (fun v hv ↦ ⟨v.identity_shed, (hs.dated v hv).shed⟩) _

theorem WellKept.outlives_joinArms (hs : s.WellKept) (arms : List Arm) (exhaustive : Bool) :
    Outlives s (s.joinArms arms exhaustive) := by
  cases exhaustive with
  | false => exact hs.outlives
  | true =>
    rw [joinArms_true]
    exact hs.outlives_mapAll (fun v hv ↦ ⟨v.identity_settle _, (hs.dated v hv).settle _⟩) _

end

/-! ## Steps and runs -/

variable [Storable τ] [Allocator α] [Sink ω] {mode : Mode} {x y : Session τ α ω}

theorem WellKept.outlives_step {op : Op τ} {r : Reply τ} (hs : x.scope.WellKept)
    (h : x.step mode op = .ok (r, y)) : Outlives x.scope y.scope := by
  cases op with
  | declare d =>
    obtain ⟨p, hp, h⟩ := Violation.bind_eq_ok_iff.mp h
    cases p with
    | error e =>
      cases h
      exact hs.outlives
    | ok p =>
      cases h
      obtain ⟨hc, slot, size, he⟩ := declare_eq_ok hp
      rw [he]
      exact hs.outlives_bind slot false size hc
  | declareAt d slot inherited =>
    simp only [Session.step] at h
    split at h
    · next t ht =>
      cases h
      obtain ⟨hc, rfl⟩ := declareAt_eq_ok ht
      exact hs.outlives_bind slot inherited x.scope.size hc
    · cases h
      exact hs.outlives
  | reserveInternal ty =>
    obtain ⟨⟨slot, t, slots⟩, hp, h⟩ := Violation.bind_eq_ok_iff.mp h
    cases h
    obtain ⟨size, rfl⟩ := reserveInternal_eq_ok hp
    exact ⟨hs.resize size, List.prefix_rfl⟩
  | call name c =>
    obtain ⟨p, hp, h⟩ := Violation.bind_eq_ok_iff.mp h
    cases h
    exact hs.outlives_call hp
  | demand name c =>
    obtain ⟨p, hp, h⟩ := Violation.bind_eq_ok_iff.mp h
    cases h
    exact hs.outlives_call (call_of_demand hp)
  | setAll initial =>
    cases h
    exact hs.outlives_setAll initial
  | pushLevel =>
    cases h
    exact hs.outlives_mapAll
      (fun v hv ↦ ⟨v.identity_pushLevel, (hs.dated v hv).pushLevel⟩) _
  | foldLevel =>
    obtain ⟨t, ht, h⟩ := Violation.bind_eq_ok_iff.mp h
    cases h
    rw [foldLevel_eq_stop] at ht
    rw [Mode.eq_of_stop_eq_ok ht]
    exact hs.outlives_folded
  | takeArm label =>
    obtain ⟨p, hp, h⟩ := Violation.bind_eq_ok_iff.mp h
    cases h
    rw [takeArm_eq_stop] at hp
    rw [Mode.eq_of_stop_eq_ok hp]
    exact hs.outlives_shed
  | joinArms arms exhaustive =>
    cases h
    exact hs.outlives_joinArms _ exhaustive
  | contains | checkAll | recommend | report =>
    cases h
    exact hs.outlives

theorem WellKept.outlives_run {ops : List (Op τ)} {rs : List (Reply τ)} (hs : x.scope.WellKept)
    (h : x.run mode ops = .ok (rs, y)) : Outlives x.scope y.scope :=
  invariant_of_runBy (fun z : Session τ α ω ↦ Outlives x.scope z.scope) h hs.outlives
    fun _ _ _ _ _ hz hstep ↦ hz.trans (hz.wellKept.outlives_step hstep)

theorem Arises.wellKept {s : Scope τ} (h : s.Arises) : s.WellKept := by
  induction h with
  | opened depth => exact wellKept_opened depth
  | step _ hstep ih => exact (ih.outlives_step hstep).wellKept

theorem Arises.of_run {ops : List (Op τ)} {rs : List (Reply τ)} (h : x.scope.Arises)
    (hrun : x.run mode ops = .ok (rs, y)) : y.scope.Arises :=
  invariant_of_runBy (fun z : Session τ α ω ↦ z.scope.Arises) hrun h
    fun _ _ _ _ _ hz hstep ↦ hz.step hstep

theorem Reached.arises {s : Scope τ} (h : s.Reached mode) : s.Arises := by
  induction h with
  | opened depth => exact .opened depth
  | step _ _ hstep ih => exact ih.step hstep

end Scope

end DefiniteAssignment
