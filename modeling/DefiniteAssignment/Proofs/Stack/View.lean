import DefiniteAssignment.Proofs.Scope.Growth
import DefiniteAssignment.Stack.Levels

/-!
# Stacks in step

A stack is in step if each of its scopes is, with as many levels pushed as the stack
counts. It is seen place by place: the level a name has in the scope at a place, and the
levels around it there. A place at which no scope is open counts as one that binds no
name, so that opening a scope changes nothing that is seen.

A part of an analysis keeps a stack in step and the levels around the current one alone.
The level pushed before it can then be popped again, and popping it changes of every name
the current level at most.
-/

namespace DefiniteAssignment.Stack

variable {τ : Type}

/-- Every scope is in step, with the levels the stack counts. -/
def InStep (s : Stack τ) : Prop := ∀ scope ∈ s.scopes, scope.InStep ∧ scope.depth = s.depth

/-- The level of a name in the scope at a place. -/
def levelAt (s : Stack τ) (place : Nat) (name : String) : Level :=
  s.scopes[place]?.elim none (·.current name)

/-- The levels around the current one of a name in the scope at a place. -/
def levelsAt (s : Stack τ) (place : Nat) (name : String) : List Level :=
  s.scopes[place]?.elim (List.replicate s.depth none) (·.around name)

theorem InStep.of_getElem? {s : Stack τ} (hs : s.InStep) {place : Nat} {scope : Scope τ}
    (h : s.scopes[place]? = some scope) : scope.InStep ∧ scope.depth = s.depth :=
  hs scope (List.mem_of_getElem? h)

theorem inStep_start (config : Config) : (start config : Stack τ).InStep := by
  intro scope h
  rw [scopes_start, List.mem_singleton] at h
  subst h
  exact ⟨Scope.inStep_opened 0, rfl⟩

/-- A name has no level at a place at which no scope is open. -/
theorem lt_of_isSome_levelAt {s : Stack τ} {place : Nat} {name : String}
    (h : (s.levelAt place name).isSome) : place < s.scopes.length := by
  by_contra hlt
  rw [levelAt, List.getElem?_eq_none (Nat.le_of_not_lt hlt)] at h
  cases h

/-- What a part of an analysis keeps of a stack. -/
structure Keeps (s t : Stack τ) : Prop where
  depth : t.depth = s.depth
  levels (place : Nat) (name : String) : t.levelsAt place name = s.levelsAt place name
  inStep : t.InStep

theorem InStep.keeps {s : Stack τ} (hs : s.InStep) : Keeps s s := ⟨rfl, fun _ _ ↦ rfl, hs⟩

theorem Keeps.trans {s t u : Stack τ} (h : Keeps s t) (h' : Keeps t u) : Keeps s u :=
  ⟨h'.depth.trans h.depth, fun k n ↦ (h'.levels k n).trans (h.levels k n), h'.inStep⟩

/-! ## Changing every scope -/

section
variable {s t : Stack τ} {g : Scope τ → Scope τ}

theorem levelAt_of_map (h : t.scopes = s.scopes.map g) (place : Nat) (name : String) :
    t.levelAt place name = s.scopes[place]?.elim none fun c ↦ (g c).current name := by
  rw [levelAt, h, List.getElem?_map]
  cases s.scopes[place]? <;> rfl

theorem levelsAt_of_map (h : t.scopes = s.scopes.map g) (place : Nat) (name : String) :
    t.levelsAt place name =
      s.scopes[place]?.elim (List.replicate t.depth none) fun c ↦ (g c).around name := by
  rw [levelsAt, h, List.getElem?_map]
  cases s.scopes[place]? <;> rfl

theorem InStep.of_map (hs : s.InStep) (h : t.scopes = s.scopes.map g)
    (hg : ∀ c : Scope τ, c.InStep → (g c).InStep)
    (hd : ∀ c : Scope τ, c.depth = s.depth → (g c).depth = t.depth) : t.InStep := by
  intro c hc
  rw [h] at hc
  obtain ⟨b, hb, rfl⟩ := List.mem_map.mp hc
  exact ⟨hg b (hs b hb).1, hd b (hs b hb).2⟩

end

/-! ## Entering a region or an arm -/

section
variable (s : Stack τ) (place : Nat) (name : String)

@[simp] theorem levelAt_pushLevel : s.pushLevel.levelAt place name = s.levelAt place name := by
  rw [levelAt_of_map s.scopes_pushLevel, levelAt]
  simp only [Scope.current_pushLevel]

@[simp] theorem levelsAt_pushLevel :
    s.pushLevel.levelsAt place name = s.levelAt place name :: s.levelsAt place name := by
  rw [levelsAt_of_map s.scopes_pushLevel, levelAt, levelsAt]
  cases s.scopes[place]? with
  | none => rfl
  | some c => exact c.around_pushLevel name

end

theorem InStep.pushLevel {s : Stack τ} (hs : s.InStep) : s.pushLevel.InStep :=
  hs.of_map s.scopes_pushLevel (fun _ h ↦ h.pushLevel) fun c h ↦ by
    rw [Scope.depth_pushLevel, h, depth_pushLevel]

/-! ## Leaving a region or an arm -/

section
variable {s t : Stack τ} {place : Nat} {name : String}

theorem Keeps.depth_ne_zero (h : Keeps s.pushLevel t) : t.depth ≠ 0 := by
  rw [h.depth, depth_pushLevel]
  exact Nat.succ_ne_zero s.depth

theorem InStep.popBreach?_eq_none (hs : s.InStep) (hd : s.depth ≠ 0) : s.popBreach? = none := by
  rw [popBreach?, List.findSome?_eq_none_iff]
  intro c hc
  obtain ⟨hin, hdc⟩ := hs c hc
  exact hin.popBreach?_eq_none (hdc ▸ hd)

theorem InStep.foldLevel (hs : s.InStep) (hd : s.depth ≠ 0) (mode : Mode) :
    s.foldLevel mode = .ok s.folded := by
  rw [foldLevel_eq_stop, hs.popBreach?_eq_none hd, Mode.stop_none]

theorem InStep.takeArms (hs : s.InStep) (hd : s.depth ≠ 0) (mode : Mode) :
    s.takeArms mode = .ok (s.lastArms, s.shed) := by
  rw [takeArms_eq_stop, hs.popBreach?_eq_none hd, Mode.stop_none]

/-- What is seen of a stack whose scopes all end a level is what is seen of each of them. -/
theorem view_of_map {keep : Level → Level → Level} {g : Scope τ → Scope τ} {l : Level}
    {outer : List Level} (ht : t.scopes = s.scopes.map g) (hd : t.depth = s.depth - 1)
    (hkeep : keep none none = none)
    (hg : ∀ c : Scope τ, s.scopes[place]? = some c → c.around name = l :: outer →
      (g c).current name = keep l (c.current name) ∧ (g c).around name = outer)
    (h : s.levelsAt place name = l :: outer) :
    t.levelAt place name = keep l (s.levelAt place name) ∧ t.levelsAt place name = outer := by
  rw [levelAt_of_map ht, levelsAt_of_map ht, hd]
  rw [levelsAt] at h
  rw [levelAt]
  cases hc : s.scopes[place]? with
  | none =>
    rw [hc] at h
    obtain ⟨rfl, rfl⟩ := Scope.replicate_of_around h
    exact ⟨hkeep.symm, rfl⟩
  | some c =>
    rw [hc] at h
    exact hg c hc h

theorem view_folded {l : Level} {outer : List Level} (hs : s.InStep) (hd : s.depth ≠ 0)
    (h : s.levelsAt place name = l :: outer) :
    s.folded.levelAt place name = Level.fold l (s.levelAt place name) ∧
      s.folded.levelsAt place name = outer :=
  view_of_map s.scopes_folded rfl rfl
    (fun _ hc hl ↦ Scope.view_folded ((hs.of_getElem? hc).2 ▸ hd) hl) h

theorem view_shed {l : Level} {outer : List Level} (hs : s.InStep) (hd : s.depth ≠ 0)
    (h : s.levelsAt place name = l :: outer) :
    s.shed.levelAt place name = l ∧ s.shed.levelsAt place name = outer :=
  @view_of_map τ s s.shed place name (fun l _ ↦ l) Scope.shed l outer s.scopes_shed rfl rfl
    (fun _ hc hl ↦ Scope.view_shed ((hs.of_getElem? hc).2 ▸ hd) hl) h

theorem Keeps.levels_eq_cons (h : Keeps s.pushLevel t) (place : Nat) (name : String) :
    t.levelsAt place name = s.levelAt place name :: s.levelsAt place name := by
  rw [h.levels, levelsAt_pushLevel]

/-- A region adds what it learned to what was known before it. -/
theorem Keeps.levelAt_folded (h : Keeps s.pushLevel t) (place : Nat) (name : String) :
    t.folded.levelAt place name = Level.fold (s.levelAt place name) (t.levelAt place name) :=
  (view_folded h.inStep h.depth_ne_zero (h.levels_eq_cons place name)).1

/-- An arm leaves no trace on what was known before it. -/
theorem Keeps.levelAt_shed (h : Keeps s.pushLevel t) (place : Nat) (name : String) :
    t.shed.levelAt place name = s.levelAt place name :=
  (view_shed h.inStep h.depth_ne_zero (h.levels_eq_cons place name)).1

theorem Keeps.folded (h : Keeps s.pushLevel t) : Keeps s t.folded where
  depth := by
    change t.depth - 1 = s.depth
    rw [h.depth, depth_pushLevel, Nat.add_sub_cancel]
  levels place name := (view_folded h.inStep h.depth_ne_zero (h.levels_eq_cons place name)).2
  inStep := h.inStep.of_map t.scopes_folded (fun _ hc ↦ hc.folded) fun c hc ↦ by
    rw [Scope.depth_folded, hc]
    rfl

theorem Keeps.shed (h : Keeps s.pushLevel t) : Keeps s t.shed where
  depth := by
    change t.depth - 1 = s.depth
    rw [h.depth, depth_pushLevel, Nat.add_sub_cancel]
  levels place name := (view_shed h.inStep h.depth_ne_zero (h.levels_eq_cons place name)).2
  inStep := h.inStep.of_map t.scopes_shed (fun _ hc ↦ hc.shed) fun c hc ↦ by
    rw [Scope.depth_shed, hc]
    rfl

end

/-! ## Joining -/

theorem InStep.keeps_joinArms {s : Stack τ} (hs : s.InStep) (arms : List (List Arm))
    (exhaustive : Bool) : Keeps s (s.joinArms arms exhaustive) where
  depth := rfl
  levels place name := by
    rw [levelsAt, levelsAt, scopes_joinArms, List.getElem?_mapIdx]
    cases s.scopes[place]? with
    | none => rfl
    | some c => exact Scope.around_joinArms _ exhaustive c name
  inStep := by
    intro c hc
    rw [scopes_joinArms] at hc
    obtain ⟨place, hlt, rfl⟩ := List.mem_mapIdx.mp hc
    obtain ⟨hin, hd⟩ := hs _ (List.getElem_mem hlt)
    exact ⟨hin.joinArms _ exhaustive, by rw [Scope.depth_joinArms, hd, depth_joinArms]⟩

theorem levelAt_joinArms (arms : List (List Arm)) (exhaustive : Bool) (s : Stack τ)
    (place : Nat) (name : String) :
    (s.joinArms arms exhaustive).levelAt place name =
      s.scopes[place]?.elim none fun c ↦
        (c.joinArms (armsAt arms place) exhaustive).current name := by
  rw [levelAt, scopes_joinArms, List.getElem?_mapIdx]
  cases s.scopes[place]? <;> rfl

theorem levelAt_joinArms_false (arms : List (List Arm)) (s : Stack τ) (place : Nat)
    (name : String) : (s.joinArms arms false).levelAt place name = s.levelAt place name :=
  levelAt_joinArms arms false s place name

/-- What a stack in step says of an arm is, place by place, what is known there. -/
theorem InStep.lastArms_getElem? {s : Stack τ} (hs : s.InStep) (hd : s.depth ≠ 0) {place : Nat}
    {c : Scope τ} (hc : s.scopes[place]? = some c) :
    s.lastArms[place]? = some c.knowledge := by
  rw [lastArms, List.getElem?_map, hc, Option.map_some, Scope.lastArm,
    if_neg ((hs.of_getElem? hc).2 ▸ hd)]

/-- After arms of which one is run, and which leave the scopes open that were open before
them, a name has a value at a place if it had one before them or has one after each. -/
theorem isSome_levelAt_joinArms {s : Stack τ} {ends : List (Stack τ)} (hne : ends ≠ [])
    (hends : ∀ t ∈ ends, t.InStep ∧ t.depth ≠ 0 ∧
      t.scopes.map Scope.names = s.scopes.map Scope.names) (place : Nat) (name : String) :
    ((s.joinArms (ends.map lastArms) true).levelAt place name).isSome ↔
      (s.levelAt place name).isSome ∨ ∀ t ∈ ends, (t.levelAt place name).isSome := by
  rw [levelAt_joinArms, levelAt]
  cases hc : s.scopes[place]? with
  | none =>
    obtain ⟨t, ht⟩ := List.exists_mem_of_ne_nil ends hne
    have hlen : t.scopes.length = s.scopes.length := by
      simpa using congrArg List.length (hends t ht).2.2
    refine iff_of_false Bool.false_ne_true ?_
    rintro (h | h)
    · cases h
    · exact absurd (hlen ▸ lt_of_isSome_levelAt (h t ht))
        (Nat.not_lt.mpr (List.getElem?_eq_none_iff.mp hc))
  | some c =>
    -- Every arm has the scope of this place, and says of it what it knows at its end.
    have hat : ∀ t ∈ ends, ∃ b : Scope τ, t.lastArms[place]? = some b.knowledge ∧ b.InStep ∧
        b.names = c.names ∧ t.levelAt place name = b.current name := by
      intro t ht
      obtain ⟨hin, hd, hnames⟩ := hends t ht
      have hb : (t.scopes[place]?).map Scope.names = some c.names := by
        rw [← List.getElem?_map, hnames, List.getElem?_map, hc, Option.map_some]
      obtain ⟨b, hb, hn⟩ := Option.map_eq_some_iff.mp hb
      exact ⟨b, hin.lastArms_getElem? hd hb, (hin.of_getElem? hb).1, hn, by rw [levelAt, hb]; rfl⟩
    have hmem : ∀ a, a ∈ armsAt (ends.map lastArms) place ↔
        ∃ t ∈ ends, t.lastArms[place]? = some a := by
      intro a
      simp [armsAt]
    rw [Option.elim_some, Option.elim_some, Scope.isSome_current_joinArms]
    · refine or_congr_right ⟨fun h t ht ↦ ?_, fun h a ha ↦ ?_⟩
      · obtain ⟨b, hb, hin, -, hl⟩ := hat t ht
        rw [hl]
        exact hin.knows_knowledge.mp (h _ ((hmem _).mpr ⟨t, ht, hb⟩))
      · obtain ⟨t, ht, ha⟩ := (hmem a).mp ha
        obtain ⟨b, hb, hin, -, hl⟩ := hat t ht
        rw [ha] at hb
        cases hb
        rw [hin.knows_knowledge, ← hl]
        exact h t ht
    · obtain ⟨t, ht⟩ := List.exists_mem_of_ne_nil ends hne
      obtain ⟨b, hb, -⟩ := hat t ht
      exact List.ne_nil_of_mem ((hmem _).mpr ⟨t, ht, hb⟩)
    · intro a ha hk
      obtain ⟨t, ht, ha⟩ := (hmem a).mp ha
      obtain ⟨b, hb, hin, hn, -⟩ := hat t ht
      rw [ha] at hb
      cases hb
      rw [← hn]
      by_contra hnot
      rw [hin.knows_knowledge, Scope.current_of_notMem hnot] at hk
      cases hk

/-! ## Opening and closing scopes -/

section
variable {s t : Stack τ}

/-- A scope that was just opened shows what a place without a scope shows. -/
theorem elim_openScope {β : Type} (s : Stack τ) (place : Nat) {outside : β} {f : Scope τ → β}
    (hf : f (.opened s.depth) = outside) :
    s.openScope.scopes[place]?.elim outside f = s.scopes[place]?.elim outside f := by
  rw [scopes_openScope, List.getElem?_append]
  split
  · rfl
  · next h =>
    rw [List.getElem?_eq_none (Nat.le_of_not_lt h), List.getElem?_singleton]
    split
    · exact hf
    · rfl

theorem levelAt_openScope (s : Stack τ) (place : Nat) (name : String) :
    s.openScope.levelAt place name = s.levelAt place name :=
  s.elim_openScope place rfl

theorem levelsAt_openScope (s : Stack τ) (place : Nat) (name : String) :
    s.openScope.levelsAt place name = s.levelsAt place name :=
  s.elim_openScope place rfl

theorem InStep.keeps_openScope (hs : s.InStep) : Keeps s s.openScope where
  depth := rfl
  levels := s.levelsAt_openScope
  inStep := by
    intro c hc
    rw [scopes_openScope, List.mem_append, List.mem_singleton] at hc
    rcases hc with hc | rfl
    · exact hs c hc
    · exact ⟨Scope.inStep_opened s.depth, rfl⟩

/-- The scopes that stay open when the innermost one is closed. -/
theorem scopes_of_closeScope? {ω : Type} [Sink ω] {sink out : ω} {closed : Scope τ}
    (h : s.closeScope? sink = some (closed, t, out)) :
    closed = s.current ∧ t.scopes = s.enclosing ∧ t.depth = s.depth ∧ t.counter = s.counter := by
  obtain ⟨outer, hl, h⟩ := Option.map_eq_some_iff.mp h
  cases h
  refine ⟨rfl, ?_, rfl, rfl⟩
  exact List.dropLast_append_getLast? outer hl

theorem levelAt_of_closeScope? {ω : Type} [Sink ω] {sink out : ω} {closed : Scope τ}
    (h : s.closeScope? sink = some (closed, t, out)) (place : Nat) (name : String) :
    t.levelAt place name = if place < s.enclosing.length then s.levelAt place name else none := by
  obtain ⟨-, ht, -⟩ := scopes_of_closeScope? h
  rw [levelAt, ht, levelAt, scopes, List.getElem?_append]
  split
  · rfl
  · next hlt => rw [List.getElem?_eq_none (Nat.le_of_not_lt hlt)]; rfl

theorem InStep.of_closeScope? {ω : Type} [Sink ω] {sink out : ω} {closed : Scope τ}
    (hs : s.InStep) (h : s.closeScope? sink = some (closed, t, out)) : t.InStep := by
  obtain ⟨-, hscopes, hd, -⟩ := scopes_of_closeScope? h
  intro c hc
  rw [hscopes] at hc
  rw [hd]
  exact hs c (List.mem_append_left _ hc)

/-- A scope that was opened and worked in leaves no trace on the levels when it closes. -/
theorem Keeps.closeScope? {u : Stack τ} {ω : Type} [Sink ω] {sink out : ω} {closed : Scope τ}
    (h : Keeps s.openScope t) (hlen : t.enclosing.length = s.scopes.length)
    (hu : t.closeScope? sink = some (closed, u, out)) : Keeps s u := by
  obtain ⟨-, hscopes, hd, -⟩ := scopes_of_closeScope? hu
  have hdu : u.depth = s.depth := hd.trans h.depth
  refine ⟨hdu, fun place name ↦ ?_, h.inStep.of_closeScope? hu⟩
  rcases Nat.lt_or_ge place s.scopes.length with hlt | hge
  · have hut : u.levelsAt place name = t.levelsAt place name := by
      rw [levelsAt, levelsAt, hscopes, hd, scopes, List.getElem?_append_left (hlen ▸ hlt)]
    rw [hut, h.levels, levelsAt_openScope]
  -- No scope is open at the place any more, as none was at first.
  · rw [levelsAt, levelsAt, hscopes, hdu, List.getElem?_eq_none (hlen ▸ hge),
      List.getElem?_eq_none hge]

end

end DefiniteAssignment.Stack
