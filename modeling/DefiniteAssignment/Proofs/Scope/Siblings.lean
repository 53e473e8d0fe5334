import DefiniteAssignment.Proofs.Scope.Traces

/-!
# Sibling arms

Two arms of one branch are walked through one after the other, so the second finds the scope as
the first left it. It does not matter which of them is the first. An arm that ends as many
regions as it enters, and joins only arms that it took itself, gives back every level that was
there before it, so that the scope it leaves behind is the one it found with traces on it, which
the other arm does not look at.

That the levels are given back is shown by an induction on the body of the arm, for a scope that
is found above another one, and that the answers do not depend on traces by another one, for two
scopes at once. The two are put together for both sequences of the arms, and the traces add up
to the same.
-/

namespace DefiniteAssignment

variable {τ α ω : Type}

/-- Means one of the arms that are kept under some labels, or the one that knows nothing. -/
def ArmRef.Among (labels : List String) : ArmRef → Prop
  | .nothing => True
  | .kept label _ => label ∈ labels

namespace Scope

/-! ## Bodies -/

/-- An operation that gives variables their values, takes them or asks for them, where those of
the names `bound` are there, and the arms of the labels `taken` can be joined. -/
def Op.Touches (bound taken : List String) : Op τ → Prop
  | .call _ c => c.touches
  | .demand name c => name ∈ bound ∧ c.touches
  | .setAll _ => True
  | .joinArms refs _ => ∀ ref ∈ refs, ref.Among taken
  | _ => False

/-- What may be done in an arm while `n` levels are pushed in it and the arms of the labels
`taken` have been taken in it. In the end all its levels are popped. -/
inductive Body (bound : List String) : Nat → List String → List (Op τ) → Prop
  | nil {taken : List String} : Body bound 0 taken []
  | touch {n : Nat} {taken : List String} {op : Op τ} {ops : List (Op τ)} :
      op.Touches bound taken → Body bound n taken ops → Body bound n taken (op :: ops)
  | pushLevel {n : Nat} {taken : List String} {ops : List (Op τ)} :
      Body bound (n + 1) taken ops → Body bound n taken (.pushLevel :: ops)
  | foldLevel {n : Nat} {taken : List String} {ops : List (Op τ)} :
      Body bound n taken ops → Body bound (n + 1) taken (.foldLevel :: ops)
  | takeArm {n : Nat} {taken : List String} {ops : List (Op τ)} (label : String) :
      Body bound n (label :: taken) ops → Body bound (n + 1) taken (.takeArm label :: ops)

/-- An arm: its body at a level of its own, which is taken under a label. -/
def armOf (body : List (Op τ)) (label : String) : List (Op τ) :=
  .pushLevel :: (body ++ [.takeArm label])

section
variable {bound taken : List String} {n : Nat} {ops : List (Op τ)}

theorem Body.append_takeArm (h : Body bound n taken ops) (label : String) :
    Body bound (n + 1) taken (ops ++ [.takeArm label]) := by
  induction h with
  | nil => exact .takeArm label .nil
  | touch hop _ ih => exact .touch hop ih
  | pushLevel _ ih => exact .pushLevel ih
  | foldLevel _ ih => exact .foldLevel ih
  | takeArm inner _ ih => exact .takeArm inner ih

/-- An arm may itself be part of a body. -/
theorem Body.enclosed (h : Body bound 0 taken ops) (label : String) :
    Body bound 0 taken (armOf ops label) := .pushLevel (h.append_takeArm label)

end

/-! ## An arm gives back what it found -/

/-- How a body finds a scope that was entered from `s`. -/
structure Within (s z : Scope τ) : Prop extends Above s z where
  identities_eq : z.identities = s.identities
  size_eq : z.size = s.size

section
variable {s t z : Scope τ}

theorem Within.frame (h : Within s z) (hf : Frame z t) : Within s t :=
  ⟨h.grows hf.grows, hf.identities.trans h.identities_eq, hf.size.trans h.size_eq⟩

theorem Within.pushLevel (h : Within s z) : Within s z.pushLevel :=
  ⟨h.toAbove.pushLevel, z.identities_pushLevel.trans h.identities_eq, h.size_eq⟩

theorem Within.folded (h : Within s z) (hs : s.InStep) (hdepth : s.depth < z.folded.depth) :
    Within s z.folded :=
  ⟨h.toAbove.folded hs hdepth, z.identities_folded.trans h.identities_eq,
    z.size_folded.trans h.size_eq⟩

theorem Within.shed (h : Within s z) (hs : s.InStep) (hdepth : s.depth < z.shed.depth) :
    Within s z.shed :=
  ⟨h.toAbove.shed hs hdepth, z.identities_shed.trans h.identities_eq,
    z.size_shed.trans h.size_eq⟩

/-- Where nothing but the current level lies above, the scope was only worked on. -/
theorem Within.frame_pushLevel (h : Within s z) (hs : s.InStep) (hdepth : z.depth = s.depth + 1) :
    Frame s.pushLevel z where
  identities := h.identities_eq.trans s.identities_pushLevel.symm
  depth := hdepth
  size := h.size_eq
  around := (h.grows_pushLevel hs hdepth).around
  inStep := (h.grows_pushLevel hs hdepth).inStep

end

section
variable [Storable τ] [Allocator α] [Sink ω] {bound taken : List String} {n : Nat}
  {ops : List (Op τ)}

/-- What touches variables is always carried through, at the current level alone. -/
theorem InStep.exists_step_of_touches {x : Session τ α ω} {op : Op τ} (mode : Mode)
    (hx : x.scope.InStep) (hbound : ∀ name ∈ bound, x.scope.contains name)
    (hop : op.Touches bound taken) :
    ∃ r y, x.step mode op = .ok (r, y) ∧ Frame x.scope y.scope := by
  cases op with
  | call name c =>
    have hc := Variable.Call.movesLevel_of_touches hop
    obtain ⟨p, hp⟩ : ∃ p, x.scope.call mode name c = .ok p := by
      cases hv : x.scope.find? name with
      | none => exact ⟨_, call_of_find?_eq_none hv⟩
      | some v =>
        obtain ⟨q, hq⟩ := v.exists_call_of_movesLevel_eq_false mode hc
        exact ⟨_, by rw [call_of_find?_eq_some hv, hq]; rfl⟩
    refine ⟨_, _, by rw [Session.step, hp]; rfl, hx.frame_call hc hp⟩
  | demand name c =>
    have hc := Variable.Call.movesLevel_of_touches hop.2
    obtain ⟨v, hv⟩ := Option.isSome_iff_exists.mp (hbound name hop.1)
    obtain ⟨q, hq⟩ := v.exists_call_of_movesLevel_eq_false mode hc
    have hp : x.scope.demand mode name c = .ok (q.1, x.scope.set name q.2) := by
      rw [demand_of_find?_eq_some mode c hv, hq]
      rfl
    exact ⟨_, _, by rw [Session.step, hp]; rfl, hx.frame_call hc (call_of_demand hp)⟩
  | setAll initial => exact ⟨_, _, rfl, hx.frame_setAll initial⟩
  | joinArms refs exhaustive => exact ⟨_, _, rfl, frame_joinArms _ exhaustive x.scope⟩
  | _ => cases hop

theorem InStep.step_takeArm {x : Session τ α ω} (mode : Mode) (hx : x.scope.InStep)
    (label : String) (hd : x.scope.depth ≠ 0) :
    x.step mode (.takeArm label) = .ok (.arm x.scope.knowledge,
      { x with scope := x.scope.shed, shelf := x.shelf.keep label [x.scope.knowledge] }) := by
  rw [Session.step, hx.takeArm hd]
  rfl

/-- A body is carried through from every scope above `s` that has its levels pushed, and pops
them all. -/
theorem Body.exists_run (h : Body bound n taken ops) {s : Scope τ} {x : Session τ α ω}
    (mode : Mode) (hs : s.InStep) (hbound : ∀ name ∈ bound, s.contains name)
    (hx : Within s x.scope) (hdepth : x.scope.depth = s.depth + 1 + n) :
    ∃ rs y, x.run mode ops = .ok (rs, y) ∧ Within s y.scope ∧ y.scope.depth = s.depth + 1 := by
  induction h generalizing x with
  | nil => exact ⟨[], x, rfl, hx, hdepth⟩
  | touch hop _ ih =>
    have hxbound : ∀ name ∈ bound, x.scope.contains name := by
      intro name hn
      rw [← mem_names_iff, names_congr hx.identities_eq, mem_names_iff]
      exact hbound name hn
    obtain ⟨r, y, hstep, hframe⟩ := hx.inStep.exists_step_of_touches mode hxbound hop
    obtain ⟨rs, z, hrun, hz⟩ := ih (hx.frame hframe) (hframe.depth.trans hdepth)
    exact ⟨r :: rs, z, Session.run_cons_eq_ok_iff.mpr ⟨r, y, rs, hstep, hrun, rfl⟩, hz⟩
  | pushLevel _ ih =>
    obtain ⟨rs, z, hrun, hz⟩ := ih (x := { x with scope := x.scope.pushLevel }) hx.pushLevel
      (congrArg (· + 1) hdepth)
    exact ⟨.done :: rs, z, Session.run_cons_eq_ok_iff.mpr ⟨_, _, rs, rfl, hrun, rfl⟩, hz⟩
  | @foldLevel n _ _ _ ih =>
    have hd : x.scope.depth ≠ 0 := by omega
    have hfolded : x.scope.folded.depth = s.depth + 1 + n := by
      rw [depth_folded, hdepth]
      rfl
    obtain ⟨rs, z, hrun, hz⟩ := ih (x := { x with scope := x.scope.folded })
      (hx.folded hs (by omega)) hfolded
    have hstep : x.step mode .foldLevel = .ok (.done, { x with scope := x.scope.folded }) := by
      rw [Session.step, hx.inStep.foldLevel hd]
      rfl
    exact ⟨.done :: rs, z, Session.run_cons_eq_ok_iff.mpr ⟨_, _, rs, hstep, hrun, rfl⟩, hz⟩
  | @takeArm n _ _ label _ ih =>
    have hd : x.scope.depth ≠ 0 := by omega
    have hshed : x.scope.shed.depth = s.depth + 1 + n := by
      rw [depth_shed, hdepth]
      rfl
    obtain ⟨rs, z, hrun, hz⟩ := ih
      (x := { x with scope := x.scope.shed, shelf := x.shelf.keep label [x.scope.knowledge] })
      (hx.shed hs (by omega)) hshed
    exact ⟨.arm x.scope.knowledge :: rs, z, Session.run_cons_eq_ok_iff.mpr
      ⟨_, _, rs, hx.inStep.step_takeArm mode label hd, hrun, rfl⟩, hz⟩

/-- An arm is carried through, and gives back all that was known before it, and all that lay
around that. -/
theorem Body.exists_run_arm {x : Session τ α ω} {body : List (Op τ)} (mode : Mode)
    (hx : x.scope.InStep) (h : Body x.scope.names 0 [] body) (label : String) :
    ∃ rs arm y, x.run mode (armOf body label) = .ok (rs ++ [.arm arm], y) ∧
      Frame x.scope y.scope ∧ ∀ name, y.scope.current name = x.scope.current name := by
  have hentered : Within x.scope x.scope.pushLevel :=
    ⟨hx.above_pushLevel, x.scope.identities_pushLevel, rfl⟩
  obtain ⟨rs, z, hrun, hz, hdepth⟩ := h.exists_run (x := { x with scope := x.scope.pushLevel })
    mode hx (fun name ↦ mem_names_iff.mp) hentered rfl
  have hd : z.scope.depth ≠ 0 := by omega
  have hframe := hz.frame_pushLevel hx hdepth
  refine ⟨.done :: rs, z.scope.knowledge,
    { z with scope := z.scope.shed, shelf := z.shelf.keep label [z.scope.knowledge] }, ?_,
    hframe.shed, hframe.grows.current_shed⟩
  refine Session.run_cons_eq_ok_iff.mpr
    ⟨.done, { x with scope := x.scope.pushLevel }, rs ++ [.arm z.scope.knowledge], rfl, ?_, rfl⟩
  exact Session.run_concat_eq_ok_iff.mpr
    ⟨rs, z, .arm z.scope.knowledge, hrun, hz.inStep.step_takeArm mode label hd, rfl⟩

end

/-! ## Traces change no answer -/

/-- The second session goes on like the first, from a scope with traces on it, and has the same
arms under some labels. -/
structure Session.Trails (m : String → Bool) (taken : List String) (x y : Session τ α ω) :
    Prop where
  scope : Scope.Trails m x.scope y.scope
  shelf : ∀ label ∈ taken, y.shelf.arms label = x.shelf.arms label

section
variable {m : String → Bool} {x y : Session τ α ω} {bound taken : List String} {n : Nat}
  {ops : List (Op τ)}

theorem Session.Trails.arm_eq (h : Session.Trails m taken x y) {ref : ArmRef}
    (href : ref.Among taken) : y.shelf.arm ref = x.shelf.arm ref := by
  cases ref with
  | nothing => rfl
  | kept label index => rw [Shelf.arm, Shelf.arm, h.shelf label href]

theorem Session.Trails.arms_keep (h : Session.Trails m taken x y) (label : String) (a : Arm) :
    ∀ other ∈ label :: taken,
      (y.shelf.keep label [a]).arms other = (x.shelf.keep label [a]).arms other := by
  intro other hother
  by_cases hl : other = label
  · rw [hl, Shelf.arms_keep_self, Shelf.arms_keep_self]
  · rw [Shelf.arms_keep_of_ne _ _ hl, Shelf.arms_keep_of_ne _ _ hl]
    exact h.shelf other ((List.mem_cons.mp hother).resolve_left hl)

variable [Storable τ] [Allocator α] [Sink ω] {mode : Mode}

theorem Session.Trails.step (h : Session.Trails m taken x y) (mode : Mode) {op : Op τ}
    (hop : op.Touches bound taken) :
    Matched (fun p p' ↦ p'.1 = p.1 ∧ Session.Trails m taken p.2 p'.2)
      (x.step mode op) (y.step mode op) := by
  cases op with
  | call name c =>
    refine (h.scope.call mode name hop).bind ?_
    rintro ⟨q, s⟩ ⟨_, t⟩ ⟨rfl, hst⟩
    exact ⟨rfl, hst, h.shelf⟩
  | demand name c =>
    refine (h.scope.demand mode name hop.2).bind ?_
    rintro ⟨q, s⟩ ⟨_, t⟩ ⟨rfl, hst⟩
    exact ⟨rfl, hst, h.shelf⟩
  | setAll initial => exact ⟨rfl, h.scope.setAll initial, h.shelf⟩
  | joinArms refs exhaustive =>
    have harms : refs.map y.shelf.arm = refs.map x.shelf.arm :=
      List.map_congr_left fun ref href ↦ h.arm_eq (hop ref href)
    have hjoin := h.scope.joinArms (refs.map x.shelf.arm) exhaustive
    refine ⟨rfl, ?_, h.shelf⟩
    rwa [← harms] at hjoin ⊢
  | _ => cases hop

/-- Two steps that are answered alike, and what follows them. -/
theorem Session.matched_run_cons {op : Op τ}
    (hstep : Matched (fun p p' ↦ p'.1 = p.1 ∧ Session.Trails m taken p.2 p'.2)
      (x.step mode op) (y.step mode op))
    (hrun : ∀ {x y : Session τ α ω}, Session.Trails m taken x y →
      Matched (fun p p' ↦ p'.1 = p.1 ∧ Scope.Trails m p.2.scope p'.2.scope)
        (x.run mode ops) (y.run mode ops)) :
    Matched (fun p p' ↦ p'.1 = p.1 ∧ Scope.Trails m p.2.scope p'.2.scope)
      (x.run mode (op :: ops)) (y.run mode (op :: ops)) := by
  rw [Session.run_cons, Session.run_cons]
  refine hstep.bind ?_
  rintro ⟨r, x'⟩ ⟨_, y'⟩ ⟨rfl, h⟩
  refine (hrun h).bind ?_
  rintro ⟨rs, z⟩ ⟨_, z'⟩ ⟨rfl, hz⟩
  exact ⟨rfl, hz⟩

/-- Two runs of a body, the second from a scope with traces on it, are answered alike, and leave
the second scope with the same traces. -/
theorem Body.matched_run (h : Body bound n taken ops) (mode : Mode)
    (hxy : Session.Trails m taken x y) :
    Matched (fun p p' ↦ p'.1 = p.1 ∧ Scope.Trails m p.2.scope p'.2.scope)
      (x.run mode ops) (y.run mode ops) := by
  induction h generalizing x y with
  | nil => exact ⟨rfl, hxy.scope⟩
  | touch hop _ ih => exact Session.matched_run_cons (hxy.step mode hop) ih
  | pushLevel _ ih =>
    exact Session.matched_run_cons ⟨rfl, hxy.scope.pushLevel, hxy.shelf⟩ ih
  | foldLevel _ ih =>
    refine Session.matched_run_cons ?_ ih
    simp only [Session.step, foldLevel_eq_stop, Mode.bind_stop, hxy.scope.popBreach?_eq]
    exact matched_stop mode _ ⟨rfl, hxy.scope.folded, hxy.shelf⟩
  | takeArm label _ ih =>
    refine Session.matched_run_cons ?_ ih
    simp only [Session.step, takeArm_eq_stop, Mode.bind_stop, hxy.scope.popBreach?_eq,
      hxy.scope.lastArm_eq]
    exact matched_stop mode _ ⟨rfl, hxy.scope.shed, hxy.arms_keep label _⟩

/-- What a body answers does not depend on traces. -/
theorem Body.exists_run_of_trails {z : Session τ α ω} {rs : List (Reply τ)}
    (h : Body bound n [] ops) (hxy : Scope.Trails m x.scope y.scope)
    (hrun : x.run mode ops = .ok (rs, z)) :
    ∃ w, y.run mode ops = .ok (rs, w) ∧ Scope.Trails m z.scope w.scope := by
  have hmatched := h.matched_run mode ⟨hxy, fun _ hl ↦ absurd hl List.not_mem_nil⟩
  rcases hmatched.cases with ⟨e, hx, -⟩ | ⟨p, ⟨qs, w⟩, hx, hy, hq, hw⟩
  · rw [hx] at hrun
    cases hrun
  · rw [hx] at hrun
    cases hrun
    cases hq
    exact ⟨w, hy, hw⟩

end

/-! ## Two arms -/

variable [Storable τ] [Allocator α] [Sink ω] {mode : Mode} {x : Session τ α ω}

/-- An arm leaves nothing behind but traces. -/
theorem Body.exists_arm {body : List (Op τ)} (h : Body x.scope.names 0 [] body) (mode : Mode)
    (hx : x.scope.InStep) (label : String) :
    ∃ rs arm y, x.run mode (armOf body label) = .ok (rs ++ [.arm arm], y) ∧
      Trails y.scope.mutated x.scope y.scope := by
  obtain ⟨rs, arm, y, hrun, hframe, hcurrent⟩ := h.exists_run_arm mode hx label
  -- What was mutated before may be marked as mutated without a difference, and then still is so.
  obtain ⟨z, hz, hkept⟩ := (h.enclosed label).exists_run_of_trails (trails_mutated hx.nodup) hrun
  rw [hrun] at hz
  cases hz
  exact ⟨rs, arm, y, hrun, hframe.trails hx hcurrent fun v ↦ mutated_of_trails hkept⟩

/-- Sibling arms do not see each other. Two bodies are given for a scope that came about without
moving the levels of a single variable. Each gives variables their values, takes them and asks
for them, enters regions, which it ends, and takes arms, of which it joins those it took. The
arms with these bodies can be walked through in either sequence. Both sequences end well. All
operations in the two bodies are answered alike in both, and the same is known in each arm at
its end. The scopes that are left differ at most in the orders of first values, so that joining
the two arms gives a value to the same variables. -/
theorem sibling_arms_do_not_see_each_other (hx : x.scope.Reached mode)
    {body₁ body₂ : List (Op τ)} (h₁ : Body x.scope.names 0 [] body₁)
    (h₂ : Body x.scope.names 0 [] body₂) (label₁ label₂ : String) :
    ∃ rs₁ arm₁ rs₂ arm₂ x₁ x₂ y y',
      x.run mode (armOf body₁ label₁) = .ok (rs₁ ++ [.arm arm₁], x₁) ∧
      x₁.run mode (armOf body₂ label₂) = .ok (rs₂ ++ [.arm arm₂], y) ∧
      x.run mode (armOf body₂ label₂) = .ok (rs₂ ++ [.arm arm₂], x₂) ∧
      x₂.run mode (armOf body₁ label₁) = .ok (rs₁ ++ [.arm arm₁], y') ∧
      y'.scope.undated = y.scope.undated ∧
      ∀ exhaustive, (y'.scope.joinArms [arm₂, arm₁] exhaustive).initializedNames =
        (y.scope.joinArms [arm₁, arm₂] exhaustive).initializedNames := by
  obtain ⟨rs₁, arm₁, x₁, hrun₁, htrails₁⟩ := h₁.exists_arm mode hx.inStep label₁
  obtain ⟨rs₂, arm₂, x₂, hrun₂, htrails₂⟩ := h₂.exists_arm mode hx.inStep label₂
  obtain ⟨y, hy, htrails⟩ := (h₂.enclosed label₂).exists_run_of_trails htrails₁ hrun₂
  obtain ⟨y', hy', htrails'⟩ := (h₁.enclosed label₁).exists_run_of_trails htrails₂ hrun₁
  have hboth := htrails₂.trans htrails
  have hboth' := htrails₁.trans htrails'
  refine ⟨rs₁, arm₁, rs₂, arm₂, x₁, x₂, y, y', hrun₁, hy, hrun₂, hy', ?_, fun exhaustive ↦ ?_⟩
  · rw [hboth', hboth]
    simp only [Bool.or_comm]
  · have hswapped := Arm.rearranged_of_perm (List.Perm.swap arm₂ arm₁ [])
    rw [(hboth'.joinArms _ exhaustive).initializedNames_eq,
      (hboth.joinArms _ exhaustive).initializedNames_eq]
    exact x.scope.initializedNames_joinArms_rearranged exhaustive hswapped

/-- Both arms give `y` its first value, in the one inside of an arm of its own, and both mutate
`x`. The second finds `z` without a value in either sequence. What the arms leave differs in the
first order of `y` alone. -/
theorem arms_walked_in_both_sequences :
    let d (name : String) : Declaration Layout := ⟨name, ⟨1, false⟩, false, default⟩
    let x : Session Layout SlotCounter Log := ⟨⟨[(Variable.fresh (d "x") ⟨0⟩ false 0).define 1,
      .fresh (d "y") ⟨1⟩ false 0, .fresh (d "z") ⟨2⟩ false 0], 0, 0⟩, {}, .empty, .empty⟩
    let body₁ : List (Op Layout) :=
      [.demand "x" (.assign 2 default), .pushLevel, .call "y" (.define 3), .takeArm "inner",
        .joinArms [.kept "inner" 0] true, .demand "z" (.assign 4 default)]
    let body₂ : List (Op Layout) :=
      [.demand "z" (.ensureInitialized default), .pushLevel, .setAll true, .foldLevel,
        .demand "x" (.assign 5 default), .demand "z" .undefine]
    x.scope.Reached .strict ∧ Body x.scope.names 0 [] body₁ ∧ Body x.scope.names 0 [] body₂ ∧
      ∃ rs₁ arm₁ rs₂ arm₂ x₁ x₂ y y',
        x.run .strict (armOf body₁ "then") = .ok (rs₁ ++ [.arm arm₁], x₁) ∧
        x₁.run .strict (armOf body₂ "else") = .ok (rs₂ ++ [.arm arm₂], y) ∧
        x.run .strict (armOf body₂ "else") = .ok (rs₂ ++ [.arm arm₂], x₂) ∧
        x₂.run .strict (armOf body₁ "then") = .ok (rs₁ ++ [.arm arm₁], y') ∧
        y'.scope.undated = y.scope.undated ∧
        y.scope.bindings.map (·.firstOrder) = [some 1, some 3, some 4] ∧
        y'.scope.bindings.map (·.firstOrder) = [some 1, some 0, some 0] ∧
        (y'.scope.joinArms [arm₂, arm₁] true).initializedNames = ["x", "y"] := by
  intro d x body₁ body₂
  have hx : x.scope.Reached .strict := by
    let start : Session Layout SlotCounter Log := ⟨.opened 0, {}, .empty, .empty⟩
    obtain ⟨rs, y, hrun, hy⟩ : ∃ rs y, start.run .strict [.declareAt (d "x") ⟨0⟩ false,
        .declareAt (d "y") ⟨1⟩ false, .declareAt (d "z") ⟨2⟩ false, .call "x" (.define 1)] =
        .ok (rs, y) ∧ y.scope = x.scope := ⟨_, _, rfl, rfl⟩
    exact hy ▸ Reached.of_run (.opened 0) (by decide) hrun
  have h₁ : Body x.scope.names 0 [] body₁ := by
    refine .touch ⟨by decide, rfl⟩ (.pushLevel (.touch rfl (.takeArm "inner" (.touch ?_
      (.touch ⟨by decide, rfl⟩ .nil)))))
    simp [Op.Touches, ArmRef.Among]
  have h₂ : Body x.scope.names 0 [] body₂ :=
    .touch ⟨by decide, rfl⟩ (.pushLevel (.touch trivial (.foldLevel
      (.touch ⟨by decide, rfl⟩ (.touch ⟨by decide, rfl⟩ .nil)))))
  obtain ⟨rs₁, arm₁, rs₂, arm₂, x₁, x₂, y, y', hrun₁, hy, hrun₂, hy', hundated, hjoin⟩ :=
    sibling_arms_do_not_see_each_other hx h₁ h₂ "then" "else"
  let inner : Arm := ⟨[("x", 2), ("y", 3)]⟩
  let known₁ : Arm := ⟨[("x", 2), ("y", 3), ("z", 4)]⟩
  let known₂ : Arm := ⟨[("x", 5), ("y", 0)]⟩
  let left (y z : Order) (shelf : Shelf) : Session Layout SlotCounter Log :=
    ⟨⟨[{ Variable.fresh (d "x") ⟨0⟩ false 0 with
          mutated := true, current := some 1, firstOrder := some 1 },
        { Variable.fresh (d "y") ⟨1⟩ false 0 with firstOrder := some y },
        { Variable.fresh (d "z") ⟨2⟩ false 0 with firstOrder := some z }], 0, 0⟩, {}, shelf, .empty⟩
  let shelf₁ := (Shelf.empty.keep "inner" [inner]).keep "then" [known₁]
  let shelf₂ := Shelf.empty.keep "else" [known₂]
  obtain ⟨qs₁, hz₁, hlast₁⟩ : ∃ qs, x.run .strict (armOf body₁ "then") =
      .ok (qs, left 3 4 shelf₁) ∧ qs.getLast? = some (.arm known₁) := ⟨_, rfl, rfl⟩
  obtain ⟨qs₂, hz₂, hlast₂⟩ : ∃ qs, x.run .strict (armOf body₂ "else") =
      .ok (qs, left 0 0 shelf₂) ∧ qs.getLast? = some (.arm known₂) := ⟨_, rfl, rfl⟩
  obtain ⟨qs, hz⟩ : ∃ qs, (left 3 4 shelf₁).run .strict (armOf body₂ "else") =
      .ok (qs, left 3 4 (shelf₁.keep "else" [known₂])) := ⟨_, rfl⟩
  obtain ⟨qs', hz'⟩ : ∃ qs, (left 0 0 shelf₂).run .strict (armOf body₁ "then") =
      .ok (qs, left 0 0 ((shelf₂.keep "inner" [inner]).keep "then" [known₁])) := ⟨_, rfl⟩
  refine ⟨hx, h₁, h₂, rs₁, arm₁, rs₂, arm₂, x₁, x₂, y, y', hrun₁, hy, hrun₂, hy', hundated, ?_⟩
  obtain ⟨rfl, rfl⟩ := Prod.mk.inj (Except.ok.inj (hz₁.symm.trans hrun₁))
  obtain ⟨rfl, rfl⟩ := Prod.mk.inj (Except.ok.inj (hz₂.symm.trans hrun₂))
  obtain ⟨-, rfl⟩ := Prod.mk.inj (Except.ok.inj (hz.symm.trans hy))
  obtain ⟨-, rfl⟩ := Prod.mk.inj (Except.ok.inj (hz'.symm.trans hy'))
  rw [List.getLast?_concat] at hlast₁ hlast₂
  obtain rfl : arm₁ = known₁ := Reply.arm.inj (Option.some.inj hlast₁)
  obtain rfl : arm₂ = known₂ := Reply.arm.inj (Option.some.inj hlast₂)
  exact ⟨rfl, rfl, (hjoin true).trans rfl⟩

end Scope

end DefiniteAssignment
