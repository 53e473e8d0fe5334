import DefiniteAssignment.Proofs.Scope.Growth
import Mathlib.Data.List.Forall2
import Mathlib.Data.List.Infix

/-!
# What lies below a region

A region is entered by pushing a level, and as long as no more levels are popped than were
pushed since, whatever is done happens above that level. What lies below it is not touched: not
by calls and joins, which write at the current level, not by folding, which writes one level
below the current one, and not by declarations, which come with levels of their own at which
nothing is known. So the region can be closed in either way at any time, and is closed upon
what was there when it was entered.

Names that are not bound count as unknown at every level, so one statement about names covers
the variables that were there and those that are declared inside of the region. It is carried
along by one lemma for each way in which an operation moves levels.
-/

namespace DefiniteAssignment

variable {τ α ω : Type}

namespace Variable

/-- Levels that lie around the current one, down to the base, are the lowest of all. -/
theorem take_levels {w : Variable τ} {ls : List Level} (h : ls <:+ w.enclosing) :
    ls.length < w.depth ∧ w.levels.take ls.length = ls.reverse := by
  have hprefix : ls.reverse <+: w.levels :=
    (List.reverse_prefix.mpr h).trans (List.prefix_append _ _)
  refine ⟨Nat.lt_succ_of_le h.length_le, ?_⟩
  rw [← List.length_reverse]
  exact (List.prefix_iff_eq_take.mp hprefix).symm

theorem levels_eq_reverse (v : Variable τ) : v.levels = (v.current :: v.enclosing).reverse :=
  (List.reverse_cons).symm

end Variable

namespace Scope

section
variable {s t z : Scope τ}

/-- In a scope in step every name has as many levels around it as are pushed. -/
theorem InStep.length_around (hs : s.InStep) (name : String) :
    (s.around name).length = s.depth := by
  rw [around]
  cases hv : s.find? name with
  | none => exact List.length_replicate
  | some v => exact hs.length_enclosing v (mem_of_find? hv)

/-! ## Bindings side by side -/

/-- The variables of `s` are found again in `t`, in their order and as `R` says. Those that come
after them are others, and are as `P` says. -/
def Continues (R : Variable τ → Variable τ → Prop) (P : Variable τ → Prop) (s t : Scope τ) :
    Prop :=
  ∃ old new, t.bindings = old ++ new ∧
    s.bindings.Forall₂ (fun v w ↦ w.identity = v.identity ∧ R v w) old ∧
    ∀ w ∈ new, w.name ∉ s.names ∧ P w

/-- Where more was declared at most, it is enough to look at what names mean. -/
theorem continues_of_prefix {R : Variable τ → Variable τ → Prop} {P : Variable τ → Prop}
    (hs : s.names.Nodup) (ht : t.names.Nodup) (h : s.identities <+: t.identities)
    (hR : ∀ v w, s.find? v.name = some v → t.find? v.name = some w → R v w)
    (hP : ∀ w, s.find? w.name = none → t.find? w.name = some w → P w) : Continues R P s t := by
  obtain ⟨rest, hrest⟩ := h
  obtain ⟨old, new, hbindings, hold, hnew⟩ := List.map_eq_append_iff.mp hrest.symm
  have hidentity : List.Forall₂ (fun v w ↦ w.identity = v.identity) s.bindings old := by
    have he : List.Forall₂ Eq (s.bindings.map Variable.identity) (old.map Variable.identity) :=
      List.forall₂_eq_eq_eq ▸ hold.symm
    rw [List.forall₂_map_left_iff, List.forall₂_map_right_iff] at he
    exact he.imp fun _ _ ↦ Eq.symm
  obtain ⟨hlen, hzip⟩ := List.forall₂_iff_zip.mp hidentity
  have hnames : t.names = s.names ++ new.map (·.name) := by
    rw [names, hbindings, List.map_append, names_eq_map_identities, ← hold, List.map_map]
    rfl
  have hdisjoint := (List.nodup_append.mp (hnames ▸ ht)).2.2
  refine ⟨old, new, hbindings, List.forall₂_iff_zip.mpr ⟨hlen, fun {v w} hvw ↦ ?_⟩, fun w hw ↦ ?_⟩
  · obtain ⟨hv, hw⟩ := List.of_mem_zip hvw
    have hmem : w ∈ t.bindings := hbindings ▸ List.mem_append_left new hw
    refine ⟨hzip hvw, hR v w (find?_of_mem hs hv) ?_⟩
    rw [← Variable.name_eq_of_identity (hzip hvw)]
    exact find?_of_mem ht hmem
  · have hmem : w ∈ t.bindings := hbindings ▸ List.mem_append_right old hw
    have hunbound : w.name ∉ s.names := fun hn ↦
      hdisjoint w.name hn w.name (List.mem_map_of_mem hw) rfl
    exact ⟨hunbound, hP w (find?_eq_none_iff.mpr hunbound) (find?_of_mem ht hmem)⟩

/-! ## Above what was there -/

/-- How a scope is found in a region that was entered from `s`: what was known then, at whatever
level, lies around the current level of each name. -/
structure Above (s z : Scope τ) : Prop where
  identities : s.identities <+: z.identities
  inStep : z.InStep
  below (name : String) : s.current name :: s.around name <:+ z.around name

theorem InStep.above_pushLevel (hs : s.InStep) : Above s s.pushLevel where
  identities := s.identities_pushLevel ▸ List.prefix_rfl
  inStep := hs.pushLevel
  below name := s.around_pushLevel name ▸ List.suffix_rfl

/-- What happens at the current level alone happens above. -/
theorem Above.grows (h : Above s z) (hg : Grows z t) : Above s t where
  identities := h.identities.trans hg.identities
  inStep := hg.inStep h.inStep
  below name := hg.around name ▸ h.below name

theorem Above.pushLevel (h : Above s z) : Above s z.pushLevel where
  identities := z.identities_pushLevel ▸ h.identities
  inStep := h.inStep.pushLevel
  below name := by
    rw [around_pushLevel]
    exact (h.below name).trans (List.suffix_cons _ _)

/-- To end a level leaves alone what lies below, as long as there are more levels than that. -/
theorem Above.leave (h : Above s z) (hs : s.InStep) (ht : t.InStep)
    (hidentities : t.identities = z.identities)
    (haround : ∀ name l outer, z.around name = l :: outer → t.around name = outer)
    (hdepth : s.depth < t.depth) : Above s t where
  identities := hidentities ▸ h.identities
  inStep := ht
  below name := by
    have hbelow := h.below name
    cases hz : z.around name with
    | nil =>
      rw [hz] at hbelow
      exact absurd (List.suffix_nil.mp hbelow) (List.cons_ne_nil _ _)
    | cons l outer =>
      rw [haround name l outer hz]
      rw [hz] at hbelow
      rcases List.suffix_cons_iff.mp hbelow with heq | hbelow
      · -- Then all levels that are left lie below, and there would be too few of them.
        have hlength := congrArg List.length (List.cons.inj heq).2
        rw [hs.length_around, ← haround name l outer hz, ht.length_around] at hlength
        omega
      · exact hbelow

theorem Above.folded (h : Above s z) (hs : s.InStep) (hdepth : s.depth < z.folded.depth) :
    Above s z.folded := by
  have hd : z.depth ≠ 0 := by
    rw [depth_folded] at hdepth
    omega
  exact h.leave hs h.inStep.folded z.identities_folded
    (fun _ _ _ ha ↦ (view_folded hd ha).2) hdepth

theorem Above.shed (h : Above s z) (hs : s.InStep) (hdepth : s.depth < z.shed.depth) :
    Above s z.shed := by
  have hd : z.depth ≠ 0 := by
    rw [depth_shed] at hdepth
    omega
  exact h.leave hs h.inStep.shed z.identities_shed
    (fun _ _ _ ha ↦ (view_shed hd ha).2) hdepth

/-- Where nothing but the current level lies above, the region can be closed as it was entered. -/
theorem Above.grows_pushLevel (h : Above s z) (hs : s.InStep) (hdepth : z.depth = s.depth + 1) :
    Grows s.pushLevel z where
  identities := s.identities_pushLevel ▸ h.identities
  depth := hdepth
  around name := by
    rw [around_pushLevel]
    refine ((h.below name).eq_of_length ?_).symm
    rw [List.length_cons, hs.length_around, h.inStep.length_around, hdepth]
  inStep _ := h.inStep

/-! ## The variables -/

theorem around_of_find?_eq_none {name : String} (h : s.find? name = none) :
    s.around name = List.replicate s.depth none := by
  rw [around, h]
  rfl

theorem Above.continues (h : Above s z) (hs : s.InStep) :
    Continues (fun v w ↦ s.depth + 1 < w.depth ∧ w.levels.take (s.depth + 1) = v.levels)
      (fun w ↦ s.depth + 1 < w.depth ∧
        w.levels.take (s.depth + 1) = List.replicate (s.depth + 1) none) s z := by
  refine continues_of_prefix hs.nodup h.inStep.nodup h.identities (fun v w hv hw ↦ ?_)
    fun w hn hw ↦ ?_
  · have hbelow := h.below v.name
    rw [current_of_find? hv, around_of_find? hv, around_of_find? hw] at hbelow
    have htake := Variable.take_levels hbelow
    rwa [List.length_cons, hs.length_enclosing v (mem_of_find? hv), ← v.levels_eq_reverse] at htake
  · have hbelow := h.below w.name
    rw [current_of_notMem (find?_eq_none_iff.mp hn), around_of_find?_eq_none hn,
      around_of_find? hw, ← List.replicate_succ] at hbelow
    have htake := Variable.take_levels hbelow
    rwa [List.length_replicate, List.reverse_replicate] at htake

theorem Grows.continues_folded (h : Grows s.pushLevel z) (hs : s.InStep) :
    Continues (fun v w ↦ w.enclosing = v.enclosing ∧ (v.initialized → w.current = v.current))
      (fun w ↦ w.enclosing = List.replicate s.depth none) s z.folded := by
  refine continues_of_prefix hs.nodup (h.folded.inStep hs).nodup h.folded.identities
    (fun v w hv hw ↦ ?_) fun w hn hw ↦ ?_
  · rw [← around_of_find? hw, h.folded.around, around_of_find? hv, ← current_of_find? hw,
      h.current_folded, current_of_find? hv]
    refine ⟨rfl, fun hi ↦ ?_⟩
    obtain ⟨order, horder⟩ := Option.isSome_iff_exists.mp hi
    rw [horder, Level.fold_some]
  · rw [← around_of_find? hw, h.folded.around, around_of_find?_eq_none hn]

theorem Grows.continues_shed (h : Grows s.pushLevel z) (hs : s.InStep) :
    Continues (fun v w ↦ w.levels = v.levels)
      (fun w ↦ w.levels = List.replicate (s.depth + 1) none) s z.shed := by
  refine continues_of_prefix hs.nodup (h.shed.inStep hs).nodup h.shed.identities
    (fun v w hv hw ↦ ?_) fun w hn hw ↦ ?_
  · rw [w.levels_eq_reverse, v.levels_eq_reverse, ← around_of_find? hw, ← current_of_find? hw,
      h.shed.around, h.current_shed, around_of_find? hv, current_of_find? hv]
  · rw [w.levels_eq_reverse, ← around_of_find? hw, ← current_of_find? hw, h.shed.around,
      h.current_shed, around_of_find?_eq_none hn, current_of_notMem (find?_eq_none_iff.mp hn),
      ← List.replicate_succ, List.reverse_replicate]

end

/-! ## Steps and runs -/

/-- An operation that moves the levels of all variables. -/
def Op.movesAll : Op τ → Bool
  | .pushLevel | .foldLevel | .takeArm _ => true
  | _ => false

variable [Storable τ] [Allocator α] [Sink ω] {mode : Mode} {x y : Session τ α ω} {op : Op τ}
  {r : Reply τ}

/-- Every operation that moves no level happens at the current level alone. -/
theorem InStep.grows_of_step (hs : x.scope.InStep) (hone : op.movesOne = false)
    (hall : op.movesAll = false) (h : x.step mode op = .ok (r, y)) : Grows x.scope y.scope := by
  cases op with
  | pushLevel | foldLevel | takeArm => cases hall
  | declare d =>
    obtain ⟨p, hp, h⟩ := Violation.bind_eq_ok_iff.mp h
    cases p with
    | error e =>
      cases h
      exact .refl _
    | ok p =>
      cases h
      exact (grows_declare hp).1
  | declareAt d slot inherited =>
    simp only [Session.step] at h
    split at h
    · next t ht =>
      cases h
      exact (grows_declareAt ht).1
    · cases h
      exact .refl _
  | reserveInternal ty =>
    obtain ⟨⟨slot, t, slots⟩, hp, h⟩ := Violation.bind_eq_ok_iff.mp h
    cases h
    obtain ⟨size, rfl⟩ := reserveInternal_eq_ok hp
    exact grows_resize x.scope size
  | call name c =>
    obtain ⟨⟨q, t⟩, hp, h⟩ := Violation.bind_eq_ok_iff.mp h
    cases h
    exact (hs.frame_call hone hp).grows
  | demand name c =>
    obtain ⟨⟨q, t⟩, hp, h⟩ := Violation.bind_eq_ok_iff.mp h
    cases h
    exact (hs.frame_call hone (call_of_demand hp)).grows
  | setAll initial =>
    cases h
    exact (hs.frame_setAll initial).grows
  | joinArms arms exhaustive =>
    cases h
    exact (frame_joinArms _ exhaustive x.scope).grows
  | contains | checkAll | recommend | report =>
    cases h
    exact .refl _

namespace Above

variable {s : Scope τ}

theorem of_step (h : Above s x.scope) (hs : s.InStep) (hone : op.movesOne = false)
    (hstep : x.step mode op = .ok (r, y)) (hdepth : s.depth < y.scope.depth) :
    Above s y.scope := by
  cases hall : op.movesAll with
  | false => exact h.grows (h.inStep.grows_of_step hone hall hstep)
  | true =>
    cases op with
    | pushLevel =>
      cases hstep
      exact h.pushLevel
    | foldLevel =>
      obtain ⟨t, ht, hstep⟩ := Violation.bind_eq_ok_iff.mp hstep
      cases hstep
      rw [foldLevel_eq_stop] at ht
      cases Mode.eq_of_stop_eq_ok ht
      exact h.folded hs hdepth
    | takeArm label =>
      obtain ⟨p, hp, hstep⟩ := Violation.bind_eq_ok_iff.mp hstep
      cases hstep
      rw [takeArm_eq_stop] at hp
      cases Mode.eq_of_stop_eq_ok hp
      exact h.shed hs hdepth
    | _ => cases hall

theorem of_run {ops : List (Op τ)} {rs : List (Reply τ)} (h : Above s x.scope) (hs : s.InStep)
    (hops : ∀ op ∈ ops, op.movesOne = false)
    (hdepth : ∀ before qs z, before <+: ops → x.run mode before = .ok (qs, z) →
      s.depth < z.scope.depth)
    (hrun : x.run mode ops = .ok (rs, y)) : Above s y.scope := by
  induction ops generalizing x rs with
  | nil =>
    cases hrun
    exact h
  | cons op ops ih =>
    obtain ⟨r, z, qs, hstep, hrest, rfl⟩ := Session.run_cons_eq_ok_iff.mp hrun
    have hone : x.run mode [op] = .ok ([r], z) :=
      Session.run_cons_eq_ok_iff.mpr ⟨r, z, [], hstep, rfl, rfl⟩
    have hz : s.depth < z.scope.depth :=
      hdepth [op] [r] z (List.prefix_append [op] ops) hone
    refine ih (h.of_step hs (hops op List.mem_cons_self) hstep hz)
      (fun o ho ↦ hops o (List.mem_cons_of_mem op ho)) ?_ hrest
    intro before qs w hbefore hw
    exact hdepth (op :: before) (r :: qs) w (List.prefix_cons_inj op |>.mpr hbefore)
      (Session.run_cons_eq_ok_iff.mpr ⟨r, z, qs, hstep, hw, rfl⟩)

end Above

/-- A region never touches what lies below it. On a scope that came about without moving the
levels of a single variable, with `d` levels pushed, a region is entered, and any operations
follow that do not move those either: balanced or not, with arms from anywhere, as long as more
than `d` levels stay pushed. After each of them the variables that were there have their levels
as the lowest `d + 1`, and others above them. The lowest `d + 1` of a variable that was declared
since know nothing. Where one level more is pushed than at the beginning, the region can be
closed in either way. Folded, it leaves to each variable the levels around its current one, and
that one too if it had a value. Taken as an arm, it gives back all levels. -/
theorem region_leaves_alone_what_lies_below {x : Session τ α ω} {ops : List (Op τ)}
    (hx : x.scope.Reached mode) (hops : ∀ op ∈ ops, op.movesOne = false)
    (habove : ∀ before qs z, before <+: ops → x.run mode (.pushLevel :: before) = .ok (qs, z) →
      x.scope.depth < z.scope.depth) :
    let d := x.scope.depth
    ∀ before qs z, before <+: ops → x.run mode (.pushLevel :: before) = .ok (qs, z) →
      Continues (fun v w ↦ d + 1 < w.depth ∧ w.levels.take (d + 1) = v.levels)
        (fun w ↦ d + 1 < w.depth ∧ w.levels.take (d + 1) = List.replicate (d + 1) none)
        x.scope z.scope ∧
      (z.scope.depth = d + 1 →
        (∃ t, z.scope.foldLevel mode = .ok t ∧
          Continues (fun v w ↦ w.enclosing = v.enclosing ∧ (v.initialized → w.current = v.current))
            (fun w ↦ w.enclosing = List.replicate d none) x.scope t) ∧
        ∃ arm t, z.scope.takeArm mode = .ok (arm, t) ∧
          Continues (fun v w ↦ w.levels = v.levels)
            (fun w ↦ w.levels = List.replicate (d + 1) none) x.scope t) := by
  intro d before qs z hbefore hrun
  have hs := hx.inStep
  obtain ⟨r, y, rs, hstep, hrest, -⟩ := Session.run_cons_eq_ok_iff.mp hrun
  cases hstep
  have hz : Above x.scope z.scope := by
    refine Above.of_run hs.above_pushLevel hs
      (fun op hop ↦ hops op (hbefore.subset hop)) (fun first qs w hfirst hw ↦ ?_) hrest
    exact habove first (.done :: qs) w (hfirst.trans hbefore)
      (Session.run_cons_eq_ok_iff.mpr ⟨.done, _, qs, rfl, hw, rfl⟩)
  refine ⟨hz.continues hs, fun hdepth ↦ ?_⟩
  have hgrows : Grows x.scope.pushLevel z.scope := hz.grows_pushLevel hs hdepth
  have hd : z.scope.depth ≠ 0 := hgrows.depth_ne_zero
  exact ⟨⟨z.scope.folded, hz.inStep.foldLevel hd, hgrows.continues_folded hs⟩,
    z.scope.knowledge, z.scope.shed, hz.inStep.takeArm hd, hgrows.continues_shed hs⟩

/-- A variable loses its value in a region inside of the region, is given one by an arm from
somewhere else, and brings it along when that region is folded. Another one is declared on the
way. The level that both regions were entered from is there when the arm is taken. -/
theorem value_lost_in_region_is_back :
    let d (name : String) : Declaration Layout := ⟨name, ⟨1, false⟩, false, default⟩
    let x : Session Layout SlotCounter Log := ⟨⟨[(Variable.fresh (d "x") ⟨0⟩ false 1).define 1],
      0, 1⟩, {}, Shelf.empty.keep "else" [⟨[("x", 9)]⟩], .empty⟩
    let ops : List (Op Layout) :=
      [.call "x" .undefine, .pushLevel, .declareAt (d "y") ⟨1⟩ false,
        .joinArms [.kept "else" 0] true, .foldLevel]
    x.scope.Reached .strict ∧ ∃ qs z, x.run .strict (.pushLevel :: ops) = .ok (qs, z) ∧
      z.scope.bindings.map (·.levels) = [[none, some 1, some 9], [none, none, none]] ∧
      ∃ arm t, z.scope.takeArm .strict = .ok (arm, t) ∧ arm.names = ["x"] ∧
        Continues (fun v w ↦ w.levels = v.levels) (fun w ↦ w.levels = List.replicate 2 none)
          x.scope t := by
  intro d x ops
  have hx : x.scope.Reached .strict := by
    let start : Session Layout SlotCounter Log := ⟨.opened 1, {}, .empty, .empty⟩
    obtain ⟨rs, y, hrun, hy⟩ : ∃ rs y,
        start.run .strict [.declareAt (d "x") ⟨0⟩ false, .call "x" (.define 1)] = .ok (rs, y) ∧
          y.scope = x.scope := ⟨_, _, rfl, rfl⟩
    exact hy ▸ Reached.of_run (.opened 1) (by decide) hrun
  have habove : ∀ before qs z, before <+: ops → x.run .strict (.pushLevel :: before) =
      .ok (qs, z) → x.scope.depth < z.scope.depth := by
    intro before qs z hbefore hrun
    have hmem : before ∈ ops.inits := (List.mem_inits before ops).mpr hbefore
    simp only [ops, List.inits, List.map_cons, List.map_nil, List.mem_cons,
      List.not_mem_nil, or_false] at hmem
    rcases hmem with rfl | rfl | rfl | rfl | rfl | rfl <;> cases hrun <;> decide
  obtain ⟨qs, z, arm, t, hrun, hdepth, hlevels, htake, harm⟩ : ∃ qs z arm t,
      x.run .strict (.pushLevel :: ops) = .ok (qs, z) ∧ z.scope.depth = x.scope.depth + 1 ∧
        z.scope.bindings.map (·.levels) = [[none, some 1, some 9], [none, none, none]] ∧
        z.scope.takeArm .strict = .ok (arm, t) ∧ arm.names = ["x"] :=
    ⟨_, _, _, _, rfl, rfl, rfl, rfl, rfl⟩
  have h := region_leaves_alone_what_lies_below hx (by decide) habove ops qs z
    List.prefix_rfl hrun
  obtain ⟨arm', t', htake', hcontinues⟩ := (h.2 hdepth).2
  rw [htake] at htake'
  cases htake'
  exact ⟨hx, qs, z, hrun, hlevels, arm, t, htake, harm, hcontinues⟩

end Scope

end DefiniteAssignment
