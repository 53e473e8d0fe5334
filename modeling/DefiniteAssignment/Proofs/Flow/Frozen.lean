import DefiniteAssignment.Flow.Deed
import DefiniteAssignment.Proofs.Flow.Paths
import DefiniteAssignment.Proofs.Scope.Growth

/-!
# How often a frozen variable is assigned

A frozen variable refuses an assignment where it is known to have a value, and what is
known is what holds on every path. So an analysis that refuses nothing has seen no part
that assigns the variable on every path followed by one that may assign it. It says
nothing of a part that assigns the variable on some paths only: after the join nothing is
known, and a later assignment is accepted.

The main statement is that this is all there is to it. Where nothing was refused, some
path assigns the variable twice exactly if a part that assigns it on some but not all of
its paths is followed by a part that may assign it.
-/

namespace DefiniteAssignment

variable {τ α : Type}

namespace Account

/-- What an analysis keeps of an account: the scope only grows, and answers are added. -/
structure Extends (s t : Account τ α) : Prop where
  scope : s.scope.Grows t.scope
  answers : s.answers <+: t.answers

section
variable {s t u : Account τ α}

theorem Extends.refl (s : Account τ α) : Extends s s := ⟨.refl s.scope, List.prefix_rfl⟩

theorem Extends.trans (h : Extends s t) (h' : Extends t u) : Extends s u :=
  ⟨h.scope.trans h'.scope, h.answers.trans h'.answers⟩

end

/-- Every variable of the name is frozen, and no assignment to it was refused. -/
structure Clean (x : String) (s : Account τ α) : Prop where
  frozen : ∀ i ∈ s.scope.identities, i.1.name = x → i.1.frozen = true
  accepted : ∀ r, (x, r) ∈ s.answers → r = some .accepted

/-- What is clean at the end was clean before. -/
theorem Clean.mono {x : String} {s t : Account τ α} (ht : t.Clean x)
    (hi : s.scope.identities <+: t.scope.identities) (ha : s.answers <+: t.answers) :
    s.Clean x :=
  ⟨fun i h ↦ ht.frozen i (hi.subset h), fun r h ↦ ht.accepted r (ha.subset h)⟩

theorem Clean.of_all_accepted {x : String} {s : Account τ α}
    (hf : ∀ i ∈ s.scope.identities, i.1.name = x → i.1.frozen = true)
    (ha : ∀ e ∈ s.answers, e.2 = some .accepted) : s.Clean x :=
  ⟨hf, fun r hr ↦ ha (x, r) hr⟩

variable {mode : Mode} {s t y : Account τ α} {arm : Arm}

/-- A region that was entered and worked through is left as it has to be. -/
theorem Extends.of_foldLevel (hs : s.scope.InStep)
    (h : Extends (Regional.pushLevel s : Account τ α) t)
    (hy : Regional.foldLevel mode t = .ok y) :
    y = { t with scope := t.scope.folded } ∧ s.Extends y := by
  have ht : t.scope.InStep := h.scope.inStep hs.pushLevel
  change (t.scope.foldLevel mode).map _ = _ at hy
  rw [ht.foldLevel h.scope.depth_ne_zero] at hy
  cases hy
  exact ⟨rfl, h.scope.folded, h.answers⟩

/-- An arm that was entered and worked through says what is known at its end. -/
theorem Extends.of_takeArm (hs : s.scope.InStep)
    (h : Extends (Regional.pushLevel s : Account τ α) t)
    (hy : Regional.takeArm mode t = .ok (arm, y)) :
    arm = t.scope.knowledge ∧ y = { t with scope := t.scope.shed } ∧ s.Extends y := by
  have ht : t.scope.InStep := h.scope.inStep hs.pushLevel
  change (t.scope.takeArm mode).map _ = _ at hy
  rw [ht.takeArm h.scope.depth_ne_zero] at hy
  cases hy
  exact ⟨rfl, rfl, h.scope.shed, h.answers⟩

theorem current_pushLevel (s : Account τ α) (x : String) :
    (Regional.pushLevel s : Account τ α).scope.current x = s.scope.current x :=
  s.scope.current_pushLevel x

theorem extends_joinArms (arms : List Arm) (exhaustive : Bool) (s : Account τ α) :
    s.Extends (Regional.joinArms arms exhaustive s) :=
  ⟨(Scope.frame_joinArms arms exhaustive s.scope).grows, List.prefix_rfl⟩

end Account

namespace Deed

variable [Storable τ] [Allocator α] {mode : Mode} {s t : Account τ α} {d : Deed τ} {x : String}

/-- A deed is a declaration, which assigns nothing and changes nothing that is known, or a
call of which the answer is kept. -/
theorem perform_eq_ok (h : d.perform mode s = .ok t) :
    ((∀ x, d.assigns x = false) ∧ s.Extends t ∧ ∀ x, t.scope.current x = s.scope.current x) ∨
      ∃ name order span r u, d = .assign name order span ∧
        s.scope.call mode name (.assign order span) = .ok (r, u) ∧
        t = { s with scope := u, answers := s.answers ++ [(name, r)] } := by
  cases d with
  | declare d =>
    refine .inl ⟨fun _ ↦ rfl, ?_⟩
    obtain ⟨p, hp, h⟩ := Violation.bind_eq_ok_iff.mp h
    cases p with
    | error e => cases h; exact ⟨.refl s, fun _ ↦ rfl⟩
    | ok p =>
      cases h
      obtain ⟨hgrows, hsame⟩ := Scope.grows_declare hp
      exact ⟨⟨hgrows, List.prefix_rfl⟩, hsame⟩
  | declareAt d slot inherited =>
    refine .inl ⟨fun _ ↦ rfl, ?_⟩
    rw [perform] at h
    cases hp : s.scope.declareAt d slot inherited with
    | error e => rw [hp] at h; cases h; exact ⟨.refl s, fun _ ↦ rfl⟩
    | ok u =>
      rw [hp] at h
      cases h
      obtain ⟨hgrows, hsame⟩ := Scope.grows_declareAt hp
      exact ⟨⟨hgrows, List.prefix_rfl⟩, hsame⟩
  | assign name order span =>
    obtain ⟨⟨r, u⟩, hp, h⟩ := Violation.bind_eq_ok_iff.mp h
    cases h
    exact .inr ⟨name, order, span, r, u, rfl, hp, rfl⟩

/-- A deed only adds to an account. -/
theorem extends_perform (hs : s.scope.InStep) (h : d.perform mode s = .ok t) : s.Extends t := by
  rcases perform_eq_ok h with ⟨-, he, -⟩ | ⟨name, order, span, r, u, rfl, hp, rfl⟩
  · exact he
  · exact ⟨(hs.frame_call rfl hp).grows, List.prefix_append _ _⟩

/-- A deed that does not assign to a variable changes nothing that is known of it. -/
theorem current_perform (hs : s.scope.InStep) (hd : d.assigns x = false)
    (h : d.perform mode s = .ok t) : t.scope.current x = s.scope.current x := by
  rcases perform_eq_ok h with ⟨-, -, hsame⟩ | ⟨name, order, span, r, u, rfl, hp, rfl⟩
  · exact hsame x
  · have hn : x ≠ name := fun hx ↦ of_decide_eq_false hd hx.symm
    rcases Scope.call_eq_ok hp with ⟨-, -, hu⟩ | ⟨v, w, q, hv, hw, -, hu⟩
    · rw [hu]
    · rw [hu, hs.current_set hv (Variable.frame_call rfl hw).1, if_neg hn]

/-- A frozen variable accepts an assignment only where nothing is known of it. -/
theorem current_of_accepted (hs : s.scope.InStep) (hd : d.assigns x = true)
    (h : d.perform mode s = .ok t) (ht : t.Clean x) :
    s.scope.current x = none ∧ (t.scope.current x).isSome := by
  have he : s.Extends t := extends_perform hs h
  rcases perform_eq_ok h with ⟨hnot, -, -⟩ | ⟨name, order, span, r, u, rfl, hp, rfl⟩
  · rw [hnot x] at hd
    cases hd
  · obtain rfl := of_decide_eq_true hd
    have hr := ht.accepted r (List.mem_append_right _ (List.mem_singleton_self _))
    rcases Scope.call_eq_ok hp with ⟨-, hnone, -⟩ | ⟨v, w, q, hv, hw, hq, hu⟩
    · change r = none at hnone
      rw [hnone] at hr
      cases hr
    · change r = some q at hq
      rw [hq] at hr
      cases hr
      have hf : v.frozen = true := ht.frozen v.identity
        (he.scope.identities.subset (List.mem_map_of_mem (Scope.mem_of_find? hv)))
        (Scope.name_of_find? hv)
      rw [Scope.current_of_find? hv]
      rw [hu, hs.current_set hv (Variable.frame_call rfl hw).1, if_pos rfl]
      rw [Variable.call, Variable.assign, Variable.initialized, hf] at hw
      cases hc : v.current with
      | some o => rw [hc] at hw; cases hw
      | none => rw [hc] at hw; cases hw; exact ⟨rfl, rfl⟩

end Deed

namespace Flow

open Account Deed

variable [Storable τ] [Allocator α] {mode : Mode} {x : String}

/-- What a walk that refused no assignment to the variable `x` tells about the flow: the
variable has a value at the end if it had one before or every path assigns it, it cannot
have had one before if some path assigns it, and no path assigns it twice but for a part
that some paths only assign it in. -/
structure Tells (x : String) (f : Flow (Deed τ)) (s y : Account τ α) : Prop where
  known : (y.scope.current x).isSome ↔ (s.scope.current x).isSome ∨ f.Must (assigns x)
  untouched : (s.scope.current x).isSome → ¬ f.May (assigns x)
  repeats : ∀ p ∈ f.paths, 1 < p.countP (assigns x) → f.Repeats (assigns x)

/-- The induction hypothesis: what is shown of a flow, for every walk through it. -/
def Told (α : Type) [Allocator α] (mode : Mode) (x : String) (f : Flow (Deed τ)) : Prop :=
  ∀ s y : Account τ α, s.scope.InStep → f.walk mode (Deed.perform mode) s = .ok y →
    s.Extends y ∧ (y.Clean x → Tells x f s y)

theorem told_skip : Told α mode x (skip : Flow (Deed τ)) := by
  intro s y hs h
  cases h
  refine ⟨.refl s, fun _ ↦ ⟨?_, fun _ ↦ not_may_skip, fun p hp hc ↦ ?_⟩⟩
  · rw [or_iff_left not_must_skip]
  · rw [List.mem_singleton.mp hp] at hc
    cases hc

theorem told_act (d : Deed τ) : Told α mode x (act d) := by
  intro s y hs h
  refine ⟨extends_perform hs h, fun hy ↦ ⟨?_, ?_, fun p hp hc ↦ ?_⟩⟩
  · cases hd : d.assigns x with
    | true => exact iff_of_true (current_of_accepted hs hd h hy).2 (.inr (must_act.mpr hd))
    | false => rw [current_perform hs hd h, must_act, hd, or_iff_left Bool.false_ne_true]
  · intro hk hm
    rw [(current_of_accepted hs (may_act.mp hm) h hy).1] at hk
    cases hk
  · rw [List.mem_singleton.mp hp] at hc
    have hle : [d].countP (assigns x) ≤ 1 := List.countP_le_length
    omega

theorem told_seq {first second : Flow (Deed τ)} (h₁ : Told α mode x first)
    (h₂ : Told α mode x second) : Told α mode x (.seq first second) := by
  intro s y hs h
  obtain ⟨t, ht, hy⟩ := Violation.bind_eq_ok_iff.mp h
  obtain ⟨he₁, ht₁⟩ := h₁ s t hs ht
  obtain ⟨he₂, ht₂⟩ := h₂ t y (he₁.scope.inStep hs) hy
  refine ⟨he₁.trans he₂, fun hc ↦ ?_⟩
  have tells₁ := ht₁ (hc.mono he₂.scope.identities he₂.answers)
  have tells₂ := ht₂ hc
  refine ⟨?_, ?_, fun p hp hcount ↦ ?_⟩
  · rw [tells₂.known, tells₁.known, must_seq, or_assoc]
  · intro hk hm
    rcases hm.of_seq with hm | hm
    · exact tells₁.untouched hk hm
    · exact tells₂.untouched (tells₁.known.mpr (.inl hk)) hm
  · obtain ⟨p₁, hp₁, p₂, hp₂, rfl⟩ := mem_paths_seq.mp hp
    rw [List.countP_append] at hcount
    rcases Nat.lt_or_ge 1 (p₁.countP (assigns x)) with hc₁ | hc₁
    · exact .first (tells₁.repeats p₁ hp₁ hc₁)
    rcases Nat.lt_or_ge 1 (p₂.countP (assigns x)) with hc₂ | hc₂
    · exact .second (tells₂.repeats p₂ hp₂ hc₂)
    -- Each part assigns the variable once, so the first cannot do so on all its paths.
    have hm₁ : first.May (assigns x) := ⟨p₁, hp₁, List.any_eq_true.mpr
      (List.countP_pos_iff.mp (by omega))⟩
    have hm₂ : second.May (assigns x) := ⟨p₂, hp₂, List.any_eq_true.mpr
      (List.countP_pos_iff.mp (by omega))⟩
    exact .here hm₁ (fun hm ↦ tells₂.untouched (tells₁.known.mpr (.inr hm)) hm₂) hm₂

theorem told_region {body : Flow (Deed τ)} (h : Told α mode x body) :
    Told α mode x (.region body) := by
  intro s y hs hw
  obtain ⟨t, ht, hy⟩ := Violation.bind_eq_ok_iff.mp hw
  obtain ⟨he, htells⟩ := h (Regional.pushLevel s) t hs.pushLevel ht
  obtain ⟨rfl, hey⟩ := he.of_foldLevel hs hy
  refine ⟨hey, fun hc ↦ ?_⟩
  have hclean : t.Clean x :=
    hc.mono (t.scope.identities_folded ▸ List.prefix_rfl) List.prefix_rfl
  obtain ⟨known, untouched, repeats⟩ := htells hclean
  rw [Account.current_pushLevel] at known untouched
  refine ⟨?_, untouched, fun p hp hcount ↦ .region (repeats p hp hcount)⟩
  change (t.scope.folded.current x).isSome ↔ (s.scope.current x).isSome ∨ body.Must (assigns x)
  rw [he.scope.current_folded, Level.isSome_fold, Bool.or_eq_true, known]
  tauto

/-- What the arms of a branch tell together. Each is walked from what was known before the
branch, and what it says of the variable is what is known at its end. -/
structure ArmsTell (x : String) (arms : List (Flow (Deed τ))) (s : Account τ α)
    (taken : List Arm) (y : Account τ α) : Prop where
  known : (∀ a ∈ taken, a.knows x) ↔
    ∀ arm ∈ arms, (s.scope.current x).isSome ∨ arm.Must (assigns x)
  untouched : (s.scope.current x).isSome → ∀ arm ∈ arms, ¬ arm.May (assigns x)
  repeats : ∀ arm ∈ arms, ∀ p ∈ arm.paths, 1 < p.countP (assigns x) → arm.Repeats (assigns x)

theorem told_walkArms {arms : List (Flow (Deed τ))} (h : ∀ arm ∈ arms, Told α mode x arm)
    {s y : Account τ α} {taken : List Arm} (hs : s.scope.InStep)
    (hw : walkArms mode (Deed.perform mode) arms s = .ok (taken, y)) :
    s.Extends y ∧ y.scope.current x = s.scope.current x ∧ taken.length = arms.length ∧
      (∀ a ∈ taken, a.knows x → x ∈ y.scope.names) ∧
      (y.Clean x → ArmsTell x arms s taken y) := by
  induction arms generalizing s taken with
  | nil =>
    cases hw
    exact ⟨.refl y, rfl, rfl, by simp, fun _ ↦ ⟨by simp, by simp, by simp⟩⟩
  | cons arm arms ih =>
    obtain ⟨t, ht, hw⟩ := Violation.bind_eq_ok_iff.mp hw
    obtain ⟨⟨a, u⟩, hu, hw⟩ := Violation.bind_eq_ok_iff.mp hw
    obtain ⟨⟨rest, z⟩, hz, hw⟩ := Violation.bind_eq_ok_iff.mp hw
    cases hw
    obtain ⟨het, htells⟩ := h arm List.mem_cons_self (Regional.pushLevel s) t hs.pushLevel ht
    have hts : t.scope.InStep := het.scope.inStep hs.pushLevel
    obtain ⟨rfl, rfl, heu⟩ := het.of_takeArm hs hu
    obtain ⟨hey, hcur, hlen, hnames, harms⟩ :=
      ih (fun b hb ↦ h b (List.mem_cons_of_mem arm hb)) hts.shed hz
    have hback : t.scope.shed.current x = s.scope.current x := het.scope.current_shed x
    have hids : t.scope.identities <+: y.scope.identities := by
      rw [← Scope.identities_shed]
      exact hey.scope.identities
    refine ⟨heu.trans hey, hcur.trans hback, by simp [hlen], ?_, fun hc ↦ ?_⟩
    · intro a ha hk
      rcases List.mem_cons.mp ha with rfl | ha
      · have hin : x ∈ t.scope.names := by
          by_contra hn
          rw [hts.knows_knowledge, Scope.current_of_notMem hn] at hk
          cases hk
        rw [Scope.names_eq_map_identities] at hin ⊢
        exact (hids.map _).subset hin
      · exact hnames a ha hk
    · obtain ⟨known, untouched, repeats⟩ := htells (hc.mono hids hey.answers)
      obtain ⟨known', untouched', repeats'⟩ := harms hc
      change _ ↔ ∀ arm ∈ arms, (t.scope.shed.current x).isSome ∨ _ at known'
      change (t.scope.shed.current x).isSome → _ at untouched'
      rw [hback] at known' untouched'
      rw [Account.current_pushLevel] at known untouched
      refine ⟨?_, fun hk ↦ ?_, ?_⟩
      · rw [List.forall_mem_cons, List.forall_mem_cons, known', hts.knows_knowledge, known]
      · rw [List.forall_mem_cons]
        exact ⟨untouched hk, untouched' hk⟩
      · rw [List.forall_mem_cons]
        exact ⟨repeats, repeats'⟩

theorem told_branch {arms : List (Flow (Deed τ))} {exhaustive : Bool} (hne : arms ≠ [])
    (h : ∀ arm ∈ arms, Told α mode x arm) : Told α mode x (.branch arms exhaustive) := by
  intro s y hs hw
  rw [walk] at hw
  obtain ⟨⟨taken, t⟩, ht, hw⟩ := Violation.bind_eq_ok_iff.mp hw
  cases hw
  obtain ⟨het, hcur, hlen, hnames, harms⟩ := told_walkArms h hs ht
  have hej := extends_joinArms taken exhaustive t
  refine ⟨het.trans hej, fun hc ↦ ?_⟩
  obtain ⟨known, untouched, repeats⟩ := harms (hc.mono hej.scope.identities hej.answers)
  refine ⟨?_, fun hk hm ↦ ?_, fun p hp hcount ↦ ?_⟩
  · change ((t.scope.joinArms taken exhaustive).current x).isSome ↔ _
    rw [must_branch]
    cases exhaustive with
    | false => simp [hcur]
    | true =>
      have htaken : taken ≠ [] := by
        rw [← List.length_pos_iff_ne_nil, hlen]
        exact List.length_pos_iff_ne_nil.mpr hne
      rw [Scope.isSome_current_joinArms htaken hnames, hcur, known]
      by_cases hk : (s.scope.current x).isSome <;> simp [hk]
  · obtain ⟨arm, harm, hm⟩ := hm.of_branch
    exact untouched hk arm harm hm
  · rcases mem_paths_branch.mp hp with ⟨-, rfl⟩ | ⟨arm, harm, hp⟩
    · cases hcount
    · exact .arm harm (repeats arm harm p hp hcount)

theorem told {f : Flow (Deed τ)} (hf : f.armed) : Told α mode x f := by
  induction f with
  | skip => exact told_skip
  | act d => exact told_act d
  | seq first second ih₁ ih₂ =>
    obtain ⟨h₁, h₂⟩ := armed_seq.mp hf
    exact told_seq (ih₁ h₁) (ih₂ h₂)
  | region body ih => exact told_region (ih hf)
  | branch arms exhaustive ih =>
    obtain ⟨hne, harms⟩ := armed_branch.mp hf
    exact told_branch hne fun arm harm ↦ ih arm harm (harms arm harm)

/-- Where an analysis refuses no assignment to the frozen variable `x`, no path assigns it
more than once, provided that no part of the flow that assigns it on some but not all of
its paths is followed by a part that may assign it. The proviso cannot be weakened: where
there are such parts, some path assigns the variable twice. -/
theorem assigned_at_most_once_iff {s y : Account τ α} {f : Flow (Deed τ)}
    (hs : s.scope.Reached mode) (hf : f.armed) (h : f.walk mode (Deed.perform mode) s = .ok y)
    (hy : y.Clean x) :
    (∀ p ∈ f.paths, p.countP (assigns x) ≤ 1) ↔ ¬ f.Repeats (assigns x) := by
  have tells : Tells x f s y := (told hf s y hs.inStep h).2 hy
  constructor
  · intro honce hr
    obtain ⟨p, hp, hc⟩ := hr.exists_path hf
    exact absurd (honce p hp) (Nat.not_le.mpr hc)
  · intro hr p hp
    by_contra hc
    exact hr (tells.repeats p hp (Nat.lt_of_not_le hc))

/-- Each of two arms assigns a frozen variable. -/
def covered : Flow (Deed Layout) :=
  .seq (.act (.declare ⟨"x", ⟨8, false⟩, true, default⟩))
    (.branch [.act (.assign "x" 1 default), .act (.assign "x" 2 default)] true)

theorem not_repeats_covered : ¬ covered.Repeats (assigns "x") := by
  intro h
  cases h with
  | here hm => exact absurd (may_act.mp hm) Bool.false_ne_true
  | first h => cases h
  | second h =>
    obtain - | - | - | - | ⟨ha, h⟩ := h
    rcases List.mem_pair.mp ha with rfl | rfl <;> cases h

/-- Both arms of `covered` are accepted, and no path assigns the variable twice. -/
theorem covered_assigned_at_most_once :
    ∃ y : Account Layout SlotCounter,
      covered.walk .strict (Deed.perform .strict) ⟨.empty, {}, []⟩ = .ok y ∧ y.Clean "x" ∧
        ∀ p ∈ covered.paths, p.countP (assigns "x") ≤ 1 := by
  have hs : (Scope.empty : Scope Layout).Reached .strict := .opened 0
  refine ⟨_, rfl, .of_all_accepted (by decide) (by decide), ?_⟩
  exact (assigned_at_most_once_iff (α := SlotCounter) (s := ⟨.empty, {}, []⟩) hs rfl rfl
    (.of_all_accepted (by decide) (by decide))).mpr not_repeats_covered

/-- An arm that may be skipped assigns a frozen variable, and so does what follows it. -/
def skippable : Flow (Deed Layout) :=
  .seq (.act (.declare ⟨"x", ⟨8, false⟩, true, default⟩))
    (.seq (.branch [.act (.assign "x" 1 default)] false) (.act (.assign "x" 2 default)))

/-- Both assignments of `skippable` are accepted, and one path makes both of them. -/
theorem skippable_assigned_twice :
    ∃ y : Account Layout SlotCounter,
      skippable.walk .strict (Deed.perform .strict) ⟨.empty, {}, []⟩ = .ok y ∧ y.Clean "x" ∧
        y.answers = [("x", some .accepted), ("x", some .accepted)] ∧
        ∃ p ∈ skippable.paths, p.countP (assigns "x") = 2 := by
  refine ⟨_, rfl, .of_all_accepted (by decide) (by decide), rfl, ?_⟩
  exact ⟨_, List.mem_of_getElem? (i := 1) rfl, rfl⟩

end Flow

end DefiniteAssignment
