import DefiniteAssignment.Proofs.Contract.Pops

/-!
# What a stopped pop leaves behind

`Stack.foldLevel` and `Stack.takeArms` give no stack where they break the contract. A strict
analysis works on its stack in place, though. It counts a level down and then works on one
scope after the other, and in a scope on one variable after the other, so that a breach on
the way leaves behind whatever was done before it.

Here a pop is told in this way, together with the stack that it leaves behind. It agrees
with the operations wherever they give a stack, and breaches what they breach. The breach
of a stack with no level pushed comes before anything is changed.
-/

namespace DefiniteAssignment

variable {τ ι σ : Type}

/-- Works on the elements of a list one after the other, as far as the first breach. -/
def inPlace (f : ι → ι × Option Violation) : List ι → List ι × Option Violation
  | [] => ([], none)
  | i :: rest =>
    match f i with
    | (j, some v) => (j :: rest, some v)
    | (j, none) => (j :: (inPlace f rest).1, (inPlace f rest).2)

/-- What is given of work in place: all of it, or no more than the breach. -/
def outcome (p : σ × Option Violation) : Except Violation σ := Mode.strict.stop p.2 (.ok p.1)

/-- What is breached is what the first element breaches that breaches anything. -/
theorem snd_inPlace (f : ι → ι × Option Violation) (l : List ι) :
    (inPlace f l).2 = l.findSome? fun i ↦ (f i).2 := by
  induction l with
  | nil => rfl
  | cons i rest ih =>
    rw [inPlace, List.findSome?_cons]
    rcases f i with ⟨j, _ | v⟩
    · exact ih
    · rfl

/-- Work that breaches nothing is done to all elements. -/
theorem fst_inPlace {f : ι → ι × Option Violation} {g : ι → ι}
    (hg : ∀ i, (f i).2 = none → (f i).1 = g i) {l : List ι} (h : (inPlace f l).2 = none) :
    (inPlace f l).1 = l.map g := by
  induction l with
  | nil => rfl
  | cons i rest ih =>
    have hi := hg i
    rw [inPlace] at h ⊢
    rw [List.map_cons]
    generalize f i = p at h hi ⊢
    obtain ⟨j, _ | v⟩ := p
    · rw [← hi rfl, ← ih h]
    · cases h

/-- What work in place gives is all of `t`, unless it is stopped. -/
theorem outcome_eq_stop {p : σ × Option Violation} {t : σ} (h : p.2 = none → p.1 = t) :
    outcome p = Mode.strict.stop p.2 (.ok t) := by
  obtain ⟨u, _ | v⟩ := p
  · rw [outcome, show u = t from h rfl]
  · rfl

namespace Scope

/-- Ends a level in place. How each variable is left is said by `g`. -/
def popInPlace (g : Variable τ → Variable τ) (s : Scope τ) : Scope τ × Option Violation :=
  if s.depth = 0 then (s, some .unbalancedPop)
  else
    let bindings := inPlace (fun v ↦ (g v, v.popBreach?)) s.bindings
    ({ s with bindings := bindings.1, depth := s.depth - 1 }, bindings.2)

theorem snd_popInPlace (g : Variable τ → Variable τ) (s : Scope τ) :
    (s.popInPlace g).2 = s.popBreach? := by
  rw [popInPlace, popBreach?]
  split
  · rfl
  · exact snd_inPlace _ s.bindings

theorem fst_popInPlace {g : Variable τ → Variable τ} {s : Scope τ}
    (h : (s.popInPlace g).2 = none) :
    (s.popInPlace g).1 =
      if s.depth = 0 then s
      else { s with bindings := s.bindings.map g, depth := s.depth - 1 } := by
  rw [popInPlace] at h ⊢
  split at h
  · cases h
  · next hd =>
    have hb : (inPlace (fun v ↦ (g v, v.popBreach?)) s.bindings).1 = s.bindings.map g :=
      fst_inPlace (fun _ _ ↦ rfl) h
    rw [if_neg hd, if_neg hd, ← hb]

end Scope

namespace Stack

/-- Ends a level of all scopes in place, the root first. -/
def popInPlace (g : Variable τ → Variable τ) (s : Stack τ) : Stack τ × Option Violation :=
  match inPlace (Scope.popInPlace g) s.enclosing with
  | (enclosing, some v) => ({ s with enclosing := enclosing, depth := s.depth - 1 }, some v)
  | (enclosing, none) =>
    let current := s.current.popInPlace g
    ({ s with current := current.1, enclosing := enclosing, depth := s.depth - 1 }, current.2)

variable {s : Stack τ}

theorem snd_popInPlace (g : Variable τ → Variable τ) (s : Stack τ) :
    (s.popInPlace g).2 = s.popBreach? := by
  have hb : (inPlace (Scope.popInPlace g) s.enclosing).2 =
      s.enclosing.findSome? Scope.popBreach? := by
    simp only [snd_inPlace, Scope.snd_popInPlace]
  rw [popBreach?_eq_or, ← hb, popInPlace]
  rcases inPlace (Scope.popInPlace g) s.enclosing with ⟨enclosing, _ | v⟩
  · exact Scope.snd_popInPlace g s.current
  · rfl

/-- A pop that breaches nothing ends a level of every scope. -/
theorem fst_popInPlace {g : Variable τ → Variable τ} {left : Scope τ → Scope τ}
    (hleft : ∀ c, (c.popInPlace g).2 = none → (c.popInPlace g).1 = left c)
    (h : (s.popInPlace g).2 = none) :
    (s.popInPlace g).1 = { s with
      current := left s.current
      enclosing := s.enclosing.map left
      depth := s.depth - 1 } := by
  have he := fst_inPlace hleft (l := s.enclosing)
  rw [popInPlace] at h ⊢
  generalize inPlace (Scope.popInPlace g) s.enclosing = p at h he ⊢
  obtain ⟨enclosing, _ | v⟩ := p
  · rw [← hleft s.current h, ← he rfl]
  · cases h

theorem foldLevel_eq_outcome (s : Stack τ) :
    s.foldLevel .strict = outcome (s.popInPlace .folded) := by
  rw [outcome_eq_stop (fst_popInPlace fun _ ↦ Scope.fst_popInPlace), snd_popInPlace]
  exact foldLevel_eq_stop .strict s

theorem takeArms_eq_outcome (s : Stack τ) :
    (s.takeArms .strict).map Prod.snd = outcome (s.popInPlace .shed) := by
  rw [outcome_eq_stop (fst_popInPlace fun _ ↦ Scope.fst_popInPlace), snd_popInPlace,
    takeArms_eq_stop, Mode.map_stop]
  rfl

/-- Where no scope has a level pushed, the root is found to have none before anything is
changed. -/
theorem popInPlace_of_depth_eq_zero (g : Variable τ → Variable τ) (hd : s.depth = 0)
    (h : ∀ c ∈ s.scopes, c.depth = 0) : s.popInPlace g = (s, some .unbalancedPop) := by
  obtain ⟨config, current, enclosing, counter, depth⟩ := s
  change depth = 0 at hd
  subst hd
  cases enclosing with
  | nil =>
    have hc : current.depth = 0 := h current (List.mem_singleton_self current)
    simp only [popInPlace, inPlace, Scope.popInPlace, if_pos hc]
  | cons root inner =>
    have hr : root.depth = 0 := h root List.mem_cons_self
    simp only [popInPlace, inPlace, Scope.popInPlace, if_pos hr]

end Stack

end DefiniteAssignment
