import DefiniteAssignment.Proofs.Scope.Arising

/-!
# What a check finds

A check goes through the bindings of a scope and reports each that has no value and needs one. The
words are the caller's, and two bindings may be reported in the same ones, so what is found is told
here as a list of variables: those on which a use would be refused here and now, of a type that does
not stand for a missing value, and for which nobody else answers. Each sink gets one error for each
of them. Giving one of them a value takes it out of the list and leaves the others in their places,
since each name is bound once and no other binding is touched.
-/

namespace DefiniteAssignment

variable {τ : Type}

namespace Variable

/-- A call that gives a value to a variable that has none. -/
def Call.givesValue : Call → Bool
  | .define _ | .assign _ _ => true
  | _ => false

variable {v w : Variable τ}

/-- Frozen or not, a variable takes its first value. -/
theorem exists_call_of_givesValue (mode : Mode) {c : Call} (hc : c.givesValue)
    (hv : v.initialized = false) : ∃ q order, v.call mode c = .ok (q, v.define order) := by
  cases c with
  | define order => exact ⟨.done, order, rfl⟩
  | assign order use =>
    refine ⟨.accepted, order, ?_⟩
    rw [call, assign, hv]
    rfl
  | _ => cases hc

/-- A use of the variable would be refused, its type does not stand for a missing value, and
nobody else answers for it. -/
def isFaulty [Storable τ] (use : Span) (v : Variable τ) : Bool :=
  !Storable.isOptional v.ty && !v.inherited && !(v.ensureInitialized use).isOk

theorem isOk_ensureInitialized (use : Span) (v : Variable τ) :
    (v.ensureInitialized use).isOk = v.initialized := by
  rw [ensureInitialized]
  cases v.initialized <;> rfl

/-- A check looks at values, and a use is refused exactly where there is none. -/
theorem isFaulty_eq_lacksValue [Storable τ] (use : Span) :
    isFaulty use = (lacksValue : Variable τ → Bool) := by
  funext v
  rw [isFaulty, lacksValue, isOk_ensureInitialized, Bool.and_comm, Bool.and_assoc]

end Variable

namespace Scope

/-- A check finds fault with some variables if each sink gets one error for each of them in their
sequence, behind what it has already, if no sink gets anything else, and if they are counted. -/
structure Finds [Storable τ] (s : Scope τ) (span : Span) (kindOf : String → ErrorKind)
    (faulty : List (Variable τ)) : Prop where
  sink {ω : Type} [Sink ω] (sink : ω) : s.checkAll span kindOf sink =
    (faulty.length, emitAll sink (faulty.map fun v ↦ .error ⟨kindOf v.name, span⟩))
  log (log : Log) : s.checkAll span kindOf log = (faulty.length,
    { log with errors := log.errors ++ faulty.map fun v ↦ ⟨kindOf v.name, span⟩ })
  errors (errors : List Error) : s.checkAll span kindOf errors =
    (faulty.length, errors ++ faulty.map fun v ↦ ⟨kindOf v.name, span⟩)

theorem finds_faulty [Storable τ] (s : Scope τ) (span use : Span) (kindOf : String → ErrorKind) :
    s.Finds span kindOf (s.bindings.filter (·.isFaulty use)) := by
  rw [Variable.isFaulty_eq_lacksValue]
  constructor
  · intro ω _ sink
    rw [checkAll, uninitialized, List.length_map, List.map_map]
    rfl
  · intro log
    rw [checkAll, uninitialized, List.length_map, Log.emitAll_errors]
  · intro errors
    rw [checkAll, uninitialized, List.length_map, emitAll_errors]

/-- What a name means is exchanged, and no other binding. -/
theorem bindings_set {s : Scope τ} (hs : s.names.Nodup) {v : Variable τ} (w : Variable τ)
    {before after : List (Variable τ)} (h : s.bindings = before ++ v :: after) :
    (s.set v.name w).bindings = before ++ w :: after := by
  rw [names, h, List.map_append, List.map_cons] at hs
  have hother : v.name ∉ (before ++ after).map (·.name) := by
    rw [List.map_append]
    exact (List.nodup_cons.mp (List.nodup_middle.mp hs)).1
  have hkept (u : Variable τ) (hu : u ∈ before ++ after) :
      (if u.name = v.name then w else u) = u := by
    refine if_neg fun hn ↦ hother ?_
    rw [← hn]
    exact List.mem_map_of_mem hu
  have hbefore := List.map_congr_left fun u hu ↦ hkept u (List.mem_append_left after hu)
  have hafter := List.map_congr_left fun u hu ↦ hkept u (List.mem_append_right before hu)
  rw [set, h, List.map_append, List.map_cons, if_pos rfl, hbefore, hafter, List.map_id',
    List.map_id']

/-- Where a faulty variable is given a value, the others are left, in their sequence. -/
theorem exists_filter_isFaulty_set [Storable τ] {s : Scope τ} (hs : s.names.Nodup)
    {v : Variable τ} {use : Span} (hv : v ∈ s.bindings.filter (·.isFaulty use)) :
    ∃ before after, s.bindings.filter (·.isFaulty use) = before ++ v :: after ∧
      ∀ w : Variable τ, w.isFaulty use = false →
        (s.set v.name w).bindings.filter (·.isFaulty use) = before ++ after := by
  obtain ⟨hv, hfaulty⟩ := List.mem_filter.mp hv
  obtain ⟨before, after, h⟩ := List.append_of_mem hv
  refine ⟨before.filter (·.isFaulty use), after.filter (·.isFaulty use), ?_, fun w hw ↦ ?_⟩
  · rw [h, List.filter_append, List.filter_cons_of_pos hfaulty]
  · rw [bindings_set hs w h, List.filter_append,
      List.filter_cons_of_neg (Bool.eq_false_iff.mp hw)]

/-- A check reports exactly the offenders. On every scope that comes about, and whatever words the
caller has for a name, a check finds fault with those bindings that are not optional and not
inherited and of which a use would be refused, and with no others: each sink gets one error for each
of them, in declaration order and behind what the sink has already, a log gets no warning, a list of
errors gets the same errors as a log, and the number of errors is answered. If any one of these
variables is given a value, frozen or not, the next check finds fault with the others, in the same
order, and with nothing else. -/
theorem check_finds_exactly_the_faulty [Storable τ] {s : Scope τ} (hs : s.Arises) (span : Span)
    (kindOf : String → ErrorKind) :
    let faulty := s.bindings.filter fun v ↦
      !Storable.isOptional v.ty && !v.inherited && !(v.ensureInitialized span).isOk
    s.Finds span kindOf faulty ∧
      ∀ v ∈ faulty, ∃ before after, faulty = before ++ v :: after ∧
        ∀ mode (c : Variable.Call), c.givesValue →
          ∃ q t, s.call mode v.name c = .ok (some q, t) ∧
            t.Finds span kindOf (before ++ after) := by
  intro faulty
  refine ⟨s.finds_faulty span span kindOf, fun v hv ↦ ?_⟩
  have hnodup : s.names.Nodup := hs.wellKept.nodup
  obtain ⟨before, after, hfaulty, hrest⟩ := exists_filter_isFaulty_set hnodup hv
  refine ⟨before, after, hfaulty, fun mode c hc ↦ ?_⟩
  obtain ⟨hbound, hlacks⟩ := List.mem_filter.mp hv
  have huninitialized : v.initialized = false := by
    have hrefused := (Bool.and_eq_true_iff.mp hlacks).2
    rw [Variable.isOk_ensureInitialized] at hrefused
    simpa using hrefused
  obtain ⟨q, order, hcall⟩ := v.exists_call_of_givesValue mode hc huninitialized
  refine ⟨q, s.set v.name (v.define order), ?_, ?_⟩
  · rw [call_of_find?_eq_some (find?_of_mem hnodup hbound), hcall]
    rfl
  · have hdefined : (v.define order).isFaulty span = false := by
      rw [Variable.isFaulty, Variable.isOk_ensureInitialized, Variable.initialized_define,
        Bool.not_true, Bool.and_false]
    rw [← hrest _ hdefined]
    exact finds_faulty _ span span kindOf

/-- Two variables are reported in the same words: one whose value was left behind in an arm, and a
frozen one. One that is optional and one that is inherited are not. The log has an error and
a warning already. Once the frozen variable is assigned, only the error about the other is left. -/
theorem check_is_selective :
    let d (name : String) (optional frozen : Bool) : Declaration Layout :=
      ⟨name, ⟨1, optional⟩, frozen, default⟩
    let ops : List (Op Layout) :=
      [.declareAt (d "x" false false) ⟨0⟩ false, .declareAt (d "o" true false) ⟨1⟩ false,
        .declareAt (d "p" false false) ⟨2⟩ true, .declareAt (d "f" false true) ⟨3⟩ false,
        .pushLevel, .demand "x" (.define 1), .takeArm "arm"]
    let kindOf (_ : String) : ErrorKind := .uninitializedInstance "self"
    let e : Error := ⟨.redeclared "x", default⟩
    let log : Log := ⟨[e], [⟨.neverMutated "x", default⟩]⟩
    let told : Error := ⟨.uninitializedInstance "self", default⟩
    ∃ rs y, (Session.start ({} : SlotCounter) Log.empty).run .strict ops = .ok (rs, y) ∧
      y.scope.checkAll default kindOf log = (2, { log with errors := [e, told, told] }) ∧
      ∃ q t, y.scope.call .strict "f" (.assign 2 default) = .ok (some q, t) ∧
        t.checkAll default kindOf [e] = (1, [e, told]) := by
  intro d ops kindOf e log told
  obtain ⟨rs, y, hrun, x, f, hbindings, hf⟩ : ∃ rs y,
      (Session.start ({} : SlotCounter) Log.empty).run .strict ops = .ok (rs, y) ∧
      ∃ x f : Variable Layout, (y.scope.bindings.filter fun v ↦
        !Storable.isOptional v.ty && !v.inherited &&
          !(v.ensureInitialized default).isOk) = [x, f] ∧ f.name = "f" :=
    ⟨_, _, rfl, _, _, rfl, rfl⟩
  have hy : y.scope.Arises := .of_run (.opened 0) hrun
  obtain ⟨hfinds, hrest⟩ := check_finds_exactly_the_faulty hy default kindOf
  rw [hbindings] at hfinds hrest
  obtain ⟨before, after, hfaulty, hassigned⟩ := hrest f (by simp)
  obtain ⟨q, t, hcall, ht⟩ := hassigned .strict (.assign 2 default) rfl
  have hone : (before ++ after).length = 1 := by
    have hlength := congrArg List.length hfaulty
    simp only [List.length_append, List.length_cons, List.length_nil] at hlength ⊢
    omega
  obtain ⟨v, hv⟩ := List.length_eq_one_iff.mp hone
  rw [hv] at ht
  rw [hf] at hcall
  exact ⟨rs, y, hrun, hfinds.log log, q, t, hcall, ht.errors [e]⟩

end Scope

end DefiniteAssignment
