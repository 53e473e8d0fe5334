import DefiniteAssignment.Proofs.Stack.Verdicts

/-!
# What a log keeps

Many come to one log: the analysis itself, checks of scopes, scopes that close, units that are
finished. Each of them is an occasion, and on each any sink gets the same reports in the same order.
So a log is compared with the reports of all its occasions, one after another.

It keeps errors and warnings apart, and shows the errors first. That is what a stable sort by
severity makes of the reports: there are two severities only, and a stable sort leaves the reports
of one severity in their order.

Occasions are taken as they come, on any scopes and stacks. A run of a session is one way in which
they come about, and nothing else comes to its sink.
-/

namespace DefiniteAssignment

variable {τ α ω : Type}

/-! ## Occasions -/

/-- Something that is done with a sink at hand. The scopes and stacks that come to one sink need not
belong together, and may be over different types. -/
inductive Occasion where
  /-- The analysis has something to say for itself. -/
  | report (r : Report)
  | check {τ : Type} [Storable τ] (s : Scope τ) (span : Span) (kindOf : String → ErrorKind)
  | recommend {τ : Type} (s : Scope τ)
  | closeScope {τ : Type} (s : Stack τ)
  | finish {τ : Type} (s : Stack τ)

namespace Occasion

/-- What becomes of the sink. -/
def tell [Sink ω] (sink : ω) : Occasion → ω
  | report r => emit sink r
  | check s span kindOf => (s.checkAll span kindOf sink).2
  | recommend s => s.recommend sink
  | closeScope s => (s.closeScope? sink).elim sink fun (_, _, out) ↦ out
  | finish s => (s.finish sink).2

/-- What is reported. The root of a stack is not closed, so nothing is said of it until the unit is
finished. -/
def reports : Occasion → List Report
  | report r => [r]
  | check s span kindOf => (s.uninitialized span kindOf).map .error
  | recommend s => s.unmutated.map .warning
  | closeScope s => if s.enclosing = [] then [] else (s.config.due s.current).map .warning
  | finish s => (s.scopes.reverse.flatMap s.config.due).map .warning

/-- Whichever sink is at hand, it gets the reports of the occasion, and nothing else. -/
theorem tell_eq_emitAll [Sink ω] (sink : ω) (o : Occasion) :
    o.tell sink = emitAll sink o.reports := by
  cases o with
  | report | check | recommend => rfl
  | closeScope s =>
    rcases List.eq_nil_or_concat' s.enclosing with hroot | ⟨outer, scope, h⟩
    · rw [tell, (Stack.closeScope?_eq_none_iff s sink).mpr hroot, reports, if_pos hroot]
      rfl
    · have hlast : s.enclosing.getLast? = some scope := by rw [h, List.getLast?_concat]
      have hopen : s.enclosing ≠ [] := by rw [h]; exact List.concat_ne_nil scope outer
      rw [tell, Stack.closeScope?, hlast, reports, if_neg hopen, ← Stack.judge_eq_emitAll]
      rfl
  | finish s => exact Stack.foldl_judge_eq_emitAll s.config s.scopes.reverse sink

end Occasion

/-- One occasion after another. -/
def tellAll [Sink ω] (sink : ω) (occasions : List Occasion) : ω :=
  occasions.foldl Occasion.tell sink

theorem tellAll_cons [Sink ω] (sink : ω) (o : Occasion) (occasions : List Occasion) :
    tellAll sink (o :: occasions) = tellAll (o.tell sink) occasions := rfl

theorem tellAll_append [Sink ω] (sink : ω) (first rest : List Occasion) :
    tellAll sink (first ++ rest) = tellAll (tellAll sink first) rest := List.foldl_append

theorem tellAll_eq_emitAll [Sink ω] (sink : ω) (occasions : List Occasion) :
    tellAll sink occasions = emitAll sink (occasions.flatMap Occasion.reports) := by
  induction occasions generalizing sink with
  | nil => rfl
  | cons o occasions ih =>
    rw [tellAll_cons, ih, Occasion.tell_eq_emitAll, List.flatMap_cons, emitAll_append]

/-! ## The occasions of a run -/

namespace Stack.Session

variable [Storable τ]

/-- On which occasion an operation comes to the sink, if it does. -/
def occasions (x : Session τ α ω) : Op τ → List Occasion
  | .report r | .current (.report r) => [.report r]
  | .current (.checkAll span kindOf) => [.check x.stack.current span kindOf]
  | .current .recommend => [.recommend x.stack.current]
  | .closeScope => [.closeScope x.stack]
  | _ => []

variable [Allocator α] [Sink ω] {mode : Mode} {x y : Session τ α ω} {op : Op τ} {r : Reply τ}

theorem sink_of_step (h : x.step mode op = .ok (r, y)) :
    y.sink = tellAll x.sink (x.occasions op) := by
  cases op with
  | openScope | report =>
    cases h
    rfl
  | closeScope =>
    rw [occasions, tellAll_cons, Occasion.tell]
    simp only [step] at h
    split at h
    · next closed stack sink hclose =>
      cases h
      rw [hclose]
      rfl
    · next hclose =>
      cases h
      rw [hclose]
      rfl
  | current op =>
    obtain ⟨⟨q, z⟩, hz, h⟩ := Violation.bind_eq_ok_iff.mp h
    cases h
    cases op with
    | checkAll | recommend | report =>
      cases hz
      rfl
    | _ => exact Scope.Session.sink_of_speaks_eq_false rfl hz
  | _ => exact (quiet_of_step rfl rfl h).sink

/-- All that comes to the sink in a run comes on the occasions of its turns. -/
theorem sink_of_run {ops : List (Op τ)} {rs : List (Reply τ)} (h : x.run mode ops = .ok (rs, y)) :
    y.sink = tellAll x.sink ((x.turns mode ops).flatMap fun t ↦ t.before.occasions t.op) := by
  induction ops generalizing x rs with
  | nil =>
    cases h
    rfl
  | cons op ops ih =>
    obtain ⟨q, z, qs, hstep, hrest, rfl⟩ := run_cons_eq_ok_iff.mp h
    rw [turns_cons hstep, List.flatMap_cons, tellAll_append, ← sink_of_step hstep]
    exact ih hrest

end Stack.Session

/-! ## Logs -/

theorem Severity.le_eq_or : ∀ a b : Severity,
    decide (a ≤ b) = (decide (a = .error) || !decide (b = .error))
  | .error, .error | .error, .warning | .warning, .error | .warning, .warning => rfl

namespace Report

theorem mem_filterMap_error? {e : Error} {rs : List Report} :
    e ∈ rs.filterMap error? ↔ .error e ∈ rs := by
  rw [List.mem_filterMap]
  constructor
  · rintro ⟨r | r, hr, he⟩
    · cases he
      exact hr
    · cases he
  · intro he
    exact ⟨.error e, he, rfl⟩

theorem map_error_filterMap (rs : List Report) :
    (rs.filterMap error?).map error = rs.filter (·.severity = .error) := by
  induction rs with
  | nil => rfl
  | cons r rs ih => cases r <;> simp [List.filterMap_cons, severity, ih]

theorem map_warning_filterMap (rs : List Report) :
    (rs.filterMap warning?).map warning = rs.filter fun r ↦ !decide (r.severity = .error) := by
  induction rs with
  | nil => rfl
  | cons r rs ih => cases r <;> simp [List.filterMap_cons, severity, ih]

end Report

namespace Log

/-- Errors first and each in the order of its kind: that is the stable sort by severity. -/
theorem diagnostics_emitAll (rs : List Report) : (emitAll empty rs).diagnostics =
    (rs.map Report.diagnostic).mergeSort fun d d' ↦ decide (d.severity ≤ d'.severity) := by
  have hreports : (emitAll empty rs).reports =
      rs.filter (·.severity = .error) ++ rs.filter fun r ↦ !decide (r.severity = .error) := by
    rw [reports, emitAll_eq, ← Report.map_error_filterMap, ← Report.map_warning_filterMap]
    rfl
  rw [diagnostics, hreports, List.map_append, mergeSort_eq_filter_append fun d d' ↦
    Severity.le_eq_or d.severity d'.severity, List.filter_map, List.filter_map]
  rfl

theorem hasErrors_emitAll (rs : List Report) :
    (emitAll empty rs).hasErrors ↔ ∃ e, .error e ∈ rs := by
  have herrors : (emitAll empty rs).errors = rs.filterMap Report.error? := by
    rw [emitAll_eq]
    rfl
  rw [hasErrors, herrors, Bool.not_eq_true', List.isEmpty_eq_false_iff_exists_mem]
  exact exists_congr fun e ↦ Report.mem_filterMap_error?

theorem isEmpty_emitAll (rs : List Report) : (emitAll empty rs).isEmpty ↔ rs = [] := by
  rw [emitAll_eq]
  cases rs with
  | nil => simp [isEmpty]
  | cons r rs => cases r <;> simp [isEmpty, List.filterMap_cons]

/-- A log keeps all that it is told. Take occasions on which reports are made, any number of them in
any order: reports of the analysis itself, checks, recommendations, scopes that close, units that
are finished. Let one new log be at hand on all of them. What is told is what a list of reports
would have if it were at hand instead, and these are the reports of the occasions, one after
another. Then the diagnostics of the log are the stable sort by severity of the diagnostics of what
is told. None is lost and none is added, and equal reports are kept one by one. Its errors and its
warnings are those that are told, in their order. It has errors exactly if an error is told, and it
is empty exactly if nothing is. A list of errors in its place has the same errors in the same order.
-/
theorem keeps_all_that_is_told (occasions : List Occasion) :
    let told : List Report := tellAll [] occasions
    let log : Log := tellAll empty occasions
    told = occasions.flatMap Occasion.reports ∧
    log.diagnostics = (told.map Report.diagnostic).mergeSort
      (fun d d' ↦ decide (d.severity ≤ d'.severity)) ∧
    log.diagnostics.Perm (told.map Report.diagnostic) ∧
    log.errors = told.filterMap Report.error? ∧ log.warnings = told.filterMap Report.warning? ∧
    (log.hasErrors ↔ ∃ e, .error e ∈ told) ∧ (log.isEmpty ↔ told = []) ∧
    tellAll ([] : List Error) occasions = log.errors := by
  intro told log
  have htold : told = occasions.flatMap Occasion.reports :=
    (tellAll_eq_emitAll _ occasions).trans (emitAll_reports_eq_append [] _)
  have hlog : log = emitAll empty told := by
    rw [htold]
    exact tellAll_eq_emitAll empty occasions
  have hkept : log = ⟨told.filterMap Report.error?, told.filterMap Report.warning?⟩ :=
    hlog.trans (emitAll_eq empty told)
  have herrors : tellAll ([] : List Error) occasions = told.filterMap Report.error? := by
    rw [tellAll_eq_emitAll, ← htold, emitAll_errors_eq_append, List.nil_append]
  have hsorted : log.diagnostics = (told.map Report.diagnostic).mergeSort
      (fun d d' ↦ decide (d.severity ≤ d'.severity)) := by
    rw [hlog]
    exact diagnostics_emitAll told
  refine ⟨htold, hsorted, ?_, congrArg errors hkept, congrArg warnings hkept, ?_, ?_, ?_⟩
  · rw [hsorted]
    exact List.mergeSort_perm _ _
  · rw [hlog]
    exact hasErrors_emitAll told
  · rw [hlog]
    exact isEmpty_emitAll told
  · rw [herrors, hkept]

/-- A warning that was told first is shown last, and equal errors are shown one by one. -/
example :
    let w : Report := .warning ⟨.neverMutated "w", default⟩
    let e : Report := .error ⟨.redeclared "a", default⟩
    (tellAll empty [.report w, .report e, .report e]).diagnostics =
      [e, e, w].map Report.diagnostic := rfl

end Log

end DefiniteAssignment
