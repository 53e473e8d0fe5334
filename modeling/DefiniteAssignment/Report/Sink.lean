import DefiniteAssignment.Report.Diagnostic

/-!
# Sinks

Where reports go. A check never prints: it hands each report to a sink, one at a
time and in order. A log keeps all of them; a list of errors is a sink for a
caller that has no use for advice.
-/

namespace DefiniteAssignment

class Sink (ω : Type) where
  emit : ω → Report → ω

export Sink (emit)

/-- Hands over several reports in order. -/
def emitAll {ω : Type} [Sink ω] (sink : ω) (reports : List Report) : ω :=
  reports.foldl emit sink

section
variable {ω : Type} [Sink ω]

@[simp] theorem emitAll_nil (sink : ω) : emitAll sink [] = sink := rfl

@[simp] theorem emitAll_cons (sink : ω) (r : Report) (rs : List Report) :
    emitAll sink (r :: rs) = emitAll (emit sink r) rs := rfl

theorem emitAll_append (sink : ω) (rs ss : List Report) :
    emitAll sink (rs ++ ss) = emitAll (emitAll sink rs) ss := List.foldl_append

end

/-- A sink that keeps everything, errors apart from warnings. -/
structure Log where
  errors : List Error := []
  warnings : List Warning := []
deriving DecidableEq, Repr

namespace Log

def empty : Log := {}

instance : Sink Log where
  emit log
    | .error e => { log with errors := log.errors ++ [e] }
    | .warning w => { log with warnings := log.warnings ++ [w] }

@[simp] theorem errors_empty : empty.errors = [] := rfl
@[simp] theorem warnings_empty : empty.warnings = [] := rfl

@[simp] theorem errors_emit (log : Log) (r : Report) :
    (emit log r).errors = log.errors ++ r.error?.toList := by
  cases r <;> simp [emit]

@[simp] theorem warnings_emit (log : Log) (r : Report) :
    (emit log r).warnings = log.warnings ++ r.warning?.toList := by
  cases r <;> simp [emit]

/-- Of several reports, too, each goes to the list of its kind. -/
theorem emitAll_eq (log : Log) (rs : List Report) : emitAll log rs =
    ⟨log.errors ++ rs.filterMap Report.error?, log.warnings ++ rs.filterMap Report.warning?⟩ := by
  induction rs generalizing log with
  | nil => simp
  | cons r rs ih =>
    rw [emitAll_cons, ih, errors_emit, warnings_emit]
    cases r <;> simp [List.filterMap_cons]

/-- Errors go behind those that a log has, and nothing else is done to it. -/
theorem emitAll_errors (log : Log) (es : List Error) :
    emitAll log (es.map .error) = { log with errors := log.errors ++ es } := by
  rw [emitAll_eq]
  simp [List.filterMap_map, Function.comp_def]

theorem emitAll_warnings (log : Log) (ws : List Warning) :
    emitAll log (ws.map .warning) = { log with warnings := log.warnings ++ ws } := by
  rw [emitAll_eq]
  simp [List.filterMap_map, Function.comp_def]

def hasErrors (log : Log) : Bool := !log.errors.isEmpty

def isEmpty (log : Log) : Bool := log.errors.isEmpty && log.warnings.isEmpty

/-- What was reported, errors first and each in the order of its kind. -/
def reports (log : Log) : List Report := log.errors.map .error ++ log.warnings.map .warning

def diagnostics (log : Log) : List Diagnostic := log.reports.map Report.diagnostic

end Log

/-- A list of errors lets warnings pass by. -/
instance : Sink (List Error) where
  emit errors r := errors ++ r.error?.toList

@[simp] theorem emit_errors (errors : List Error) (r : Report) :
    emit errors r = errors ++ r.error?.toList := rfl

theorem emitAll_errors_eq_append (errors : List Error) (rs : List Report) :
    emitAll errors rs = errors ++ rs.filterMap Report.error? := by
  induction rs generalizing errors with
  | nil => simp
  | cons r rs ih =>
    rw [emitAll_cons, ih, emit_errors]
    cases r <;> simp [List.filterMap_cons]

/-- A list of errors gets the same errors as a log. -/
theorem emitAll_errors (errors es : List Error) :
    emitAll errors (es.map .error) = errors ++ es := by
  rw [emitAll_errors_eq_append]
  simp [List.filterMap_map, Function.comp_def]

/-- A list of reports keeps every one in its place. -/
instance : Sink (List Report) where
  emit reports r := reports ++ [r]

@[simp] theorem emit_reports (reports : List Report) (r : Report) :
    emit reports r = reports ++ [r] := rfl

theorem emitAll_reports_eq_append (reports rs : List Report) :
    emitAll reports rs = reports ++ rs := by
  induction rs generalizing reports with
  | nil => exact (List.append_nil reports).symm
  | cons r rs ih => rw [emitAll_cons, ih, emit_reports, List.append_assoc, List.singleton_append]

end DefiniteAssignment
