import DefiniteAssignment.Report.Basic

/-!
# Diagnostics

The flat record a report is printed from. It carries a code that stays the same
when wordings change, and the name of the binding it is about, so a reader need
not take the message apart.
-/

namespace DefiniteAssignment

inductive Severity where
  | error
  | warning
deriving DecidableEq, Repr

namespace Severity

/-- The graver severity comes first. -/
def rank : Severity → Nat
  | error => 0
  | warning => 1

instance : Ord Severity := ⟨fun a b => compare a.rank b.rank⟩

instance : LE Severity := ⟨fun a b => a.rank ≤ b.rank⟩

instance (a b : Severity) : Decidable (a ≤ b) := inferInstanceAs (Decidable (a.rank ≤ b.rank))

def text : Severity → String
  | error => "error"
  | warning => "warning"

end Severity

structure Diagnostic where
  code : String
  severity : Severity
  span : Span
  message : String
  /-- The name of the binding the diagnostic is about. -/
  subject : String
deriving DecidableEq, Repr

/-- Only the place where the span starts is printed. -/
def Diagnostic.text (d : Diagnostic) : String :=
  d.severity.text ++ "[" ++ d.code ++ "] (" ++ d.span.start.text ++ ") " ++ d.message

def ErrorKind.code : ErrorKind → String
  | redeclared _ => "SC-SCOPE-REDECLARED"
  | uninitializedInstance _ => "SC-SCOPE-UNINITIALIZED-INSTANCE-VARIABLE"
  | possiblyUninitialized _ => "SC-SCOPE-POSSIBLY-UNINITIALIZED"
  | frozenMutation _ => "SC-SCOPE-FROZEN-MUTATION"

def WarningKind.code : WarningKind → String
  | neverMutated _ => "SC-SCOPE-NEVER-MUTATED"

namespace Report

def code : Report → String
  | error e => e.kind.code
  | warning w => w.kind.code

def severity : Report → Severity
  | error _ => .error
  | warning _ => .warning

def diagnostic (r : Report) : Diagnostic where
  code := r.code
  severity := r.severity
  span := r.span
  message := r.message
  subject := r.name

@[simp] theorem code_diagnostic (r : Report) : r.diagnostic.code = r.code := rfl
@[simp] theorem severity_diagnostic (r : Report) : r.diagnostic.severity = r.severity := rfl
@[simp] theorem span_diagnostic (r : Report) : r.diagnostic.span = r.span := rfl
@[simp] theorem message_diagnostic (r : Report) : r.diagnostic.message = r.message := rfl
@[simp] theorem subject_diagnostic (r : Report) : r.diagnostic.subject = r.name := rfl

end Report

end DefiniteAssignment
