import DefiniteAssignment.Source

/-!
# Reports

What can be said about a binding: four errors and one warning, each about one
name. What is wrong (the kind) is kept apart from where it is (the span), so
that a kind can be told from another wherever it was found.
-/

namespace DefiniteAssignment

inductive ErrorKind where
  /-- The scope binds the name already. -/
  | redeclared (name : String)
  /-- A field is left without a value. -/
  | uninitializedInstance (name : String)
  /-- Some path reaches a use without a value. -/
  | possiblyUninitialized (name : String)
  /-- A frozen variable that has its value is given another. -/
  | frozenMutation (name : String)
deriving DecidableEq, Repr

namespace ErrorKind

def name : ErrorKind → String
  | redeclared n | uninitializedInstance n | possiblyUninitialized n | frozenMutation n => n

/-- Names stand as they are: nothing in them is escaped. -/
def message : ErrorKind → String
  | redeclared n => "Cannot redeclare variable: " ++ n
  | uninitializedInstance n => "Instance variable `" ++ n ++ "` must be initialized"
  | possiblyUninitialized n => "Variable `" ++ n ++ "` is possibly not initialized"
  | frozenMutation n => "Cannot modify frozen variable: " ++ n

@[simp] theorem name_redeclared (n : String) : (redeclared n).name = n := rfl
@[simp] theorem name_uninitializedInstance (n : String) : (uninitializedInstance n).name = n := rfl
@[simp] theorem name_possiblyUninitialized (n : String) : (possiblyUninitialized n).name = n := rfl
@[simp] theorem name_frozenMutation (n : String) : (frozenMutation n).name = n := rfl

end ErrorKind

inductive WarningKind where
  /-- A variable that could be frozen and is not. -/
  | neverMutated (name : String)
deriving DecidableEq, Repr

namespace WarningKind

def name : WarningKind → String
  | neverMutated n => n

def message : WarningKind → String
  | neverMutated n => "Variable `" ++ n ++ "` was never mutated; consider making it frozen"

@[simp] theorem name_neverMutated (n : String) : (neverMutated n).name = n := rfl

end WarningKind

/-- A kind of report together with the place it is about. -/
structure Located (κ : Type) where
  kind : κ
  span : Span
deriving DecidableEq, Repr

abbrev Error := Located ErrorKind
abbrev Warning := Located WarningKind

/-- Errors and warnings in one stream, in the order they are made. -/
inductive Report where
  | error (e : Error)
  | warning (w : Warning)
deriving DecidableEq, Repr

namespace Report

def span : Report → Span
  | error e => e.span
  | warning w => w.span

def name : Report → String
  | error e => e.kind.name
  | warning w => w.kind.name

/-- The text of the kind alone, without its place. -/
def message : Report → String
  | error e => e.kind.message
  | warning w => w.kind.message

def error? : Report → Option Error
  | error e => some e
  | warning _ => none

def warning? : Report → Option Warning
  | error _ => none
  | warning w => some w

@[simp] theorem span_error (e : Error) : (error e).span = e.span := rfl
@[simp] theorem span_warning (w : Warning) : (warning w).span = w.span := rfl
@[simp] theorem name_error (e : Error) : (error e).name = e.kind.name := rfl
@[simp] theorem name_warning (w : Warning) : (warning w).name = w.kind.name := rfl
@[simp] theorem message_error (e : Error) : (error e).message = e.kind.message := rfl
@[simp] theorem message_warning (w : Warning) : (warning w).message = w.kind.message := rfl
@[simp] theorem error?_error (e : Error) : (error e).error? = some e := rfl
@[simp] theorem error?_warning (w : Warning) : (warning w).error? = none := rfl
@[simp] theorem warning?_error (e : Error) : (error e).warning? = none := rfl
@[simp] theorem warning?_warning (w : Warning) : (warning w).warning? = some w := rfl

end Report

end DefiniteAssignment
