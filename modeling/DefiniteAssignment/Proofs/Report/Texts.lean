import DefiniteAssignment.Proofs.Lists
import DefiniteAssignment.Report.Diagnostic

/-!
# Reports are told apart by their texts

Names stand in a text as they are, so a name may look like the words around it, and like the place
that is printed before them. Two reports are told apart nevertheless. A text is a name in a frame of
fixed words, and of two frames of different wording neither begins as the other does, or neither
ends as the other does, whatever names are put in. Only digits stand before the marks that end a
line number and a column, so these can be read off from the left, and what is left is the message.
-/

namespace DefiniteAssignment

/-! ## Words around a name -/

/-- Two frames that are never confused: the beginnings part, or the ends do. -/
def Apart (f g : String × String) : Prop :=
  (¬f.1.toList <+: g.1.toList ∧ ¬g.1.toList <+: f.1.toList) ∨
    (¬f.2.toList <:+ g.2.toList ∧ ¬g.2.toList <:+ f.2.toList)

instance (f g : String × String) : Decidable (Apart f g) := inferInstanceAs (Decidable (_ ∨ _))

/-- Names that are put in the same frame give the same text only if they are the same. -/
theorem framed_inj {f : String × String} {n m : String} :
    f.1 ++ n ++ f.2 = f.1 ++ m ++ f.2 ↔ n = m := by
  rw [String.append_left_inj, String.append_right_inj]

/-- Names that are put in frames that are never confused give different texts. -/
theorem framed_ne {f g : String × String} (h : Apart f g) (n m : String) :
    f.1 ++ n ++ f.2 ≠ g.1 ++ m ++ g.2 := by
  intro heq
  have hlist := congrArg String.toList heq
  simp only [String.toList_append] at hlist
  rcases h with hbefore | hafter
  · rw [List.append_assoc, List.append_assoc] at hlist
    exact append_ne_of_not_prefix hbefore hlist
  · exact append_ne_of_not_suffix hafter hlist

/-! ## Wordings -/

/-- A kind of report, whatever name it is about. -/
inductive Wording where
  | redeclared
  | uninitializedInstance
  | possiblyUninitialized
  | frozenMutation
  | neverMutated
deriving DecidableEq, Repr

namespace Wording

/-- The words before a name and after it. -/
def frame : Wording → String × String
  | redeclared => ("Cannot redeclare variable: ", "")
  | uninitializedInstance => ("Instance variable `", "` must be initialized")
  | possiblyUninitialized => ("Variable `", "` is possibly not initialized")
  | frozenMutation => ("Cannot modify frozen variable: ", "")
  | neverMutated => ("Variable `", "` was never mutated; consider making it frozen")

theorem frame_apart {w w' : Wording} (h : w ≠ w') : Apart w.frame w'.frame := by
  cases w <;> cases w' <;> first | exact absurd rfl h | decide

end Wording

namespace Report

/-- What is reported, errors and warnings together, wherever it is. -/
def kind : Report → ErrorKind ⊕ WarningKind
  | error e => .inl e.kind
  | warning w => .inr w.kind

def wording : Report → Wording
  | error ⟨.redeclared _, _⟩ => .redeclared
  | error ⟨.uninitializedInstance _, _⟩ => .uninitializedInstance
  | error ⟨.possiblyUninitialized _, _⟩ => .possiblyUninitialized
  | error ⟨.frozenMutation _, _⟩ => .frozenMutation
  | warning ⟨.neverMutated _, _⟩ => .neverMutated

section
variable {r s : Report}

theorem kind_eq_iff : r.kind = s.kind ↔ r.wording = s.wording ∧ r.name = s.name := by
  rcases r with ⟨_ | _ | _ | _, _⟩ | ⟨⟨_⟩, _⟩ <;>
    rcases s with ⟨_ | _ | _ | _, _⟩ | ⟨⟨_⟩, _⟩ <;>
      simp [kind, wording]

/-- A code stands for a wording. -/
theorem code_eq_iff : r.code = s.code ↔ r.wording = s.wording := by
  rcases r with ⟨_ | _ | _ | _, _⟩ | ⟨⟨_⟩, _⟩ <;>
    rcases s with ⟨_ | _ | _ | _, _⟩ | ⟨⟨_⟩, _⟩ <;>
      simp [code, ErrorKind.code, WarningKind.code, wording]

theorem severity_eq_of_kind (h : r.kind = s.kind) : r.severity = s.severity := by
  cases r <;> cases s <;> first | rfl | cases h

theorem eq_iff_kind_span : r = s ↔ r.kind = s.kind ∧ r.span = s.span := by
  rcases r with ⟨_, _⟩ | ⟨_, _⟩ <;> rcases s with ⟨_, _⟩ | ⟨_, _⟩ <;> simp [kind]

end

/-- The text of a kind is its name in the frame of its wording. -/
theorem message_eq_framed : ∀ r : Report,
    r.message = r.wording.frame.1 ++ r.name ++ r.wording.frame.2
  | error ⟨.redeclared _, _⟩ | error ⟨.frozenMutation _, _⟩ => String.append_empty.symm
  | error ⟨.uninitializedInstance _, _⟩ | error ⟨.possiblyUninitialized _, _⟩
  | warning ⟨.neverMutated _, _⟩ => rfl

/-- No mark that is printed behind a severity or a code is in it. -/
theorem notMem_severity (r : Report) : '[' ∉ r.severity.text.toList := by
  cases r with
  | error => exact (by decide : '[' ∉ "error".toList)
  | warning => exact (by decide : '[' ∉ "warning".toList)

theorem notMem_code (r : Report) : ']' ∉ r.code.toList := by
  rcases r with ⟨_ | _ | _ | _, _⟩ | ⟨⟨_⟩, _⟩ <;>
    simp [code, ErrorKind.code, WarningKind.code]

end Report

/-! ## Places -/

/-- Digits are no marks. -/
theorem notMem_toString {a : Char} (h : a.isDigit = false) (n : Nat) : a ∉ (toString n).toList := by
  intro ha
  rw [Nat.toString_eq_repr, Nat.toList_repr] at ha
  rw [Nat.isDigit_of_mem_toDigits (by decide) (by decide) ha] at h
  cases h

theorem toString_inj {n m : Nat} (h : (toString n).toList = (toString m).toList) : n = m := by
  rw [Nat.toString_eq_repr, Nat.toString_eq_repr, Nat.toList_repr, Nat.toList_repr] at h
  rw [← @Nat.ofDigitChars_ten_toDigits n, h, Nat.ofDigitChars_ten_toDigits]

/-- Line and column are read off from the left, and what follows the place is left. -/
theorem Position.text_append_inj {p q : Position} {us vs : List Char}
    (h : p.text.toList ++ ')' :: us = q.text.toList ++ ')' :: vs) :
    p.line = q.line ∧ p.column = q.column ∧ us = vs := by
  have hmark : ":".toList = [':'] := rfl
  simp only [text, String.toList_append, hmark, List.append_assoc, List.singleton_append] at h
  obtain ⟨hline, h⟩ := append_cons_inj (notMem_toString rfl _) (notMem_toString rfl _) h
  obtain ⟨hcolumn, h⟩ := append_cons_inj (notMem_toString rfl _) (notMem_toString rfl _) h
  exact ⟨toString_inj hline, toString_inj hcolumn, h⟩

namespace Report

section
variable {r s : Report}

/-- The text of a kind tells its wording and its name. -/
theorem message_eq_iff : r.message = s.message ↔ r.kind = s.kind := by
  rw [kind_eq_iff, message_eq_framed, message_eq_framed]
  constructor
  · intro h
    have hw : r.wording = s.wording := by
      by_contra hne
      exact framed_ne (Wording.frame_apart hne) _ _ h
    rw [hw] at h
    exact ⟨hw, framed_inj.mp h⟩
  · rintro ⟨hw, hn⟩
    rw [hw, hn]

/-- The text of a diagnostic as it is read off from the left, mark by mark. -/
theorem toList_text_diagnostic (r : Report) : r.diagnostic.text.toList =
    r.severity.text.toList ++ '[' :: (r.code.toList ++ ']' :: ' ' :: '(' ::
      (r.span.start.text.toList ++ ')' :: ' ' :: r.message.toList)) := by
  simp [Diagnostic.text]

theorem text_diagnostic_eq_iff : r.diagnostic.text = s.diagnostic.text ↔
    r.kind = s.kind ∧ r.span.start.line = s.span.start.line ∧
      r.span.start.column = s.span.start.column := by
  constructor
  · intro h
    have htext := congrArg String.toList h
    rw [toList_text_diagnostic, toList_text_diagnostic] at htext
    obtain ⟨-, htext⟩ := append_cons_inj r.notMem_severity s.notMem_severity htext
    obtain ⟨-, htext⟩ := append_cons_inj r.notMem_code s.notMem_code htext
    simp only [List.cons.injEq, true_and] at htext
    obtain ⟨hline, hcolumn, htext⟩ := Position.text_append_inj htext
    have hmessage : r.message = s.message := String.toList_inj.mp (List.cons.inj htext).2
    exact ⟨message_eq_iff.mp hmessage, hline, hcolumn⟩
  · rintro ⟨hkind, hline, hcolumn⟩
    have hcode : r.code = s.code := code_eq_iff.mpr (kind_eq_iff.mp hkind).1
    have hplace : r.span.start.text = s.span.start.text := by
      rw [Position.text, Position.text, hline, hcolumn]
    rw [Diagnostic.text, Diagnostic.text, severity_diagnostic, severity_diagnostic,
      severity_eq_of_kind hkind, code_diagnostic, code_diagnostic, hcode, span_diagnostic,
      span_diagnostic, hplace, message_diagnostic, message_diagnostic, message_eq_iff.mpr hkind]

/-- A diagnostic keeps all of its report. -/
theorem diagnostic_eq_iff : r.diagnostic = s.diagnostic ↔ r.kind = s.kind ∧ r.span = s.span := by
  constructor
  · intro h
    have hcode : r.code = s.code := congrArg Diagnostic.code h
    have hname : r.name = s.name := congrArg Diagnostic.subject h
    exact ⟨kind_eq_iff.mpr ⟨code_eq_iff.mp hcode, hname⟩, congrArg Diagnostic.span h⟩
  · intro h
    rw [eq_iff_kind_span.mpr h]

end

/-- Reports are never confused, whatever the names are in them and wherever they are. The texts of
their kinds are the same exactly if the kinds are, names included, errors and warnings together. The
diagnostics are the same exactly if kinds and spans are. And the texts of the diagnostics, which
name the place where the span starts, are the same exactly if the kinds are, and the lines and the
columns of these places. -/
theorem texts_tell_reports_apart (r s : Report) :
    (r.message = s.message ↔ r.kind = s.kind) ∧
    (r.diagnostic = s.diagnostic ↔ r.kind = s.kind ∧ r.span = s.span) ∧
    (r.diagnostic.text = s.diagnostic.text ↔ r.kind = s.kind ∧
      r.span.start.line = s.span.start.line ∧ r.span.start.column = s.span.start.column) :=
  ⟨message_eq_iff, diagnostic_eq_iff, text_diagnostic_eq_iff⟩

/-- An offset is kept and not printed. -/
example :
    let r (offset : Nat) : Report := .error ⟨.redeclared "x", .point ⟨offset, 3, 9⟩⟩
    (r 0).diagnostic.text = (r 7).diagnostic.text ∧ (r 0).diagnostic ≠ (r 7).diagnostic :=
  ⟨rfl, by decide⟩

end Report

end DefiniteAssignment
