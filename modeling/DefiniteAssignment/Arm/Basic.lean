import DefiniteAssignment.Level

/-!
# Arms

What one of several arms that exclude each other knew at its end: the names it
left initialized, each with its order. Only what every arm knows is known after
all of them, so arms are put together by their meet. The first arm is the one
whose orders and whose sequence of names are kept.
-/

namespace DefiniteAssignment

structure Arm where
  entries : List (String × Order) := []
deriving DecidableEq, Repr

namespace Arm

/-- An arm that initializes nothing. -/
def empty : Arm := {}

/-- The order an arm records for a name, if it leaves the name initialized. -/
def order? (a : Arm) (name : String) : Option Order := a.entries.lookup name

def knows (a : Arm) (name : String) : Bool := (a.order? name).isSome

def names (a : Arm) : List String := a.entries.map Prod.fst

@[simp] theorem order?_empty (name : String) : empty.order? name = none := rfl
@[simp] theorem knows_empty (name : String) : empty.knows name = false := rfl

theorem knows_iff_mem_names {a : Arm} {name : String} : a.knows name ↔ name ∈ a.names := by
  obtain ⟨entries⟩ := a
  induction entries with
  | nil => simp [knows, order?, names]
  | cons e es ih =>
    simp only [knows, order?, names, List.map_cons, List.mem_cons] at ih ⊢
    by_cases h : name = e.1
    · simp [h]
    · rw [List.lookup_cons, beq_eq_false_iff_ne.mpr h, ih]
      simp [h]

/-- Two arms agree where they record the same, in whatever sequence. -/
def Agrees (a b : Arm) : Prop := ∀ name, a.order? name = b.order? name

theorem order?_eq_none_iff {a : Arm} {name : String} :
    a.order? name = none ↔ name ∉ a.names := by
  rw [← knows_iff_mem_names, knows]
  cases a.order? name <;> simp

theorem agrees_iff {a b : Arm} :
    a.Agrees b ↔ ∀ name ∈ a.names ++ b.names, a.order? name = b.order? name := by
  refine ⟨fun h name _ ↦ h name, fun h name ↦ ?_⟩
  by_cases hn : name ∈ a.names ++ b.names
  · exact h name hn
  · simp only [List.mem_append, not_or] at hn
    rw [order?_eq_none_iff.mpr hn.1, order?_eq_none_iff.mpr hn.2]

instance (a b : Arm) : Decidable (a.Agrees b) := decidable_of_iff _ agrees_iff.symm

/-- What every arm knows, as the first one puts it. With no arms at all nothing
is known. -/
def meet : List Arm → Arm
  | [] => empty
  | first :: rest => ⟨first.entries.filter fun e ↦ rest.all (·.knows e.1)⟩

@[simp] theorem meet_nil : meet [] = empty := rfl
@[simp] theorem meet_singleton (a : Arm) : meet [a] = a := by
  obtain ⟨entries⟩ := a
  simp [meet]

end Arm

end DefiniteAssignment
