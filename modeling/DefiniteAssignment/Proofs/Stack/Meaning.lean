import DefiniteAssignment.Proofs.Stack.Arising
import DefiniteAssignment.Proofs.Stack.Outline
import Mathlib.Data.List.Induction

/-!
# What a name means

A name is looked up in two ways. Who only reads asks the scopes one after the other, from the
innermost to the root. Who means to change what is found is handed the binding itself: the current
scope is asked whether it binds the name, and only if it does not the enclosing ones are gone
through, from the last to the first. Here both ways are told as they are gone, beside the look-up
by which the library defines what a name means.

Both come to the binding of the innermost scope that has one. So a change is seen by whoever looks
the name up afterwards, and it is a change of that one binding: the same name in scopes around it
keeps its own bindings.
-/

namespace DefiniteAssignment

variable {τ : Type}

/-! ## One binding of a scope -/

/-- A scope in which the binding at one place is exchanged. -/
def Scope.exchange (s : Scope τ) (index : Nat) (w : Variable τ) : Scope τ :=
  { s with bindings := s.bindings.set index w }

/-- What a name means stands at one place of the scope, and only that place is written to. -/
theorem Scope.exists_set_eq_exchange {s : Scope τ} {name : String} {v : Variable τ}
    (hs : s.names.Nodup) (hv : s.find? name = some v) (w : Variable τ) :
    ∃ index, s.bindings[index]? = some v ∧ s.set name w = s.exchange index w := by
  obtain ⟨index, hi⟩ := List.mem_iff_getElem?.mp (mem_of_find? hv)
  refine ⟨index, hi, ?_⟩
  rw [set, exchange]
  congr 1
  refine List.ext_getElem? fun k ↦ ?_
  obtain ⟨hlt, rfl⟩ := List.getElem?_eq_some_iff.mp hi
  rw [List.getElem?_map]
  by_cases hk : k = index
  · subst hk
    rw [List.getElem?_set_self hlt, hi, Option.map_some, if_pos (name_of_find? hv)]
  · rw [List.getElem?_set_ne (Ne.symm hk)]
    cases hu : s.bindings[k]? with
    | none => rfl
    | some u =>
      -- Another binding has another name, since no name is bound twice.
      have hne : u.name ≠ name := by
        intro hn
        have hk' := (List.getElem?_eq_some_iff.mp hu).1
        have hnames : s.names[k]? = s.names[index]? := by
          rw [names, List.getElem?_map, List.getElem?_map, hu, hi, Option.map_some,
            Option.map_some, hn, name_of_find? hv]
        exact hk ((List.getElem?_inj (by rwa [names, List.length_map]) hs).mp hnames)
      rw [Option.map_some, if_neg hne]

/-- The variable that is put in the place of a name is what the name means then. -/
theorem Scope.find?_set {name : String} {w : Variable τ} (hw : w.name = name) (s : Scope τ)
    (other : String) :
    (s.set name w).find? other = (s.find? other).map fun u ↦ if other = name then w else u := by
  have hname (u : Variable τ) : (if u.name = name then w else u).name = u.name := by
    split
    · next hu => rw [hw, hu]
    · rfl
  simp only [find?, set, List.find?_map, Function.comp_def, hname]
  cases hu : s.bindings.find? (fun u ↦ u.name = other) with
  | none => rfl
  | some u => rw [Option.map_some, Option.map_some, name_of_find? hu]

namespace Stack

/-! ## Two ways to look a name up -/

/-- Goes through scopes from the last to the first, and hands over the first binding of a name,
with the place of its scope. -/
def walk (name : String) (scopes : List (Scope τ)) : Option (Nat × Variable τ) :=
  scopes.zipIdx.reverse.findSome? fun (c, place) ↦ (c.find? name).map (place, ·)

/-- The binding that is handed over to be changed, with the place of its scope. -/
def handle? (s : Stack τ) (name : String) : Option (Nat × Variable τ) :=
  if s.current.contains name then (s.current.find? name).map (s.enclosing.length, ·)
  else walk name s.enclosing

/-- No scope inside the one at a place binds the name. -/
def Unshadowed (s : Stack τ) (name : String) (place : Nat) : Prop :=
  ∀ c ∈ s.scopes.drop (place + 1), c.contains name = false

theorem walk_concat (name : String) (outer : List (Scope τ)) (c : Scope τ) :
    walk name (outer ++ [c]) =
      if c.contains name then (c.find? name).map (outer.length, ·) else walk name outer := by
  rw [walk, List.zipIdx_append, List.reverse_append, List.zipIdx_singleton,
    List.reverse_singleton, List.singleton_append, List.findSome?_cons, Scope.contains]
  simp only [Nat.zero_add]
  cases c.find? name <;> rfl

theorem walk_eq_some_iff {name : String} {scopes : List (Scope τ)} {place : Nat}
    {v : Variable τ} : walk name scopes = some (place, v) ↔
      placeInnermost name scopes = some place ∧ findInnermost name scopes = some v := by
  induction scopes using List.reverseRecOn with
  | nil => simp [walk, placeInnermost]
  | append_singleton outer c ih =>
    rw [walk_concat, placeInnermost_concat, findInnermost_append]
    simp only [findInnermost, Scope.contains]
    rcases Option.eq_none_or_eq_some (c.find? name) with hu | ⟨u, hu⟩
    · simpa [hu] using ih
    · simp [hu]

/-- Nothing is looked at but what each scope binds to the name. -/
theorem walk_congr {name : String} {scopes scopes' : List (Scope τ)}
    (h : scopes'.map (·.find? name) = scopes.map (·.find? name)) :
    walk name scopes' = walk name scopes := by
  have hwalk (l : List (Scope τ)) : walk name l =
      (l.map (·.find? name)).zipIdx.reverse.findSome? fun (v, place) ↦ v.map (place, ·) := by
    rw [walk, List.zipIdx_map, ← List.map_reverse, List.findSome?_map]
    rfl
  rw [hwalk, hwalk, h]

theorem findInnermost_eq_findSome? (name : String) (scopes : List (Scope τ)) :
    findInnermost name scopes = scopes.reverse.findSome? (·.find? name) := by
  induction scopes with
  | nil => rfl
  | cons c inner ih =>
    rw [findInnermost, ih, List.reverse_cons, List.findSome?_append]
    simp

theorem handle?_eq_walk (s : Stack τ) (name : String) : s.handle? name = walk name s.scopes :=
  (walk_concat name s.enclosing s.current).symm

theorem handle?_eq_some_iff {s : Stack τ} {name : String} {place : Nat} {v : Variable τ} :
    s.handle? name = some (place, v) ↔ s.place? name = some place ∧ s.find? name = some v := by
  rw [handle?_eq_walk, walk_eq_some_iff, place?, find?_eq_findInnermost]

/-- What is found is what is handed over to be changed. -/
theorem find?_eq_map_handle? (s : Stack τ) (name : String) :
    s.find? name = (s.handle? name).map Prod.snd := by
  cases hv : s.find? name with
  | none =>
    have hplace : s.place? name = none := place?_eq_none_iff.mpr hv
    cases hh : s.handle? name with
    | none => rfl
    | some p =>
      rw [(handle?_eq_some_iff.mp hh).1] at hplace
      cases hplace
  | some v =>
    obtain ⟨place, hplace⟩ := Option.isSome_iff_exists.mp
      ((isSome_place? s name).trans (congrArg Option.isSome hv))
    rw [handle?_eq_some_iff.mpr ⟨hplace, hv⟩, Option.map_some]

/-- What is handed over is bound in the scope at the place, and no scope inside it binds the
name. -/
theorem handle?_eq_some_iff_unshadowed {s : Stack τ} {name : String} {place : Nat}
    {v : Variable τ} : s.handle? name = some (place, v) ↔
      ∃ c, s.scopes[place]? = some c ∧ c.find? name = some v ∧ s.Unshadowed name place := by
  have hunshadowed : s.Unshadowed name place ↔
      (s.scopes.drop (place + 1)).any (·.contains name) = false := by
    rw [List.any_eq_false, Unshadowed]
    exact forall₂_congr fun _ _ ↦ Bool.eq_false_iff
  rw [handle?_eq_some_iff, hunshadowed]
  constructor
  · rintro ⟨hplace, hv⟩
    obtain ⟨c, hc, hfind, -⟩ := exists_of_place? hplace
    exact ⟨c, hc, hfind ▸ hv, (placeInnermost_eq_some_iff.mp hplace).2⟩
  · rintro ⟨c, hc, hv, hinner⟩
    have hplace : s.place? name = some place := by
      refine placeInnermost_eq_some_iff.mpr ⟨?_, hinner⟩
      rw [hc, Option.any_some, Scope.contains, hv]
      rfl
    obtain ⟨d, hd, hfind, -⟩ := exists_of_place? hplace
    rw [hc] at hd
    cases hd
    exact ⟨hplace, hfind.trans hv⟩

/-! ## A change -/

section
variable {s : Stack τ} {name : String} {place : Nat} {v w : Variable τ}

/-- A change of what a name means is a change of one binding in one scope. -/
theorem exists_scopes_set_eq (hs : ∀ c ∈ s.scopes, c.names.Nodup)
    (h : s.handle? name = some (place, v)) (w : Variable τ) : ∃ c index,
      s.scopes[place]? = some c ∧ c.bindings[index]? = some v ∧
        (s.set name w).scopes = s.scopes.set place (c.exchange index w) := by
  obtain ⟨hplace, hv⟩ := handle?_eq_some_iff.mp h
  obtain ⟨c, hc, hfind, -, hset⟩ := exists_of_place? hplace
  rw [hfind] at hv
  obtain ⟨index, hindex, hexchange⟩ :=
    Scope.exists_set_eq_exchange (hs c (List.mem_of_getElem? hc)) hv w
  exact ⟨c, index, hc, hindex, hexchange ▸ hset w⟩

/-- Every name means what it meant, but for the one whose meaning was changed. -/
theorem handle?_set (hw : w.name = name) (h : s.handle? name = some (place, v))
    (other : String) : (s.set name w).handle? other =
      if other = name then some (place, w) else s.handle? other := by
  obtain ⟨hplace, -⟩ := handle?_eq_some_iff.mp h
  obtain ⟨c, hc, -, hcontains, hset⟩ := exists_of_place? hplace
  by_cases hn : other = name
  · subst hn
    obtain ⟨-, -, -, hinner⟩ := handle?_eq_some_iff_unshadowed.mp h
    rw [if_pos rfl]
    refine handle?_eq_some_iff_unshadowed.mpr ⟨c.set other w, ?_, ?_, ?_⟩
    · rw [getElem?_of_set hc (hset w), if_pos rfl]
    · obtain ⟨u, hu⟩ := Option.isSome_iff_exists.mp hcontains
      rw [Scope.find?_set hw, hu, Option.map_some, if_pos rfl]
    · rw [Unshadowed, hset, List.drop_set_of_lt (Nat.lt_succ_self place)]
      exact hinner
  · rw [if_neg hn, handle?_eq_walk, handle?_eq_walk]
    refine walk_congr ?_
    rw [hset]
    refine map_set_of_eq hc ?_
    rw [Scope.find?_set hw]
    simp only [if_neg hn, Option.map_id']

theorem find?_eq_none_iff_forall :
    s.find? name = none ↔ ∀ c ∈ s.scopes, c.contains name = false := by
  rw [← place?_eq_none_iff, place?, placeInnermost_eq_none_iff, List.any_eq_false]
  exact forall₂_congr fun _ _ ↦ Bool.eq_false_iff.symm

/-- A call of a name is a call of what is handed over. -/
theorem call_of_handle? (h : s.handle? name = some (place, v)) (mode : Mode) (c : Variable.Call) :
    s.call mode name c = (v.call mode c).map fun (r, w) ↦ (some r, s.set name w) := by
  simp only [call, (handle?_eq_some_iff.mp h).2]

end

/-- Reading and changing meet the same binding, on every stack that comes about. What is found of
a name is its binding in the innermost scope that has one, and nothing is found exactly where no
scope has one. What is handed over to be changed is that binding in that scope. Whatever is made
of it, and the calls of a variable are ways to make something of it, is found afterwards. What any
other name means stays as it is, and so do all bindings but the one, those of the same name in
other scopes among them, and whatever else there is of the scopes and of the stack. -/
theorem reading_and_changing_meet_the_same_binding [Storable τ] {s : Stack τ} (hs : s.Arises)
    (name : String) :
    s.find? name = s.scopes.reverse.findSome? (·.find? name) ∧
    (s.find? name = none ↔ ∀ c ∈ s.scopes, c.contains name = false) ∧
    s.find? name = (s.handle? name).map Prod.snd ∧
    (∀ place v, s.handle? name = some (place, v) ↔
      ∃ c, s.scopes[place]? = some c ∧ c.find? name = some v ∧ s.Unshadowed name place) ∧
    (s.handle? name = none → ∀ mode c, s.call mode name c = .ok (none, s)) ∧
    ∀ place v, s.handle? name = some (place, v) →
      (∀ mode c, s.call mode name c =
        (v.call mode c).map fun (r, w) ↦ (some r, s.set name w)) ∧
      (∀ mode c r w, v.call mode c = .ok (r, w) → w.name = name) ∧
      ∀ w, w.name = name →
        let t := s.set name w
        t.find? name = some w ∧
        (∀ other, t.handle? other =
          if other = name then some (place, w) else s.handle? other) ∧
        (∃ c index, s.scopes[place]? = some c ∧ c.bindings[index]? = some v ∧
          t.scopes = s.scopes.set place (c.exchange index w)) ∧
        t.config = s.config ∧ t.depth = s.depth ∧ t.counter = s.counter := by
  refine ⟨?_, find?_eq_none_iff_forall, s.find?_eq_map_handle? name,
    fun _ _ ↦ handle?_eq_some_iff_unshadowed, fun hnone mode c ↦ ?_, fun place v h ↦ ?_⟩
  · rw [find?_eq_findInnermost, findInnermost_eq_findSome?]
  · have hfind : s.find? name = none := by rw [find?_eq_map_handle?, hnone, Option.map_none]
    rw [call, hfind]
  · have hnodup : ∀ c ∈ s.scopes, c.names.Nodup := fun c hc ↦ (hs.scopes c hc).wellKept.nodup
    obtain ⟨c, -, hv, -⟩ := handle?_eq_some_iff_unshadowed.mp h
    refine ⟨call_of_handle? h, fun mode call r w hw ↦ ?_, fun w hw ↦ ?_⟩
    · have hd := Variable.toDeclaration_call hw
      rw [← Scope.name_of_find? hv, hd]
    · have hset := handle?_set hw h
      refine ⟨?_, hset, exists_scopes_set_eq hnodup h w, s.config_set name w⟩
      rw [find?_eq_map_handle?, hset name, if_pos rfl, Option.map_some]

/-- Two of three scopes bind a name, and the innermost does not. The binding in the middle is
changed where it stands, and the one at the root is left as it is. -/
theorem shadowed_name_is_changed_in_the_middle :
    let d (name : String) : Declaration Layout := ⟨name, ⟨1, false⟩, false, default⟩
    let moves : List (Op Layout) :=
      [.declare (d "x"), .openScope, .declare (d "y"), .declare (d "x"), .openScope,
        .declare (d "z"), .pushLevel]
    ∃ rs x v, (Session.start {} ({} : SlotCounter) Log.empty).run .strict moves = .ok (rs, x) ∧
      x.stack.Arises ∧ x.stack.handle? "x" = some (1, v) ∧
      let t := x.stack.set "x" (v.define 7)
      t.find? "x" = some (v.define 7) ∧
      (∃ c index, x.stack.scopes[1]? = some c ∧ c.bindings[index]? = some v ∧
        t.scopes = x.stack.scopes.set 1 (c.exchange index (v.define 7))) ∧
      t.levelAt 1 "x" = some 7 ∧ t.levelAt 0 "x" = none := by
  intro d moves
  obtain ⟨rs, x, v, hrun, hhandle, hlevels⟩ : ∃ rs x v,
      (Session.start {} ({} : SlotCounter) Log.empty).run .strict moves = .ok (rs, x) ∧
      x.stack.handle? "x" = some (1, v) ∧
      (x.stack.set "x" (v.define 7)).levelAt 1 "x" = some 7 ∧
        (x.stack.set "x" (v.define 7)).levelAt 0 "x" = none :=
    ⟨_, _, _, rfl, rfl, rfl, rfl⟩
  have hx : x.stack.Arises := .of_run (.start {}) hrun
  obtain ⟨-, -, -, hunshadowed, -, hchange⟩ := reading_and_changing_meet_the_same_binding hx "x"
  obtain ⟨-, -, hset⟩ := hchange 1 v hhandle
  obtain ⟨c, -, hc, -⟩ := (hunshadowed 1 v).mp hhandle
  have hname : v.name = "x" := Scope.name_of_find? hc
  obtain ⟨hfind, -, hscopes, -⟩ := hset (v.define 7) hname
  exact ⟨rs, x, v, hrun, hx, hhandle, hfind, hscopes, hlevels⟩

end Stack

end DefiniteAssignment
