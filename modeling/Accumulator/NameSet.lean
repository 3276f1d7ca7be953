/-
Finite sets of names.

A set of names is stored as the strictly increasing list of its members, in the order of their
code points, so that listing a set (`toList`) gives every member once, in order.  Inserting adds
the inserted name and nothing else (`mem_insert`, `mem_insertAll`).
-/
namespace Accumulator

/-- A finite set of names, as the strictly increasing list of its members. -/
structure NameSet where
  toList : List String
  sorted : toList.Pairwise (· < ·)
deriving DecidableEq, Repr

namespace NameSet

instance : Membership String NameSet := ⟨fun s name => name ∈ s.toList⟩

instance (name : String) (s : NameSet) : Decidable (name ∈ s) :=
  inferInstanceAs (Decidable (name ∈ s.toList))

theorem mem_def {name : String} {s : NameSet} : name ∈ s ↔ name ∈ s.toList := Iff.rfl

/-- The set without members. -/
def empty : NameSet := ⟨[], List.Pairwise.nil⟩

instance : EmptyCollection NameSet := ⟨empty⟩

instance : Inhabited NameSet := ⟨empty⟩

@[simp] theorem not_mem_empty (name : String) : name ∉ (∅ : NameSet) := by
  intro h
  exact List.not_mem_nil h

/-! ## Insertion -/

/-- Put a name at its place in an increasing list, unless it stands there already. -/
def place (name : String) : List String → List String
  | [] => [name]
  | x :: xs =>
    if name = x then x :: xs
    else if name < x then name :: x :: xs
    else x :: place name xs

theorem mem_place {a name : String} {xs : List String} :
    a ∈ place name xs ↔ a = name ∨ a ∈ xs := by
  induction xs with
  | nil => simp [place]
  | cons x xs ih =>
    unfold place
    split
    · rename_i h
      simp [h]
    · split
      · simp
      · simp [ih, or_left_comm]

theorem place_sorted {name : String} {xs : List String} (h : xs.Pairwise (· < ·)) :
    (place name xs).Pairwise (· < ·) := by
  induction xs with
  | nil => simp [place]
  | cons x xs ih =>
    have hx := List.pairwise_cons.mp h
    unfold place
    split
    · exact h
    · rename_i hne
      split
      · rename_i hlt
        refine List.pairwise_cons.mpr ⟨fun a ha => ?_, h⟩
        rcases List.mem_cons.mp ha with rfl | ha
        · exact hlt
        · exact String.lt_trans hlt (hx.1 a ha)
      · rename_i hlt
        refine List.pairwise_cons.mpr ⟨fun a ha => ?_, ih hx.2⟩
        rcases mem_place.mp ha with rfl | ha
        · refine Decidable.byContradiction fun hge => hne ?_
          exact String.le_antisymm (String.not_lt.mp hge) (String.not_lt.mp hlt)
        · exact hx.1 a ha

/-- The set with one more member. -/
def insert (name : String) (s : NameSet) : NameSet :=
  ⟨place name s.toList, place_sorted s.sorted⟩

@[simp] theorem mem_insert {a name : String} {s : NameSet} :
    a ∈ s.insert name ↔ a = name ∨ a ∈ s :=
  mem_place

/-- The set with all names of a list added to it. -/
def insertAll (s : NameSet) (names : List String) : NameSet :=
  names.foldl (fun t name => t.insert name) s

@[simp] theorem mem_insertAll {a : String} {s : NameSet} {names : List String} :
    a ∈ s.insertAll names ↔ a ∈ names ∨ a ∈ s := by
  induction names generalizing s with
  | nil => simp [insertAll]
  | cons name names ih =>
    have h := ih (s := s.insert name)
    simp only [insertAll, List.foldl_cons] at h ⊢
    rw [h, mem_insert, List.mem_cons, or_left_comm, or_assoc]

/-- The set of the names of a list. -/
def ofList (names : List String) : NameSet := insertAll ∅ names

end NameSet

end Accumulator
