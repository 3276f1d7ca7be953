/-
Names in the order of their first mention.

A roster is a list of names into which every name is entered at most once: entering a name
that is already there changes nothing, and a new name goes to the end.  Data words and the
names bound by an expression are kept in this order.
-/
namespace Accumulator

namespace Roster

/-- Enter a name at the end, unless it is there already. -/
def enter (roster : List String) (name : String) : List String :=
  if name ∈ roster then roster else roster ++ [name]

/-- Enter the names of a list one after another. -/
def enterAll (roster names : List String) : List String :=
  names.foldl enter roster

/-- The names of a list in the order of their first occurrences. -/
def ofList (names : List String) : List String :=
  enterAll [] names

@[simp] theorem enterAll_nil (roster : List String) : enterAll roster [] = roster := rfl

@[simp] theorem enterAll_cons (roster names : List String) (name : String) :
    enterAll roster (name :: names) = enterAll (enter roster name) names := rfl

theorem enterAll_append (roster xs ys : List String) :
    enterAll roster (xs ++ ys) = enterAll (enterAll roster xs) ys :=
  List.foldl_append

@[simp] theorem mem_enter {a name : String} {roster : List String} :
    a ∈ enter roster name ↔ a = name ∨ a ∈ roster := by
  unfold enter
  split
  · rename_i h
    exact ⟨Or.inr, fun ha => ha.elim (fun e => e ▸ h) id⟩
  · simp [or_comm]

@[simp] theorem mem_enterAll {a : String} {roster names : List String} :
    a ∈ enterAll roster names ↔ a ∈ names ∨ a ∈ roster := by
  induction names generalizing roster with
  | nil => simp
  | cons name names ih =>
    rw [enterAll_cons, ih, mem_enter, List.mem_cons, or_left_comm, or_assoc]

theorem enter_nodup {roster : List String} (h : roster.Nodup) (name : String) :
    (enter roster name).Nodup := by
  unfold enter
  split
  · exact h
  · rename_i hn
    refine List.nodup_append.mpr ⟨h, by simp, fun a ha b hb => ?_⟩
    rw [List.mem_singleton.mp hb]
    exact fun e => hn (e ▸ ha)

theorem enterAll_nodup {roster : List String} (h : roster.Nodup) (names : List String) :
    (enterAll roster names).Nodup := by
  induction names generalizing roster with
  | nil => exact h
  | cons name names ih => exact ih (enter_nodup h name)

end Roster

end Accumulator
