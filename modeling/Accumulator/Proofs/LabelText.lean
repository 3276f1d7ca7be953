/-
The text of a label determines the label.

Labels are compared by their texts: when a generator claims them, and when the machine looks for
the place that a jump leads to.  The text of a label is the stem of its family followed by the
decimal index.  Decimal notation is injective, and the first seven letters of a text tell its
family: `while_s`, `while_e`, `if_else` or `if_end_`.  The main result is

* `Label.text_injective`: labels with the same text are equal.
-/
import Accumulator.Label
import Mathlib

namespace Accumulator

namespace LabelFamily

/-- The first seven letters of a stem tell the families apart. -/
lemma take_stem_injective {f f' : LabelFamily}
    (h : f.stem.toList.take 7 = f'.stem.toList.take 7) : f = f' := by
  cases f <;> cases f' <;> first | rfl | exact absurd h (by decide)

lemma seven_le_length_stem (f : LabelFamily) : 7 ≤ f.stem.toList.length := by
  cases f <;> decide

end LabelFamily

namespace Label

/-- The family can be read off the first letters of a text. -/
lemma family_of_text_eq {l l' : Label} (h : l.text = l'.text) : l.family = l'.family := by
  have hlist : l.family.stem.toList ++ (toString l.index.toNat).toList
      = l'.family.stem.toList ++ (toString l'.index.toNat).toList := by
    simpa only [text, String.toList_append] using congrArg String.toList h
  have htake := congrArg (List.take 7) hlist
  rw [List.take_append_of_le_length l.family.seven_le_length_stem,
    List.take_append_of_le_length l'.family.seven_le_length_stem] at htake
  exact LabelFamily.take_stem_injective htake

/-- Labels with the same text are equal. -/
theorem text_injective {l l' : Label} (h : l.text = l'.text) : l = l' := by
  have hfamily := family_of_text_eq h
  obtain ⟨f, i⟩ := l
  obtain ⟨f', j⟩ := l'
  obtain rfl : f = f' := hfamily
  have hdigits : i.toNat.repr = j.toNat.repr := (String.append_right_inj f.stem).mp h
  have hindex : i = j := UInt64.toNat_inj.mp (Nat.repr_injective hdigits)
  rw [hindex]

@[simp] lemma text_inj {l l' : Label} : l.text = l'.text ↔ l = l' :=
  ⟨text_injective, fun h => h ▸ rfl⟩

end Label

/-! ## Naming places by an index -/

namespace LabelFamily

/-- The four functions that name a place of the code by an index, one for each family. -/
def naming : LabelFamily → UInt64 → String
  | loopStart => Label.text ∘ Label.loopStart
  | loopEnd => Label.text ∘ Label.loopEnd
  | branchElse => Label.text ∘ Label.branchElse
  | branchEnd => Label.text ∘ Label.branchEnd

lemma naming_apply (f : LabelFamily) (k : UInt64) : f.naming k = (Label.mk f k).text := by
  cases f <;> rfl

/-- **The text of a label is a faithful name.**  Two of the four functions give the same text to
two indices if and only if they belong to the same family and the indices are equal. -/
theorem naming_eq_iff (f f' : LabelFamily) (i j : UInt64) :
    f.naming i = f'.naming j ↔ f = f' ∧ i = j := by
  rw [naming_apply, naming_apply, Label.text_inj, Label.mk.injEq]

/-- Labels of different families differ at the same index, and so do labels of one family of which
one has a text that begins the other. -/
theorem naming_apart :
    (Label.loopStart 7).text ≠ (Label.loopEnd 7).text ∧
      (Label.branchElse 7).text ≠ (Label.branchEnd 7).text ∧
      (Label.loopStart 1).text ≠ (Label.loopStart 11).text := by
  refine ⟨?_, ?_, ?_⟩
  · intro htext
    exact absurd ((naming_eq_iff .loopStart .loopEnd 7 7).mp htext).1 (by decide)
  · intro htext
    exact absurd ((naming_eq_iff .branchElse .branchEnd 7 7).mp htext).1 (by decide)
  · intro htext
    exact absurd ((naming_eq_iff .loopStart .loopStart 1 11).mp htext).2 (by decide)

end LabelFamily

end Accumulator
