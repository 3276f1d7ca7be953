/-
Instructions with the same line.

The line of an instruction does not always determine the instruction, since nothing is asked of
the names of data words.  All lines that begin with `mov` come from four instructions.  Three of
them move something to the accumulator: a number, the word of a name, or the remainder.  Their
lines are the same if what stands after the comma is the same.  The fourth moves the accumulator to
the word of a name, and its line is also one of the former if the name reaches over the comma:

    mov eax, w, eax

is a load of `w, eax` and a store to `eax, w`.  Both begin with `eax, ` and end in `, eax` after
the word `mov`, and these two texts can overlap in one way only, which gives `mov eax, eax`
(`overlap_iff`).

* `Instr.read_text` of `Accumulator.Proofs.LineReading` reads all other instructions off their
  lines, so they collide with nothing;
* `Instr.collision_of_load` and `Instr.collision_of_store` find what collides with a load or a
  store.
-/
import Accumulator.Proofs.LineReading
import Mathlib.Tactic.ByContra

namespace Accumulator

/-! ## Overlapping operands -/

/-- A text that begins with `eax, ` and ends in `, eax` has a text between them, or is
`eax, eax`. -/
lemma overlap_iff {source target : List Char} :
    "eax, ".toList ++ source = target ++ ", eax".toList ↔
      source = "eax".toList ∧ target = "eax".toList ∨
        ∃ w, source = w ++ ", eax".toList ∧ target = "eax, ".toList ++ w := by
  simp only [String.reduceToList]
  constructor
  · intro h
    rcases List.append_eq_append_iff.mp h with ⟨w, htarget, hsource⟩ | ⟨common, hbegin, hend⟩
    · exact .inr ⟨w, hsource, htarget⟩
    · -- the common part ends `eax, ` and begins `, eax`, so it is empty or begins at the comma
      cases common with
      | nil => exact .inr ⟨[], hend.symm, by simpa using hbegin.symm⟩
      | cons c common =>
        obtain ⟨rfl, hend⟩ := List.cons.inj hend
        simp only [List.cons_eq_append_iff, List.nil_eq_append_iff, List.cons.injEq, reduceCtorEq,
          Char.reduceEq, false_and, and_false, false_or, exists_false, or_false, true_and] at hbegin
        obtain ⟨-, rfl, -, rfl, -, rfl, rfl, rfl⟩ := hbegin
        exact .inl ⟨by simpa using hend.symm, rfl⟩
  · rintro (⟨rfl, rfl⟩ | ⟨w, rfl, rfl⟩)
    · rfl
    · exact (List.append_assoc _ _ _).symm

namespace Instr

/-- The labels of an instruction are labels of loops or of conditionals. -/
def ProperlyLabelled : Instr → Prop
  | label text | jumpIfZero text | jump text => ∃ l : Label, text = l.text
  | _ => True

/-- Two different instructions with the same line. -/
inductive Collision : Instr → Instr → Prop where
  /-- A number, and a name that looks like it. -/
  | number (value : Int64) : Collision (loadImmediate value) (load (toString value.toInt))
  /-- The remainder, and a name that looks like its register. -/
  | remainder : Collision moveRemainder (load "edx")
  /-- A name that looks like the accumulator, loaded and stored. -/
  | accumulator : Collision (load "eax") (store "eax")
  /-- Two names that reach over the comma. -/
  | overlap (w : String) : Collision (load (w ++ ", eax")) (store ("eax, " ++ w))

/-- The name of an instruction has no comma and looks neither like the register of the accumulator
or the remainder nor like a number. -/
def PlainNamed : Instr → Prop
  | load name | store name =>
    ',' ∉ name.toList ∧ name ≠ "eax" ∧ name ≠ "edx" ∧ ∀ value : Int64, name ≠ toString value.toInt
  | _ => True

variable {instr a b : Instr} {name target : String}

/-! ## Lines of moves -/

/-- A line that begins with `mov` is the line of a move. -/
lemma move_cases (h : instr.ProperlyLabelled) {operands : List Char}
    (htext : instr.text.toList = "mov ".toList ++ operands) :
    (∃ value, instr = loadImmediate value) ∨ (∃ name, instr = load name) ∨
      (∃ name, instr = store name) ∨ instr = moveRemainder := by
  cases instr with
  | loadImmediate value => exact .inl ⟨value, rfl⟩
  | load name => exact .inr (.inl ⟨name, rfl⟩)
  | store name => exact .inr (.inr (.inl ⟨name, rfl⟩))
  | moveRemainder => exact .inr (.inr (.inr rfl))
  | push | pop | add | sub | mul | clearExtension | div | compareEq | compareGt | output
  | jumpIfZero | jump => simp [text] at htext
  | label text =>
    -- the text of a label begins with another letter
    obtain ⟨⟨family, k⟩, rfl⟩ := h
    cases family <;> simp [Instr.text, Label.text, LabelFamily.stem] at htext

lemma text_load_toList :
    (load name).text.toList = "mov ".toList ++ ("eax, ".toList ++ name.toList) :=
  String.toList_append

lemma text_store_toList :
    (store target).text.toList = "mov ".toList ++ (target.toList ++ ", eax".toList) := by
  simp [text]

/-- A load and a store with the same line. -/
lemma text_load_eq_text_store_iff :
    (load name).text = (store target).text ↔
      name = "eax" ∧ target = "eax" ∨ ∃ w, name = w ++ ", eax" ∧ target = "eax, " ++ w := by
  rw [← String.toList_inj, text_load_toList, text_store_toList, List.append_cancel_left_eq,
    overlap_iff, String.toList_inj, String.toList_inj]
  refine or_congr_right ⟨?_, ?_⟩
  · rintro ⟨w, hname, htarget⟩
    refine ⟨String.ofList w, String.toList_inj.mp ?_, String.toList_inj.mp ?_⟩
    · rw [hname, String.toList_append, String.toList_ofList (l := w)]
    · rw [htarget, String.toList_append, String.toList_ofList (l := w)]
  · rintro ⟨w, rfl, rfl⟩
    exact ⟨w.toList, String.toList_append, String.toList_append⟩

/-- The text of a number has no comma. -/
lemma comma_not_mem_toString (value : Int64) : ',' ∉ (toString value.toInt).toList :=
  not_mem_of_all (all_isNumberChar_toString value.toInt) (by decide)

lemma toString_ne_eax (value : Int64) : toString value.toInt ≠ "eax" := by
  intro heq
  have hnumber := all_isNumberChar_toString value.toInt
  rw [heq] at hnumber
  exact absurd hnumber (by decide)

/-- A source without a comma, other than `eax`, is not in the line of a store. -/
lemma text_load_ne_text_store (hcomma : ',' ∉ name.toList) (heax : name ≠ "eax") :
    (load name).text ≠ (store target).text := by
  intro h
  rcases text_load_eq_text_store_iff.mp h with ⟨rfl, -⟩ | ⟨w, rfl, -⟩
  · exact heax rfl
  · exact hcomma (by simp)

/-! ## What collides -/

/-- What has the line of a load is the load, or collides with it. -/
lemma collision_of_load (hb : b.ProperlyLabelled) (hne : load name ≠ b)
    (h : (load name).text = b.text) :
    Collision (load name) b ∨ Collision b (load name) := by
  rcases move_cases hb (h ▸ text_load_toList) with ⟨value, rfl⟩ | ⟨other, rfl⟩ | ⟨target, rfl⟩ | rfl
  · obtain rfl : name = toString value.toInt := (String.append_right_inj "mov eax, ").mp h
    exact .inr (.number value)
  · obtain rfl : name = other := (String.append_right_inj "mov eax, ").mp h
    exact absurd rfl hne
  · rcases text_load_eq_text_store_iff.mp h with ⟨rfl, rfl⟩ | ⟨w, rfl, rfl⟩
    · exact .inl .accumulator
    · exact .inl (.overlap w)
  · obtain rfl : name = "edx" := (String.append_right_inj "mov eax, ").mp h
    exact .inr .remainder

/-- What has the line of a store is the store, or collides with it. -/
lemma collision_of_store (hb : b.ProperlyLabelled) (hne : store target ≠ b)
    (h : (store target).text = b.text) :
    Collision (store target) b ∨ Collision b (store target) := by
  rcases move_cases hb (h ▸ text_store_toList) with ⟨value, rfl⟩ | ⟨name, rfl⟩ | ⟨other, rfl⟩ | rfl
  · -- the number has the line of the load of its text
    exact absurd h.symm
      (text_load_ne_text_store (comma_not_mem_toString value) (toString_ne_eax value))
  · have hstore : (store target).ProperlyLabelled := trivial
    exact (collision_of_load hstore hne.symm h.symm).symm
  · have htext := congrArg String.toList h
    rw [text_store_toList, text_store_toList, List.append_cancel_left_eq,
      List.append_cancel_right_eq, String.toList_inj] at htext
    exact absurd (congrArg store htext) hne
  · -- the remainder has the line of the load of its register
    have hedx : (load "edx").text ≠ (store target).text :=
      text_load_ne_text_store (by decide) (by decide)
    exact absurd h.symm hedx

/-- All instructions but loads and stores can be read off their lines. -/
lemma readable_or (h : instr.ProperlyLabelled) :
    instr.Readable ∨ (∃ name, instr = load name) ∨ ∃ name, instr = store name := by
  cases instr with
  | load name => exact .inr (.inl ⟨name, rfl⟩)
  | store name => exact .inr (.inr ⟨name, rfl⟩)
  | label | jumpIfZero | jump => exact .inl h
  | loadImmediate | push | pop | add | sub | mul | clearExtension | div | moveRemainder | compareEq
  | compareGt | output => exact .inl trivial

/-- Different instructions with the same line collide. -/
lemma collision_of_text_eq (ha : a.ProperlyLabelled) (hb : b.ProperlyLabelled) (hne : a ≠ b)
    (h : a.text = b.text) : Collision a b ∨ Collision b a := by
  rcases readable_or ha with hreada | ⟨name, rfl⟩ | ⟨target, rfl⟩
  · rcases readable_or hb with hreadb | ⟨name, rfl⟩ | ⟨target, rfl⟩
    · have heq : a = b := by rw [← read_text hreada, h, read_text hreadb]
      exact absurd heq hne
    · exact (collision_of_load ha hne.symm h.symm).symm
    · exact (collision_of_store ha hne.symm h.symm).symm
  · exact collision_of_load hb hne h
  · exact collision_of_store hb hne h

/-- What collides has the same line. -/
lemma Collision.text_eq (h : Collision a b) : a.text = b.text := by
  cases h with
  | number | remainder => rfl
  | accumulator => exact text_load_eq_text_store_iff.mpr (.inl ⟨rfl, rfl⟩)
  | overlap w => exact text_load_eq_text_store_iff.mpr (.inr ⟨w, rfl, rfl⟩)

/-- What has plain names does not collide. -/
lemma Collision.not_plainNamed (h : Collision a b) (ha : a.PlainNamed) : ¬ b.PlainNamed := by
  intro hb
  cases h with
  | number value => exact hb.2.2.2 value rfl
  | remainder => exact hb.2.2.1 rfl
  | accumulator => exact hb.2.1 rfl
  | overlap w => exact ha.1 (by simp)

/-- **The lines that two instructions share.**  Two different instructions, whose labels are labels
of loops or of conditionals, have the same line if and only if they are a number and its text as a
name, the remainder and the name `edx`, a load and a store of the name `eax`, or a load and a store
whose names reach over the comma.  So instructions with plain names have different lines. -/
theorem text_eq_iff_collision {a b : Instr} (ha : a.ProperlyLabelled) (hb : b.ProperlyLabelled) :
    (a ≠ b → (a.text = b.text ↔ Collision a b ∨ Collision b a)) ∧
      (a.PlainNamed → b.PlainNamed → a.text = b.text → a = b) := by
  refine ⟨fun hne => ⟨collision_of_text_eq ha hb hne, ?_⟩, fun hplaina hplainb h => ?_⟩
  · rintro (h | h)
    · exact h.text_eq
    · exact h.text_eq.symm
  · by_contra hne
    rcases collision_of_text_eq ha hb hne h with hc | hc
    · exact hc.not_plainNamed hplaina hplainb
    · exact hc.not_plainNamed hplainb hplaina

theorem text_over_comma :
    (load "x, eax").ProperlyLabelled ∧ (store "eax, x").ProperlyLabelled ∧
      (load "x, eax").text = (store "eax, x").text ∧
      (loadImmediate (-7)).text = (load "-7").text ∧
      (jump (Label.loopEnd 1).text).text ≠ (jump (Label.loopEnd 11).text).text := by
  have hload : (load "x, eax").ProperlyLabelled := trivial
  have hstore : (store "eax, x").ProperlyLabelled := trivial
  have hminus : (loadImmediate (-7)).ProperlyLabelled := trivial
  have hname : (load "-7").ProperlyLabelled := trivial
  have hend (k : UInt64) : (jump (Label.loopEnd k).text).ProperlyLabelled := ⟨_, rfl⟩
  refine ⟨hload, hstore, ?_, ?_, fun heq => ?_⟩
  · exact ((text_eq_iff_collision hload hstore).1 (by decide)).mpr (.inl (.overlap "x"))
  · exact ((text_eq_iff_collision hminus hname).1 (by decide)).mpr (.inl (.number (-7)))
  · have hsame := (text_eq_iff_collision (hend 1) (hend 11)).2 trivial trivial heq
    exact absurd hsame (by decide)

end Instr

end Accumulator
