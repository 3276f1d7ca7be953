/-
Segments of code.

The code of a part of an expression is a piece of the code of the whole.  `Segment code a part`
says that the instructions `part` stand in `code` from the place `a` on.  A segment that is
put together from pieces is split into the segments of the pieces, and for every form of
expression a lemma `Segment.binary`, `Segment.loop`, ... says where its parts and its own
instructions stand.

A label that is marked once in the code is found by the machine where it is marked
(`target_eq_some`).
-/
import Accumulator.Lowering
import Accumulator.Machine
import Mathlib.Tactic.Lemma

namespace Accumulator

/-! ## The length of code -/

namespace Node

lemma length_code_binary (op : Operator) (left right : Node) :
    (binary op left right).code.length
      = left.code.length + 1 + right.code.length + 1 + op.tail.length := by
  simp only [code, List.length_append, List.length_singleton]

lemma length_code_bind (name : String) (value : Node) :
    (bind name value).code.length = value.code.length + 1 := by
  simp only [code, List.length_append, List.length_singleton]

lemma length_code_loop (k : UInt64) (condition body : Node) :
    (loop k condition body).code.length
      = 1 + condition.code.length + 1 + body.code.length + 2 := by
  simp only [code, List.length_append, List.length_cons, List.length_nil]

lemma length_code_branch (k : UInt64) (condition consequent alternative : Node) :
    (branch k condition consequent alternative).code.length
      = condition.code.length + 1 + consequent.code.length + 2
        + alternative.code.length + 1 := by
  simp only [code, List.length_append, List.length_cons, List.length_nil]

end Node

/-! ## Segments -/

/-- The instructions `part` stand in the code from the place `start` on. -/
def Segment (code : List Instr) (start : Nat) (part : List Instr) : Prop :=
  ∃ before after, code = before ++ part ++ after ∧ before.length = start

namespace Segment

variable {code xs ys : List Instr} {a : Nat} {x : Instr}

lemma whole (code : List Instr) : Segment code 0 code :=
  ⟨[], [], by simp, rfl⟩

lemma append_left (h : Segment code a (xs ++ ys)) : Segment code a xs := by
  obtain ⟨before, after, rfl, rfl⟩ := h
  exact ⟨before, ys ++ after, by simp, rfl⟩

lemma append_right (h : Segment code a (xs ++ ys)) : Segment code (a + xs.length) ys := by
  obtain ⟨before, after, rfl, rfl⟩ := h
  exact ⟨before ++ xs, after, by simp, by simp⟩

lemma head (h : Segment code a (x :: xs)) : code[a]? = some x := by
  obtain ⟨before, after, rfl, rfl⟩ := h
  simp

lemma tail (h : Segment code a (x :: xs)) : Segment code (a + 1) xs := by
  rw [← List.singleton_append] at h
  exact h.append_right

/-- The instructions of a segment, by their places in the code. -/
lemma getElem?_add (h : Segment code a xs) {i : Nat} (hi : i < xs.length) :
    code[a + i]? = xs[i]? := by
  obtain ⟨before, after, rfl, rfl⟩ := h
  rw [List.append_assoc, List.getElem?_append_right (by omega), Nat.add_sub_cancel_left,
    List.getElem?_append_left hi]

/-! ## The parts of an expression -/

/-- The left operand, a push, the right operand, a pop, and the tail of the operator. -/
lemma binary {op : Operator} {left right : Node}
    (h : Segment code a (Node.binary op left right).code) :
    Segment code a left.code ∧ code[a + left.code.length]? = some .push ∧
      Segment code (a + left.code.length + 1) right.code ∧
      code[a + left.code.length + 1 + right.code.length]? = some .pop ∧
      Segment code (a + left.code.length + 1 + right.code.length + 1) op.tail := by
  simp only [Node.code, List.append_assoc] at h
  have hrest := h.append_right.append_right
  exact ⟨h.append_left, h.append_right.head, hrest.append_left, hrest.append_right.head,
    hrest.append_right.tail⟩

/-- The value and a store. -/
lemma bind {name : String} {value : Node} (h : Segment code a (Node.bind name value).code) :
    Segment code a value.code ∧ code[a + value.code.length]? = some (.store name) :=
  ⟨h.append_left, h.append_right.head⟩

/-- The start label, the condition, the jump to the end, the body, the jump to the start and
the end label. -/
lemma loop {k : UInt64} {condition body : Node}
    (h : Segment code a (Node.loop k condition body).code) :
    code[a]? = some (.label (Label.loopStart k).text) ∧
      Segment code (a + 1) condition.code ∧
      code[a + 1 + condition.code.length]? = some (.jumpIfZero (Label.loopEnd k).text) ∧
      Segment code (a + 1 + condition.code.length + 1) body.code ∧
      code[a + 1 + condition.code.length + 1 + body.code.length]?
        = some (.jump (Label.loopStart k).text) ∧
      code[a + 1 + condition.code.length + 1 + body.code.length + 1]?
        = some (.label (Label.loopEnd k).text) := by
  simp only [Node.code, List.append_assoc] at h
  have hbody := h.append_right.append_right.append_right
  exact ⟨h.head, h.append_right.append_left, h.append_right.append_right.head,
    hbody.append_left, hbody.append_right.head, hbody.append_right.tail.head⟩

/-- The condition, the jump to the second branch, the first branch, the jump to the end, the
label of the second branch, the second branch and the end label. -/
lemma branch {k : UInt64} {condition consequent alternative : Node}
    (h : Segment code a (Node.branch k condition consequent alternative).code) :
    Segment code a condition.code ∧
      code[a + condition.code.length]? = some (.jumpIfZero (Label.branchElse k).text) ∧
      Segment code (a + condition.code.length + 1) consequent.code ∧
      code[a + condition.code.length + 1 + consequent.code.length]?
        = some (.jump (Label.branchEnd k).text) ∧
      code[a + condition.code.length + 1 + consequent.code.length + 1]?
        = some (.label (Label.branchElse k).text) ∧
      Segment code (a + condition.code.length + 1 + consequent.code.length + 1 + 1)
        alternative.code ∧
      code[a + condition.code.length + 1 + consequent.code.length + 1 + 1
        + alternative.code.length]? = some (.label (Label.branchEnd k).text) := by
  simp only [Node.code, List.append_assoc] at h
  have hfirst := h.append_right.append_right
  have hsecond := hfirst.append_right.append_right
  exact ⟨h.append_left, h.append_right.head, hfirst.append_left, hfirst.append_right.head,
    hfirst.append_right.tail.head, hsecond.append_left, hsecond.append_right.head⟩

end Segment

/-! ## Places of labels -/

namespace Machine

/-- A label that is marked at one place only is found at this place. -/
lemma target_eq_some {code : List Instr} {l : String} {place : Nat}
    (hplace : code[place]? = some (.label l))
    (hunique : ∀ i, code[i]? = some (.label l) → i = place) :
    target code l = some place := by
  obtain ⟨hlt, heq⟩ := List.getElem?_eq_some_iff.mp hplace
  refine List.findIdx?_eq_some_iff_getElem.mpr ⟨hlt, by simp [heq], fun i hi => ?_⟩
  intro hmark
  have hi' : code[i]? = some (.label l) := by
    rw [List.getElem?_eq_getElem (by omega)]
    simpa using hmark
  exact absurd (hunique i hi') (by omega)

/-- The machine finds a label only where it is marked. -/
lemma getElem?_of_target {code : List Instr} {l : String} {place : Nat}
    (h : target code l = some place) : code[place]? = some (.label l) := by
  obtain ⟨hlt, heq, -⟩ := List.findIdx?_eq_some_iff_getElem.mp h
  rw [List.getElem?_eq_getElem hlt]
  simpa using heq

end Machine

end Accumulator
