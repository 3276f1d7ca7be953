/-
Reading the lines of a listing.

The line of an instruction can be read back if its names are well-formed, that is, made of
letters, digits and underscores, with no digit first, and not the name of a register, and if its
labels are labels of loops or conditionals.  Such names and labels contain neither blank nor
comma nor colon, so a line is cut into its words at these characters:

* a line with a colon marks a label;
* else the first word tells the instruction, except for the word `mov`;
* a move to anything but the accumulator is a store, and the source of a move to the accumulator
  is the remainder register, a number or a name.

The main result is `Instr.read_text`: reading the line of an instruction gives the instruction.
-/
import Accumulator.Instr
import Accumulator.Proofs.LabelText

namespace Accumulator

/-! ## Names -/

/-- A character that may stand in a name. -/
def isNameChar (c : Char) : Bool := c.isAlphanum || c = '_'

/-- A well-formed name. -/
structure IsName (name : String) : Prop where
  /-- It begins with a letter or an underscore. -/
  head : (name.toList.head?.any fun c => c.isAlpha || c = '_') = true
  /-- It is made of letters, digits and underscores. -/
  chars : name.toList.all isNameChar = true
  /-- It is not the name of a register. -/
  not_register : name ∉ ["eax", "ebx", "edx"]

instance (name : String) : Decidable (IsName name) :=
  decidable_of_iff
    ((name.toList.head?.any fun c => c.isAlpha || c = '_') = true ∧
      name.toList.all isNameChar = true ∧ name ∉ ["eax", "ebx", "edx"])
    ⟨fun ⟨hhead, hchars, hregister⟩ => ⟨hhead, hchars, hregister⟩,
      fun ⟨hhead, hchars, hregister⟩ => ⟨hhead, hchars, hregister⟩⟩

/-- A text whose characters are of some kind has no character that is not. -/
lemma not_mem_of_all {p : Char → Bool} {text : List Char} (h : text.all p = true) {c : Char}
    (hc : p c = false) : c ∉ text := by
  intro hmem
  rw [List.all_eq_true.mp h c hmem] at hc
  exact absurd hc (by decide)

/-! ## Decimal numbers -/

/-- The number with given decimal digits. -/
def readNat (digits : List Char) : Nat := Nat.ofDigitChars 10 digits 0

lemma readNat_toString (n : Nat) : readNat (toString n).toList = n := by
  rw [Nat.toString_eq_repr, Nat.toList_repr]
  exact Nat.ofDigitChars_ten_toDigits

lemma isDigit_of_mem_toString {n : Nat} {c : Char} (h : c ∈ (toString n).toList) :
    c.isDigit = true := by
  rw [Nat.toString_eq_repr, Nat.toList_repr] at h
  exact Nat.isDigit_of_mem_toDigits (by omega) (by omega) h

/-- The integer with given decimal digits, after a minus sign if it is negative. -/
def readInt (text : List Char) : Int :=
  if text.head? = some '-' then -readNat text.tail else readNat text

/-- A character that may stand in the text of an integer. -/
def isNumberChar (c : Char) : Bool := c.isDigit || c = '-'

lemma toString_negSucc (n : Nat) :
    (toString (Int.negSucc n)).toList = '-' :: (toString (n + 1)).toList := by
  show ("-" ++ toString (n + 1)).toList = _
  rw [String.toList_append]
  rfl

lemma readInt_toString (i : Int) : readInt (toString i).toList = i := by
  cases i with
  | ofNat n =>
    have hhead : (toString n).toList.head? ≠ some '-' := by
      intro h
      exact absurd (isDigit_of_mem_toString (List.mem_of_head? h)) (by decide)
    show readInt (toString n).toList = n
    rw [readInt, if_neg hhead, readNat_toString]
  | negSucc n =>
    rw [toString_negSucc, readInt, List.head?_cons, if_pos rfl, List.tail_cons, readNat_toString]
    rfl

lemma all_isNumberChar_toString (i : Int) : (toString i).toList.all isNumberChar = true := by
  have hnat (n : Nat) : (toString n).toList.all isNumberChar = true := by
    refine List.all_eq_true.mpr fun c hc => ?_
    rw [isNumberChar, isDigit_of_mem_toString hc, Bool.true_or]
  cases i with
  | ofNat n => exact hnat n
  | negSucc n =>
    rw [toString_negSucc, List.all_cons, hnat]
    rfl

lemma isNumberChar_of_isAlpha {c : Char} (h : c.isAlpha = true) : isNumberChar c = false := by
  -- all letters come after the digits, and these after the minus sign
  have hletter : 'A'.val ≤ c.val := by
    rcases Bool.or_eq_true_iff.mp h with hupper | hlower
    · exact (of_decide_eq_true hupper).1
    · have hlower : 'a'.val ≤ c.val := of_decide_eq_true (Bool.and_eq_true_iff.mp hlower).1
      exact UInt32.le_trans (by decide) hlower
  have hdigit : c.isDigit = false := by
    have hpast : ¬ c.val ≤ '9'.val := by
      intro hle
      exact absurd (UInt32.le_trans hletter hle) (by decide)
    exact Bool.and_eq_false_iff.mpr (.inr (decide_eq_false hpast))
  have hminus : c ≠ '-' := by
    rintro rfl
    exact absurd hletter (by decide)
  simp [isNumberChar, hdigit, hminus]

/-- A name is not a number. -/
lemma IsName.not_all_isNumberChar {name : String} (h : IsName name) :
    name.toList.all isNumberChar = false := by
  have hhead := h.head
  cases hname : name.toList with
  | nil => simp [hname] at hhead
  | cons c rest =>
    rw [hname] at hhead
    have hc : isNumberChar c = false := by
      simp only [List.head?_cons, Option.any_some, Bool.or_eq_true, decide_eq_true_eq] at hhead
      rcases hhead with halpha | rfl
      · exact isNumberChar_of_isAlpha halpha
      · decide
    rw [List.all_cons, hc, Bool.false_and]

/-! ## Labels -/

namespace LabelFamily

/-- All families of labels. -/
def all : List LabelFamily := [loopStart, loopEnd, branchElse, branchEnd]

lemma all_isNameChar_stem (f : LabelFamily) : f.stem.toList.all isNameChar = true := by
  cases f <;> decide

end LabelFamily

namespace Label

/-- The label with a given text, if the text begins with the stem of a family. -/
def ofText? (text : String) : Option Label :=
  (LabelFamily.all.find? fun f => f.stem.toList.isPrefixOf text.toList).map fun f =>
    ⟨f, UInt64.ofNat (readNat (text.toList.drop f.stem.toList.length))⟩

lemma all_isNameChar_text (l : Label) : l.text.toList.all isNameChar = true := by
  rw [text, String.toList_append, List.all_append, l.family.all_isNameChar_stem, Bool.true_and]
  refine List.all_eq_true.mpr fun c hc => ?_
  rw [isNameChar, Char.isAlphanum, isDigit_of_mem_toString hc, Bool.or_true, Bool.true_or]

/-- A label is read off its text. -/
@[simp] lemma ofText?_text (l : Label) : ofText? l.text = some l := by
  -- no stem begins another one, so only the family of the label fits
  have hfind : (LabelFamily.all.find? fun f => f.stem.toList.isPrefixOf l.text.toList)
      = some l.family := by
    obtain ⟨family, k⟩ := l
    rw [text, String.toList_append]
    cases family <;> simp [LabelFamily.all, LabelFamily.stem]
  rw [ofText?, hfind, Option.map_some, text, String.toList_append, List.drop_left,
    readNat_toString, UInt64.ofNat_toNat]

end Label

/-! ## Instructions -/

namespace Instr

/-- The move with given operands. -/
def readMove (operands : List Char) : Instr :=
  let target := operands.takeWhile (· ≠ ',')
  let source := operands.drop (target.length + 2)
  if target = "eax".toList then
    if source = "edx".toList then .moveRemainder
    else if source.all isNumberChar then .loadImmediate (Int64.ofInt (readInt source))
    else .load (String.ofList source)
  else .store (String.ofList target)

/-- The instruction with a given line. -/
def read (line : String) : Instr :=
  if ':' ∈ line.toList then .label (String.ofList line.toList.dropLast)
  else
    let word := line.toList.takeWhile (· ≠ ' ')
    let operands := line.toList.drop (word.length + 1)
    match String.ofList word with
    | "mov" => readMove operands
    | "push" => .push
    | "pop" => .pop
    | "add" => .add
    | "sub" => .sub
    | "imul" => .mul
    | "xor" => .clearExtension
    | "idiv" => .div
    | "cmpeq" => .compareEq
    | "cmpgt" => .compareGt
    | "jz" => .jumpIfZero (String.ofList operands)
    | "jmp" => .jump (String.ofList operands)
    | _ => .output

/-- The names of an instruction are well-formed, and its label is a label of a loop or of a
conditional. -/
def Readable : Instr → Prop
  | load name | store name => IsName name
  | label text | jumpIfZero text | jump text => ∃ l : Label, text = l.text
  | _ => True

lemma read_accumulator {line : String} {source : List Char}
    (hline : line.toList = "mov eax, ".toList ++ source) (hcolon : ':' ∉ source) :
    read line =
      if source = "edx".toList then .moveRemainder
      else if source.all isNumberChar then .loadImmediate (Int64.ofInt (readInt source))
      else .load (String.ofList source) := by
  simp [read, readMove, hline, hcolon]

lemma read_memory {line : String} {target : List Char}
    (hline : line.toList = "mov ".toList ++ target ++ ", eax".toList)
    (hchars : target.all isNameChar = true) (htarget : target ≠ "eax".toList) :
    read line = .store (String.ofList target) := by
  have hcolon : ':' ∉ target := not_mem_of_all hchars (by decide)
  -- a name has no comma, so the target ends at the comma of the line
  have hcomma : ∀ c ∈ target, c ≠ ',' := by
    rintro c hc rfl
    exact not_mem_of_all hchars (by decide) hc
  have hword : (target ++ ", eax".toList).takeWhile (· ≠ ',') = target := by
    rw [List.takeWhile_append_of_pos (by simpa using hcomma)]
    simp
  have hread : read line = readMove (target ++ ", eax".toList) := by
    simp [read, hline, hcolon]
  rw [hread, readMove, hword, if_neg htarget]

/-- Reading the line of an instruction gives the instruction. -/
lemma read_text {instr : Instr} (h : instr.Readable) : read instr.text = instr := by
  cases instr with
  | push | pop | add | sub | mul | clearExtension | div | moveRemainder | compareEq | compareGt
  | output => rfl
  | loadImmediate value =>
    have hnumber := all_isNumberChar_toString value.toInt
    have hcolon : ':' ∉ (toString value.toInt).toList := not_mem_of_all hnumber (by decide)
    have hedx : (toString value.toInt).toList ≠ "edx".toList := by
      intro heq
      rw [heq] at hnumber
      exact absurd hnumber (by decide)
    rw [text, read_accumulator String.toList_append hcolon, if_neg hedx, if_pos hnumber,
      readInt_toString, Int64.ofInt_toInt]
  | load name =>
    have hname : IsName name := h
    have hcolon : ':' ∉ name.toList := not_mem_of_all hname.chars (by decide)
    have hedx : name.toList ≠ "edx".toList := by
      intro heq
      exact hname.not_register (by simp [String.toList_inj.mp heq])
    rw [text, read_accumulator String.toList_append hcolon, if_neg hedx,
      if_neg (by simp [hname.not_all_isNumberChar]), String.ofList_toList]
  | store name =>
    have hname : IsName name := h
    have heax : name.toList ≠ "eax".toList := by
      intro heq
      exact hname.not_register (by simp [String.toList_inj.mp heq])
    rw [read_memory _ hname.chars heax, String.ofList_toList]
    rw [text, String.toList_append, String.toList_append]
  | label text => simp [read, Instr.text]
  | jumpIfZero text =>
    obtain ⟨l, rfl⟩ := h
    have hcolon : ':' ∉ l.text.toList :=
      not_mem_of_all l.all_isNameChar_text (by decide)
    simp [read, Instr.text, hcolon]
  | jump text =>
    obtain ⟨l, rfl⟩ := h
    have hcolon : ':' ∉ l.text.toList :=
      not_mem_of_all l.all_isNameChar_text (by decide)
    simp [read, Instr.text, hcolon]

/-- The line of an instruction is one line. -/
lemma newline_not_mem_text {instr : Instr} (h : instr.Readable) : '\n' ∉ instr.text.toList := by
  have hlabel {text : String} (h : ∃ l : Label, text = l.text) : '\n' ∉ text.toList := by
    obtain ⟨l, rfl⟩ := h
    exact not_mem_of_all l.all_isNameChar_text (by decide)
  cases instr with
  | push | pop | add | sub | mul | clearExtension | div | moveRemainder | compareEq | compareGt
  | output => decide
  | loadImmediate value =>
    have hvalue : '\n' ∉ (toString value.toInt).toList :=
      not_mem_of_all (all_isNumberChar_toString value.toInt) (by decide)
    simpa [text] using hvalue
  | load name | store name =>
    have hname : '\n' ∉ name.toList := not_mem_of_all (IsName.chars h) (by decide)
    simpa [text] using hname
  | label text | jumpIfZero text | jump text => simpa [Instr.text] using hlabel h

end Instr

end Accumulator
