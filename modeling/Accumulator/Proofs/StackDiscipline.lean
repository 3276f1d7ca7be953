/-
The stack of a running output.

The height of the stack at a place of the code is the number of pushes before the place less the
number of pops before it (`Machine.height`).  This is a function of the place alone, and the
point is that the machine, however it gets to a place, has just so many words above those that
were on its stack at the start.

The code of an expression pushes as often as it pops, it never pops more than it has pushed, and
at no place has it pushed more than `Node.depth` words that are not popped yet
(`balanced_code`).  The two ends of every arc have the same height (`height_arc`), and the
instruction before a division clears the extension register (`prepared_code`).  From this
`sound_step` derives that one step of the machine keeps the invariant `Sound`, and
`sound_of_reaches` that a run keeps it.
-/
import Accumulator.Proofs.LabelDiscipline

namespace Accumulator

/-- By how much an instruction raises the stack. -/
def Instr.effect : Instr → Int
  | push => 1
  | pop => -1
  | _ => 0

namespace Machine

/-- By how much instructions raise the stack when they are carried out one after another. -/
def rise : List Instr → Int
  | [] => 0
  | x :: code => x.effect + rise code

/-- The height of the stack at a place: the number of pushes less the number of pops before
it. -/
def height (code : List Instr) (place : Nat) : Int := rise (code.take place)

@[simp] lemma rise_nil : rise [] = 0 := rfl

@[simp] lemma rise_cons (x : Instr) (xs : List Instr) : rise (x :: xs) = x.effect + rise xs := rfl

@[simp] lemma rise_append (xs ys : List Instr) : rise (xs ++ ys) = rise xs + rise ys := by
  induction xs with
  | nil => simp
  | cons x xs ih => rw [List.cons_append, rise_cons, rise_cons, ih, Int.add_assoc]

@[simp] lemma height_zero (code : List Instr) : height code 0 = 0 := rfl

lemma height_of_length_le {code : List Instr} {place : Nat} (h : code.length ≤ place) :
    height code place = rise code := by
  rw [height, List.take_of_length_le h]

lemma height_append (xs ys : List Instr) (place : Nat) :
    height (xs ++ ys) place = height xs place + height ys (place - xs.length) := by
  rw [height, List.take_append, rise_append]
  rfl

lemma height_succ {code : List Instr} {place : Nat} {x : Instr} (h : code[place]? = some x) :
    height code (place + 1) = height code place + x.effect := by
  rw [height, List.take_add_one, h, rise_append]
  simp [height]

/-- The height changes along a segment as it does along the instructions of the segment. -/
lemma height_segment {code xs : List Instr} {a : Nat} (h : Segment code a xs) :
    height code (a + xs.length) = height code a + rise xs := by
  obtain ⟨before, after, rfl, rfl⟩ := h
  have hall : List.take (before.length + xs.length) (before ++ xs ++ after) = before ++ xs := by
    rw [← List.length_append]
    exact List.take_left
  have hfirst : List.take before.length (before ++ xs ++ after) = before := by
    rw [List.append_assoc]
    exact List.take_left
  rw [height, height, hall, hfirst, rise_append]

/-! ## Balanced code -/

/-- The code pops what it pushes and nothing else, and has never more than `depth` words
pushed. -/
structure Balanced (depth : Nat) (code : List Instr) : Prop where
  rise_eq : rise code = 0
  nonneg : ∀ place, 0 ≤ height code place
  le_depth : ∀ place, height code place ≤ depth

namespace Balanced

variable {d d' : Nat} {xs ys : List Instr} {x : Instr}

lemma nil : Balanced d [] := by
  refine ⟨rfl, fun place => ?_, fun place => ?_⟩ <;> simp [height]

lemma mono (h : Balanced d xs) (hle : d ≤ d') : Balanced d' xs := by
  refine ⟨h.rise_eq, h.nonneg, fun place => ?_⟩
  have hplace := h.le_depth place
  omega

/-- Along two pieces of balanced code the height is that of one of the pieces. -/
lemma height_append_cases (hx : Balanced d xs) (ys : List Instr) (place : Nat) :
    height (xs ++ ys) place = height xs place ∨
      height (xs ++ ys) place = height ys (place - xs.length) := by
  rw [height_append]
  rcases Nat.le_total place xs.length with hle | hle
  · left
    rw [Nat.sub_eq_zero_of_le hle, height_zero, Int.add_zero]
  · right
    rw [height_of_length_le hle, hx.rise_eq, Int.zero_add]

lemma append (hx : Balanced d xs) (hy : Balanced d ys) : Balanced d (xs ++ ys) := by
  refine ⟨by rw [rise_append, hx.rise_eq, hy.rise_eq, Int.add_zero], ?_, ?_⟩
  · intro place
    rcases hx.height_append_cases ys place with h | h
    · rw [h]
      exact hx.nonneg place
    · rw [h]
      exact hy.nonneg _
  · intro place
    rcases hx.height_append_cases ys place with h | h
    · rw [h]
      exact hx.le_depth place
    · rw [h]
      exact hy.le_depth _

lemma single (h : x.effect = 0) : Balanced d [x] := by
  have hzero (place : Nat) : height [x] place = 0 := by
    cases place with
    | zero => rfl
    | succ place => simp [height, h]
  refine ⟨by simp [h], fun place => ?_, fun place => ?_⟩
  · exact Int.le_of_eq (hzero place).symm
  · rw [hzero]
    omega

/-- Balanced code between a push and a pop needs one word more. -/
lemma nested (h : Balanced d xs) : Balanced (d + 1) (.push :: (xs ++ [.pop])) := by
  have hpush (place : Nat) : height (.push :: (xs ++ [.pop])) (place + 1)
      = 1 + (height xs place + height [.pop] (place - xs.length)) := by
    rw [← height_append]
    rfl
  have hbounds (place : Nat) : 0 ≤ height (.push :: (xs ++ [.pop])) place ∧
      height (.push :: (xs ++ [.pop])) place ≤ d + 1 := by
    cases place with
    | zero =>
      rw [height_zero]
      omega
    | succ place =>
      rw [hpush]
      have h0 := h.nonneg place
      have h1 := h.le_depth place
      -- the pop lowers the height by one, or is not reached yet
      have hpop : height [.pop] (place - xs.length) = 0 ∨
          height [.pop] (place - xs.length) = -1 := by
        cases place - xs.length with
        | zero => exact Or.inl rfl
        | succ n => exact Or.inr (by simp [height, Instr.effect])
      omega
  refine ⟨by simp [h.rise_eq, Instr.effect], fun place => (hbounds place).1, fun place => ?_⟩
  have hplace := (hbounds place).2
  omega

end Balanced

/-! ## Prepared divisions -/

/-- The instruction before a division clears the extension register. -/
def Prepared (code : List Instr) : Prop :=
  ∀ i, code[i]? = some .div → ∃ j, i = j + 1 ∧ code[j]? = some .clearExtension

namespace Prepared

variable {xs ys : List Instr} {x : Instr}

lemma append (hx : Prepared xs) (hy : Prepared ys) : Prepared (xs ++ ys) := by
  intro i hi
  rcases Nat.lt_or_ge i xs.length with hlt | hge
  · rw [List.getElem?_append_left hlt] at hi
    obtain ⟨j, rfl, hj⟩ := hx i hi
    exact ⟨j, rfl, by rw [List.getElem?_append_left (by omega), hj]⟩
  · rw [List.getElem?_append_right hge] at hi
    obtain ⟨j, heq, hj⟩ := hy _ hi
    refine ⟨xs.length + j, by omega, ?_⟩
    rw [List.getElem?_append_right (by omega), Nat.add_sub_cancel_left, hj]

lemma single (h : x ≠ .div) : Prepared [x] := by
  intro i hi
  have hmem := List.mem_of_getElem? hi
  exact absurd (List.mem_singleton.mp hmem).symm h

end Prepared

end Machine

namespace Operator

lemma balanced_tail (op : Operator) (d : Nat) : Machine.Balanced d op.tail := by
  cases op with
  | add | sub | mul | eq | gt => exact .single rfl
  | div => exact .append (.single rfl) (.single rfl)
  | mod => exact .append (.single rfl) (.append (.single rfl) (.single rfl))

lemma prepared_tail (op : Operator) : Machine.Prepared op.tail := by
  have hdiv : Machine.Prepared [.clearExtension, .div] := by
    intro i hi
    match i with
    | 0 => simp at hi
    | 1 => exact ⟨0, rfl, rfl⟩
    | i + 2 => simp at hi
  cases op with
  | add | sub | mul | eq | gt => exact .single (by simp)
  | div => exact hdiv
  | mod => exact hdiv.append (.single (by simp))

end Operator

namespace Node

open Machine (height rise height_succ height_segment Balanced Prepared)

/-! ## The code of expressions -/

/-- The number of words that an expression needs on the stack: the right operand is evaluated
while the left one waits. -/
def depth : Node → Nat
  | number _ => 0
  | var _ => 0
  | binary _ left right => max left.depth (1 + right.depth)
  | bind _ value => value.depth
  | loop _ condition body => max condition.depth body.depth
  | branch _ condition consequent alternative =>
    max condition.depth (max consequent.depth alternative.depth)
  | lambda _ _ body => body.depth

/-- The number of words that expressions need when they are evaluated one after another. -/
def depthOf : List Node → Nat
  | [] => 0
  | node :: nodes => max node.depth (depthOf nodes)

lemma balanced_code (node : Node) : Balanced node.depth node.code := by
  induction node with
  | number | var => exact .single rfl
  | binary op left right ihl ihr =>
    have hcode : (binary op left right).code
        = left.code ++ (.push :: (right.code ++ [.pop]) ++ op.tail) := by simp [code]
    rw [hcode, depth]
    -- the left operand waits on the stack while the right one is evaluated
    have hright := ihr.nested.mono
      (show right.depth + 1 ≤ max left.depth (1 + right.depth) by omega)
    exact (ihl.mono (by omega)).append (hright.append (op.balanced_tail _))
  | bind name value ih => exact ih.append (.single rfl)
  | loop k condition body ihc ihb =>
    have hc := ihc.mono (show condition.depth ≤ max condition.depth body.depth by omega)
    have hb := ihb.mono (show body.depth ≤ max condition.depth body.depth by omega)
    exact ((((Balanced.single rfl).append hc).append (.single rfl)).append hb).append
      (.append (.single rfl) (.single rfl))
  | branch k condition consequent alternative ihc iht ihe =>
    have hc := ihc.mono (show condition.depth
      ≤ max condition.depth (max consequent.depth alternative.depth) by omega)
    have ht := iht.mono (show consequent.depth
      ≤ max condition.depth (max consequent.depth alternative.depth) by omega)
    have he := ihe.mono (show alternative.depth
      ≤ max condition.depth (max consequent.depth alternative.depth) by omega)
    exact ((((hc.append (.single rfl)).append ht).append
      (.append (.single rfl) (.single rfl))).append he).append (.single rfl)
  | lambda first second body ih => exact ih

lemma balanced_flatMap (nodes : List Node) : Balanced (depthOf nodes) (nodes.flatMap code) := by
  induction nodes with
  | nil => exact .nil
  | cons node nodes ih =>
    have hnode := node.balanced_code.mono (show node.depth ≤ depthOf (node :: nodes) by
      rw [depthOf]
      omega)
    have hnodes := ih.mono (show depthOf nodes ≤ depthOf (node :: nodes) by
      rw [depthOf]
      omega)
    exact hnode.append hnodes

lemma prepared_code (node : Node) : Prepared node.code := by
  induction node with
  | number | var => exact .single (by simp)
  | binary op left right ihl ihr =>
    exact (((ihl.append (.single (by simp))).append ihr).append (.single (by simp))).append
      op.prepared_tail
  | bind name value ih => exact ih.append (.single (by simp))
  | loop k condition body ihc ihb =>
    exact (((((Prepared.single (by simp)).append ihc).append (.single (by simp))).append
      ihb).append (.append (.single (by simp)) (.single (by simp))))
  | branch k condition consequent alternative ihc iht ihe =>
    exact ((((ihc.append (.single (by simp))).append iht).append
      (.append (.single (by simp)) (.single (by simp)))).append ihe).append (.single (by simp))
  | lambda first second body ih => exact ih

lemma prepared_flatMap (nodes : List Node) : Prepared (nodes.flatMap code) := by
  induction nodes with
  | nil => exact fun i hi => absurd hi (by simp)
  | cons node nodes ih => exact node.prepared_code.append ih

/-- Along the code of an expression the height comes back to where it was. -/
lemma height_code {node : Node} {output : List Instr} {a : Nat}
    (h : Segment output a node.code) :
    height output (a + node.code.length) = height output a := by
  rw [height_segment h, node.balanced_code.rise_eq, Int.add_zero]

/-- The two ends of an arc have the same height. -/
lemma height_arc {node : Node} {output : List Instr} {start : Nat} {arc : Arc}
    (h : Segment output start node.code) (harc : arc ∈ node.arcs start) :
    height output arc.source = height output arc.goal := by
  -- an instruction without effect, and then the next height
  have hnext {a : Nat} {x : Instr} (hx : output[a]? = some x) (heffect : x.effect = 0) :
      height output (a + 1) = height output a := by
    rw [height_succ hx, heffect, Int.add_zero]
  induction node generalizing start with
  | number | var => exact absurd harc List.not_mem_nil
  | binary op left right ihl ihr =>
    obtain ⟨hleft, -, hright, -⟩ := h.binary
    rcases List.mem_append.mp harc with harc | harc
    · exact ihl hleft harc
    · exact ihr hright harc
  | bind name value ih => exact ih h.bind.1 harc
  | loop k condition body ihc ihb =>
    obtain ⟨hstart, hcondition, hexit, hbody, hback, -⟩ := h.loop
    simp only [arcs, List.mem_cons, List.mem_append] at harc
    rcases harc with rfl | rfl | harc | harc
    · rw [height_code hbody, hnext hexit rfl, height_code hcondition, hnext hstart rfl]
    · rw [hnext hback rfl, height_code hbody, hnext hexit rfl]
    · exact ihc hcondition harc
    · exact ihb hbody harc
  | branch k condition consequent alternative ihc iht ihe =>
    obtain ⟨hcondition, htest, hfirst, hleave, hother, hsecond, -⟩ := h.branch
    simp only [arcs, List.mem_cons, List.mem_append] at harc
    rcases harc with rfl | rfl | (harc | harc) | harc
    · rw [hnext hleave rfl, height_code hfirst, hnext htest rfl]
    · rw [height_code hsecond, hnext hother rfl, hnext hleave rfl]
    · exact ihc hcondition harc
    · exact iht hfirst harc
    · exact ihe hsecond harc
  | lambda first second body ih => exact ih h harc

lemma height_arcOf {nodes : List Node} {output : List Instr} {start : Nat} {arc : Arc}
    (h : Segment output start (nodes.flatMap code)) (harc : arc ∈ arcsOf start nodes) :
    height output arc.source = height output arc.goal := by
  induction nodes generalizing start with
  | nil => exact absurd harc List.not_mem_nil
  | cons node nodes ih =>
    rcases List.mem_append.mp harc with harc | harc
    · exact height_arc h.append_left harc
    · exact ih h.append_right harc

end Node

namespace Machine

/-! ## One step -/

/-- What one instruction does to the place and to the stack. -/
lemma perform_cases {code : List Instr} {s t : State} {x : Instr}
    (h : perform code s x = some t) :
    (x = .push ∧ t.pc = s.pc + 1 ∧ t.stack = s.eax :: s.stack) ∨
      (x = .pop ∧ t.pc = s.pc + 1 ∧ ∃ top, s.stack = top :: t.stack) ∨
      (x.effect = 0 ∧ t.pc = s.pc + 1 ∧ t.stack = s.stack) ∨
      (∃ l, (x = .jump l ∨ x = .jumpIfZero l) ∧ target code l = some t.pc ∧
        t.stack = s.stack) := by
  have hgoto {l : String} (hl : s.goto code l = some t) :
      target code l = some t.pc ∧ t.stack = s.stack := by
    obtain ⟨place, hplace, rfl⟩ := Option.map_eq_some_iff.mp hl
    exact ⟨hplace, rfl⟩
  cases x with
  | push =>
    obtain rfl := Option.some.inj h
    exact Or.inl ⟨rfl, rfl, rfl⟩
  | pop =>
    right; left
    cases hstack : s.stack with
    | nil => simp [perform, hstack] at h
    | cons top rest =>
      simp only [perform, hstack, Option.some.injEq] at h
      obtain rfl := h
      exact ⟨rfl, rfl, top, rfl⟩
  | div =>
    right; right; left
    simp only [perform] at h
    split at h
    · exact absurd h (by simp)
    · obtain rfl := Option.some.inj h
      exact ⟨rfl, rfl, rfl⟩
  | jumpIfZero l =>
    simp only [perform] at h
    split at h
    · exact Or.inr (Or.inr (Or.inr ⟨l, Or.inr rfl, hgoto h⟩))
    · obtain rfl := Option.some.inj h
      exact Or.inr (Or.inr (Or.inl ⟨rfl, rfl, rfl⟩))
  | jump l => exact Or.inr (Or.inr (Or.inr ⟨l, Or.inl rfl, hgoto h⟩))
  | loadImmediate | load | store | add | sub | mul | clearExtension | moveRemainder
  | compareEq | compareGt | label | output =>
    obtain rfl := Option.some.inj h
    exact Or.inr (Or.inr (Or.inl ⟨rfl, rfl, rfl⟩))

/-- The facts about code on which the invariant rests. -/
structure Verified (depth : Nat) (code : List Instr) : Prop where
  balanced : Balanced depth code
  prepared : Prepared code
  jumps : ∀ i l, JumpsAt code i l →
    ∃ place, target code l = some place ∧ height code place = height code i

/-- The invariant of a run that began with the stack `base`. -/
structure Sound (code : List Instr) (base : List Int) (s : State) : Prop where
  pc_le : s.pc ≤ code.length
  stack_eq : ∃ above, s.stack = above ++ base ∧ (above.length : Int) = height code s.pc
  div_clear : code[s.pc]? = some .div → s.edx = 0

variable {depth : Nat} {code : List Instr} {base : List Int} {s t : State}

/-- One step keeps the invariant. -/
lemma sound_step (hcode : Verified depth code) (hs : Sound code base s)
    (hstep : step code s = some t) : Sound code base t := by
  obtain ⟨x, hx, hperform⟩ := Option.bind_eq_some_iff.mp hstep
  obtain ⟨hlt, -⟩ := List.getElem?_eq_some_iff.mp hx
  obtain ⟨above, hstack, hheight⟩ := hs.stack_eq
  -- at the next place only a cleared register can meet a division
  have hclear (hpc : t.pc = s.pc + 1) (hdiv : code[t.pc]? = some .div) : t.edx = 0 := by
    rw [hpc] at hdiv
    obtain ⟨j, hj, hprev⟩ := hcode.prepared _ hdiv
    obtain rfl : j = s.pc := by omega
    obtain rfl : x = .clearExtension := Option.some.inj (hx.symm.trans hprev)
    obtain rfl := Option.some.inj hperform
    rfl
  rcases perform_cases hperform with ⟨rfl, hpc, hpush⟩ | ⟨rfl, hpc, top, hpop⟩ |
    ⟨heffect, hpc, hsame⟩ | ⟨l, hl, htarget, hsame⟩
  · refine ⟨by omega, ⟨s.eax :: above, by rw [hpush, hstack]; rfl, ?_⟩, hclear hpc⟩
    rw [hpc, height_succ hx, ← hheight]
    simp [Instr.effect]
  · have hnonneg := hcode.balanced.nonneg (s.pc + 1)
    rw [height_succ hx, ← hheight, Instr.effect] at hnonneg
    cases above with
    | nil => exact absurd hnonneg (by simp)
    | cons first above =>
      rw [hpop, List.cons_append] at hstack
      refine ⟨by omega, ⟨above, (List.cons.inj hstack).2, ?_⟩, hclear hpc⟩
      rw [hpc, height_succ hx, ← hheight, Instr.effect, List.length_cons]
      omega
  · refine ⟨by omega, ⟨above, by rw [hsame, hstack], ?_⟩, hclear hpc⟩
    rw [hpc, height_succ hx, heffect, hheight, Int.add_zero]
  · have hjump : JumpsAt code s.pc l := by
      rcases hl with rfl | rfl
      · exact Or.inl hx
      · exact Or.inr hx
    obtain ⟨place, hplace, hlevel⟩ := hcode.jumps _ _ hjump
    obtain rfl : place = t.pc := Option.some.inj (hplace.symm.trans htarget)
    have hmark := getElem?_of_target htarget
    obtain ⟨hlt', -⟩ := List.getElem?_eq_some_iff.mp hmark
    refine ⟨by omega, ⟨above, by rw [hsame, hstack], by rw [hlevel, hheight]⟩, fun hdiv => ?_⟩
    rw [hmark] at hdiv
    exact absurd hdiv (by simp)

/-- A run keeps the invariant. -/
lemma sound_of_reaches (hcode : Verified depth code) (hs : Sound code base s)
    (h : Reaches code s t) : Sound code base t := by
  induction h with
  | refl => exact hs
  | head hstep _ ih => exact ih (sound_step hcode hs hstep)

/-- At the start of the code the invariant holds, whatever is in the registers. -/
lemma sound_start (hcode : Verified depth code) (hs : s.pc = 0) : Sound code s.stack s := by
  refine ⟨by omega, ⟨[], rfl, by rw [hs]; rfl⟩, fun hdiv => ?_⟩
  rw [hs] at hdiv
  obtain ⟨j, hj, -⟩ := hcode.prepared 0 hdiv
  omega

/-! ## Safety -/

/-- One step of a machine that divides only when the extension register is clear. -/
def strictStep (code : List Instr) (s : State) : Option State :=
  if code[s.pc]? = some .div ∧ s.edx ≠ 0 then none else step code s

/-- What is safe about a state in a run that began with the stack `base`. -/
structure Safe (code : List Instr) (base : List Int) (s : State) : Prop where
  /-- The machine is in the code or at its end. -/
  pc_le : s.pc ≤ code.length
  /-- The words of the first stack are there, and the place tells how many are above them. -/
  stack_eq : ∃ above, s.stack = above ++ base ∧ (above.length : Int) = height code s.pc
  /-- A pop takes a word from above the first stack. -/
  pop_above : code[s.pc]? = some .pop → 0 < height code s.pc
  /-- A jump leads to a label of the code. -/
  jump_marked : ∀ l, JumpsAt code s.pc l →
    ∃ place, target code l = some place ∧ MarksAt code place l
  /-- A division finds the extension register clear. -/
  div_clear : code[s.pc]? = some .div → s.edx = 0
  /-- The machine goes on, but at the end and at a division by zero. -/
  stuck : step code s = none → s.pc = code.length ∨ (code[s.pc]? = some .div ∧ s.eax = 0)
  /-- It is the same if the machine is strict. -/
  strict_eq : strictStep code s = step code s

lemma pop_above_of_balanced (h : Balanced depth code) {place : Nat}
    (hpop : code[place]? = some .pop) : 0 < height code place := by
  have hnonneg := h.nonneg (place + 1)
  rw [height_succ hpop, Instr.effect] at hnonneg
  omega

/-- In a sound state the machine is stuck at the end and at divisions by zero only. -/
lemma stuck_cases (hcode : Verified depth code) (hs : Sound code base s)
    (h : step code s = none) :
    s.pc = code.length ∨ (code[s.pc]? = some .div ∧ s.eax = 0) := by
  cases hx : code[s.pc]? with
  | none =>
    left
    have hge := List.getElem?_eq_none_iff.mp hx
    have hle := hs.pc_le
    omega
  | some x =>
    right
    rw [step, hx, Option.bind_some] at h
    have hjump {l : String} (hl : JumpsAt code s.pc l) (hgoto : s.goto code l = none) : False := by
      obtain ⟨place, hplace, -⟩ := hcode.jumps _ _ hl
      rw [State.goto, hplace] at hgoto
      exact absurd hgoto (by simp)
    cases x with
    | pop =>
      exfalso
      obtain ⟨above, hstack, hheight⟩ := hs.stack_eq
      have hpos := pop_above_of_balanced hcode.balanced hx
      cases above with
      | nil => exact absurd hheight (by simp only [List.length_nil]; omega)
      | cons top above => simp [perform, hstack] at h
    | div =>
      refine ⟨rfl, ?_⟩
      by_contra hne
      simp [perform, hne] at h
    | jumpIfZero l =>
      exfalso
      simp only [perform] at h
      split at h
      · exact hjump (Or.inr hx) h
      · exact absurd h (by simp)
    | jump l => exact (hjump (Or.inl hx) h).elim
    | loadImmediate | load | store | push | add | sub | mul | clearExtension | moveRemainder
    | compareEq | compareGt | label | output => exact absurd h (by simp [perform])

lemma safe_of_sound (hcode : Verified depth code) (hs : Sound code base s) :
    Safe code base s := by
  refine ⟨hs.pc_le, hs.stack_eq, pop_above_of_balanced hcode.balanced, fun l hl => ?_,
    hs.div_clear, stuck_cases hcode hs, ?_⟩
  · obtain ⟨place, hplace, -⟩ := hcode.jumps _ _ hl
    exact ⟨place, hplace, getElem?_of_target hplace⟩
  · exact if_neg fun hdiv => hdiv.2 (hs.div_clear hdiv.1)

end Machine

lemma Node.verified {nodes : List Node} (hnodup : (nodes.flatMap Node.labels).Nodup) :
    Machine.Verified (depthOf nodes) (nodes.flatMap Node.code) := by
  refine ⟨balanced_flatMap nodes, prepared_flatMap nodes, fun i l hjump => ?_⟩
  obtain ⟨arc, harc, rfl, -, htarget⟩ := target_of_jumpsAt hnodup hjump
  exact ⟨arc.goal, htarget, (height_arcOf (Segment.whole _) harc).symm⟩

/-- **Safety of every output.**  The height of the stack is a function of the place, it is zero at
the end and it never exceeds the depth of the expressions; and every state of every run, from
any registers, stack and memory, is safe. -/
theorem Generator.safe_of_lowerAll {g : Generator} {nodes : List Node} {code : List Instr}
    (h : (g.lowerAll nodes).result = .ok code) :
    Machine.height code code.length = 0 ∧
      (∀ place, Machine.height code place ≤ Node.depthOf nodes) ∧
      ∀ s t : Machine.State, s.pc = 0 → Machine.Reaches code s t →
        Machine.Safe code s.stack t := by
  have hnodup := labels_nodup_of_lowerAll h
  obtain ⟨-, rfl⟩ := lowerAll_eq_ok_iff.mp h
  have hcode := Node.verified hnodup
  refine ⟨?_, hcode.balanced.le_depth, fun s t hs hrun => ?_⟩
  · rw [Machine.height_of_length_le (Nat.le_refl _), hcode.balanced.rise_eq]
  · exact Machine.safe_of_sound hcode
      (Machine.sound_of_reaches hcode (Machine.sound_start hcode hs) hrun)

/-- One less the remainder of `x` and `y`. -/
def Node.oneLessRemainder : Node :=
  .binary .sub (.number 1) (.binary .mod (.var "x") (.var "y"))

-- with a zero in `y` the run ends at the division, one word above the first stack
theorem Generator.safe_oneLessRemainder :
    (initial.lowerAll [Node.oneLessRemainder]).result = .ok Node.oneLessRemainder.code ∧
      Node.depthOf [Node.oneLessRemainder] = 2 ∧
      Machine.height Node.oneLessRemainder.code 5 = 2 ∧
      Machine.height Node.oneLessRemainder.code 7 = 1 ∧
      ∀ t, Machine.Reaches Node.oneLessRemainder.code ⟨0, 0, 0, 5, [7], fun _ => 0, []⟩ t →
        Machine.Safe Node.oneLessRemainder.code [7] t := by
  have hok : (initial.lowerAll [Node.oneLessRemainder]).result
      = .ok Node.oneLessRemainder.code := rfl
  obtain ⟨-, -, hsafe⟩ := safe_of_lowerAll hok
  exact ⟨hok, by decide, by decide, by decide, fun t =>
    hsafe ⟨0, 0, 0, 5, [7], fun _ => 0, []⟩ t rfl⟩

end Accumulator
