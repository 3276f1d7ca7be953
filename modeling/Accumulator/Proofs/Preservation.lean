/-
Running an output and evaluating its expressions.

The code of an expression, wherever it stands in a larger code, leaves the value of the
expression in the accumulator, and the stack as it was.  This is said in both directions.

* `realizes_of_evaluates`: when the expression has a value, the machine gets from the beginning
  of its code to the end with this value.  The induction is on the evaluation, one lemma of
  `Realizes` for each of its rules.
* `traced`: when the machine gets past the code, it comes to its end with a value of the
  expression on the way.  The induction is on the expression, and for a loop on the number of
  steps, because each round leaves a shorter run.

A loop that does not end and a division by zero have no value, so by the second lemma the
machine does not get past their code.
-/
import Accumulator.Evaluation
import Accumulator.Proofs.LabelDiscipline

namespace Accumulator

namespace Machine

variable {code : List Instr} {s t u : State}

/-! ## Counted runs -/

/-- The state after so many steps, if the machine makes them. -/
def after (code : List Instr) : Nat → State → Option State
  | 0, s => some s
  | n + 1, s => (step code s).bind (after code n)

lemma reaches_iff_after : Reaches code s t ↔ ∃ n, after code n s = some t := by
  constructor
  · intro h
    induction h with
    | refl s => exact ⟨0, rfl⟩
    | head hstep _ ih =>
      obtain ⟨n, hn⟩ := ih
      exact ⟨n + 1, by rw [after, hstep]; exact hn⟩
  · rintro ⟨n, hn⟩
    induction n generalizing s with
    | zero =>
      obtain rfl := Option.some.inj hn
      exact .refl s
    | succ n ih =>
      obtain ⟨r, hstep, hr⟩ := Option.bind_eq_some_iff.mp hn
      exact .head hstep (ih hr)

/-- A run that gets beyond the place where it begins has a first step. -/
lemma first_step {n : Nat} (hrun : after code n s = some u) (hlt : s.pc < u.pc) :
    ∃ t k, step code s = some t ∧ after code k t = some u ∧ k < n := by
  cases n with
  | zero =>
    obtain rfl := Option.some.inj hrun
    omega
  | succ k =>
    obtain ⟨t, hstep, ht⟩ := Option.bind_eq_some_iff.mp hrun
    exact ⟨t, k, hstep, ht, Nat.lt_succ_self k⟩

/-- Such a run goes on from where the first step leads. -/
lemma after_step {n : Nat} (hrun : after code n s = some u) (hlt : s.pc < u.pc)
    (hstep : step code s = some t) : ∃ k, after code k t = some u ∧ k < n := by
  obtain ⟨r, k, hr, hrest, hk⟩ := first_step hrun hlt
  obtain rfl : r = t := Option.some.inj (hr.symm.trans hstep)
  exact ⟨k, hrest, hk⟩

/-! ## Single steps -/

lemma step_eq {x : Instr} (h : code[s.pc]? = some x) : step code s = perform code s x := by
  rw [step, h, Option.bind_some]

/-- Every label of the code is marked at one place. -/
def UniqueMarks (code : List Instr) : Prop :=
  ∀ i j l, MarksAt code i l → MarksAt code j l → i = j

/-- The state after a push. -/
def State.pushed (s : State) : State := { s.next with stack := s.eax :: s.stack }

/-- The state after a pop of the word `top`. -/
def State.popped (s : State) (top : Int) (rest : List Int) : State :=
  { s.next with ebx := top, stack := rest }

/-- The state after the accumulator is stored. -/
def State.stored (s : State) (name : String) : State :=
  { s.next with memory := s.memory.set name s.eax }

/-- The state at another place. -/
def State.jumped (s : State) (place : Nat) : State := { s with pc := place }

lemma step_push (h : code[s.pc]? = some .push) : step code s = some s.pushed := step_eq h

lemma step_store {name : String} (h : code[s.pc]? = some (.store name)) :
    step code s = some (s.stored name) := step_eq h

lemma step_pop {top : Int} {rest : List Int} (h : code[s.pc]? = some .pop)
    (hstack : s.stack = top :: rest) : step code s = some (s.popped top rest) := by
  rw [step_eq h, perform, hstack]
  rfl

lemma goto_eq (hunique : UniqueMarks code) {l : String} {place : Nat}
    (hplace : code[place]? = some (.label l)) : s.goto code l = some (s.jumped place) := by
  have htarget : target code l = some place :=
    target_eq_some hplace fun i hi => hunique i place l hi hplace
  rw [State.goto, htarget, Option.map_some]
  rfl

lemma step_jump (hunique : UniqueMarks code) {l : String} {place : Nat}
    (h : code[s.pc]? = some (.jump l)) (hplace : code[place]? = some (.label l)) :
    step code s = some (s.jumped place) := by
  rw [step_eq h]
  exact goto_eq hunique hplace

lemma step_jumpIfZero (hunique : UniqueMarks code) {l : String} {place : Nat}
    (h : code[s.pc]? = some (.jumpIfZero l)) (hplace : code[place]? = some (.label l)) :
    step code s = some (if s.eax = 0 then s.jumped place else s.next) := by
  rw [step_eq h, perform]
  split
  · exact goto_eq hunique hplace
  · rfl

lemma step_label {l : String} (h : code[s.pc]? = some (.label l)) : step code s = some s.next :=
  step_eq h

/-- From `s` to `t` the machine went on by so many places, and stack and output are as they
were. -/
structure Completes (s t : State) (length : Nat) : Prop where
  pc : t.pc = s.pc + length
  stack : t.stack = s.stack
  output : t.output = s.output

/-! ## Operators -/

/-- An operator other than a division has one instruction, which computes it. -/
lemma tail_cases (op : Operator) :
    (∃ x, op.tail = [x] ∧ ∀ code s, ∃ v, op.apply s.ebx s.eax = some v ∧
      perform code s x = some (s.result v)) ∨ op = .div ∨ op = .mod := by
  cases op with
  | add => exact Or.inl ⟨.add, rfl, fun _ _ => ⟨_, rfl, rfl⟩⟩
  | sub => exact Or.inl ⟨.sub, rfl, fun _ _ => ⟨_, rfl, rfl⟩⟩
  | mul => exact Or.inl ⟨.mul, rfl, fun _ _ => ⟨_, rfl, rfl⟩⟩
  | div => exact Or.inr (Or.inl rfl)
  | mod => exact Or.inr (Or.inr rfl)
  | eq => exact Or.inl ⟨.compareEq, rfl, fun _ _ => ⟨_, rfl, rfl⟩⟩
  | gt => exact Or.inl ⟨.compareGt, rfl, fun _ _ => ⟨_, rfl, rfl⟩⟩

/-- The state after the extension register is cleared. -/
def State.cleared (s : State) : State := { s.next with edx := 0 }

/-- The state after a division. -/
def State.divided (s : State) : State :=
  { s.next with eax := s.ebx.tdiv s.eax, edx := s.ebx.tmod s.eax }

lemma step_clearExtension (h : code[s.pc]? = some .clearExtension) :
    step code s = some s.cleared := step_eq h

lemma step_moveRemainder (h : code[s.pc]? = some .moveRemainder) :
    step code s = some (s.result s.edx) := step_eq h

lemma step_div (h : code[s.pc]? = some .div) (hne : s.eax ≠ 0) :
    step code s = some s.divided := by
  rw [step_eq h]
  exact if_neg hne

lemma eq_divided_of_step (h : code[s.pc]? = some .div) (hstep : step code s = some t) :
    s.eax ≠ 0 ∧ t = s.divided := by
  rw [step_eq h, perform] at hstep
  split at hstep
  · exact absurd hstep (by simp)
  · rename_i hne
    exact ⟨hne, (Option.some.inj hstep).symm⟩

/-- A quotient or a remainder has a value when the divisor is not zero. -/
lemma ne_zero_of_apply {op : Operator} {x y v : Int} (hop : op = .div ∨ op = .mod)
    (h : op.apply x y = some v) : y ≠ 0 := by
  rintro rfl
  rcases hop with rfl | rfl <;> simp [Operator.apply] at h

/-- When an operator has a value, its instructions compute it. -/
lemma reaches_tail {op : Operator} {v : Int} (h : Segment code s.pc op.tail)
    (hv : op.apply s.ebx s.eax = some v) :
    ∃ t, Reaches code s t ∧ Completes s t op.tail.length ∧ t.eax = v ∧ t.memory = s.memory := by
  rcases tail_cases op with ⟨x, htail, hx⟩ | rfl | rfl
  · obtain ⟨w, hw, hperform⟩ := hx code s
    obtain rfl : w = v := Option.some.inj (hw.symm.trans hv)
    rw [htail] at h ⊢
    have hstep : step code s = some (s.result w) := by rw [step_eq h.head, hperform]
    exact ⟨s.result w, .head hstep (.refl _), ⟨rfl, rfl, rfl⟩, rfl, rfl⟩
  · have hne : s.cleared.eax ≠ 0 := ne_zero_of_apply (Or.inl rfl) hv
    refine ⟨s.cleared.divided, ?_, ⟨rfl, rfl, rfl⟩, ?_, rfl⟩
    · exact .head (step_clearExtension h.head) (.head (step_div h.tail.head hne) (.refl _))
    · exact Option.some.inj ((if_neg hne).symm.trans hv)
  · have hne : s.cleared.eax ≠ 0 := ne_zero_of_apply (Or.inr rfl) hv
    refine ⟨s.cleared.divided.result s.cleared.divided.edx, ?_, ⟨rfl, rfl, rfl⟩, ?_, rfl⟩
    · exact .head (step_clearExtension h.head) (.head (step_div h.tail.head hne)
        (.head (step_moveRemainder h.tail.tail.head) (.refl _)))
    · exact Option.some.inj ((if_neg hne).symm.trans hv)

/-- When the machine gets past the instructions of an operator, the operator has a value. -/
lemma apply_of_after {op : Operator} {n : Nat} (h : Segment code s.pc op.tail)
    (hrun : after code n s = some u) (hu : s.pc + op.tail.length ≤ u.pc) :
    ∃ t k, op.apply s.ebx s.eax = some t.eax ∧ t.memory = s.memory ∧
      Completes s t op.tail.length ∧ after code k t = some u ∧ k < n := by
  rcases tail_cases op with ⟨x, htail, hx⟩ | rfl | rfl
  · obtain ⟨v, hv, hperform⟩ := hx code s
    rw [htail] at h hu ⊢
    have hstep : step code s = some (s.result v) := by rw [step_eq h.head, hperform]
    obtain ⟨k, hrun, hk⟩ := after_step hrun hu hstep
    exact ⟨s.result v, k, hv, rfl, ⟨rfl, rfl, rfl⟩, hrun, hk⟩
  · have hlen : s.pc + 2 ≤ u.pc := hu
    obtain ⟨k, hrun, hk⟩ := after_step hrun (by omega) (step_clearExtension h.head)
    obtain ⟨t, j, hstep, hrun, hj⟩ := first_step hrun (show s.pc + 1 < u.pc by omega)
    obtain ⟨hne, rfl⟩ := eq_divided_of_step h.tail.head hstep
    exact ⟨s.cleared.divided, j, if_neg hne, rfl, ⟨rfl, rfl, rfl⟩, hrun, by omega⟩
  · have hlen : s.pc + 3 ≤ u.pc := hu
    obtain ⟨k, hrun, hk⟩ := after_step hrun (by omega) (step_clearExtension h.head)
    obtain ⟨t, j, hstep, hrun, hj⟩ := first_step hrun (show s.pc + 1 < u.pc by omega)
    obtain ⟨hne, rfl⟩ := eq_divided_of_step h.tail.head hstep
    obtain ⟨i, hrun, hi⟩ := after_step hrun (show s.pc + 2 < u.pc by omega)
      (step_moveRemainder h.tail.tail.head)
    exact ⟨s.cleared.divided.result s.cleared.divided.edx, i, if_neg hne, rfl,
      ⟨rfl, rfl, rfl⟩, hrun, by omega⟩

/-! ## From values to runs -/

/-- The code of the expression, wherever it stands, takes the machine from the memory `m` to the
value `v` and the memory `m'`. -/
def Realizes (code : List Instr) (node : Node) (m : Memory) (v : Int) (m' : Memory) : Prop :=
  ∀ s : State, Segment code s.pc node.code → s.memory = m →
    ∃ t, Reaches code s t ∧ Completes s t node.code.length ∧ t.eax = v ∧ t.memory = m'

namespace Realizes

variable {left right value condition body consequent alternative : Node}
  {m m₁ m₂ m₃ : Memory} {c x y v : Int} {k : UInt64}

lemma binary {op : Operator} (hl : Realizes code left m x m₁) (hr : Realizes code right m₁ y m₂)
    (hv : op.apply x y = some v) : Realizes code (.binary op left right) m v m₂ := by
  intro s hseg hm
  obtain ⟨hleft, hpush, hright, hpop, htail⟩ := hseg.binary
  obtain ⟨s₁, hrun₁, hc₁, rfl, hm₁⟩ := hl s hleft hm
  rw [← hc₁.pc] at hpush hright hpop htail
  obtain ⟨s₂, hrun₂, hc₂, rfl, hm₂⟩ := hr s₁.pushed hright hm₁
  have hpc₂ : s₂.pc = s₁.pc + 1 + right.code.length := hc₂.pc
  rw [← hpc₂] at hpop htail
  -- the value of the left operand is back on top of the stack
  have hstep := step_pop hpop hc₂.stack
  obtain ⟨t, hrun₃, hc₃, heax, hmem⟩ := reaches_tail (s := s₂.popped s₁.eax s₁.stack) htail hv
  refine ⟨t, ?_, ⟨?_, ?_, ?_⟩, heax, hmem.trans hm₂⟩
  · exact hrun₁.trans (.head (step_push hpush) (hrun₂.trans (.head hstep hrun₃)))
  · have hpc₃ : t.pc = s₂.pc + 1 + op.tail.length := hc₃.pc
    rw [hpc₃, hpc₂, hc₁.pc, Node.length_code_binary]
    omega
  · exact hc₃.stack.trans hc₁.stack
  · exact hc₃.output.trans (hc₂.output.trans hc₁.output)

lemma bind {name : String} (h : Realizes code value m v m₁) :
    Realizes code (.bind name value) m v (m₁.set name v) := by
  intro s hseg hm
  obtain ⟨hvalue, hstore⟩ := hseg.bind
  obtain ⟨s₁, hrun₁, hc₁, rfl, rfl⟩ := h s hvalue hm
  rw [← hc₁.pc] at hstore
  refine ⟨s₁.stored name, hrun₁.trans (.head (step_store hstore) (.refl _)),
    ⟨?_, hc₁.stack, hc₁.output⟩, rfl, rfl⟩
  show s₁.pc + 1 = s.pc + (Node.bind name value).code.length
  rw [hc₁.pc, Node.length_code_bind, Nat.add_assoc]

lemma loopEnd (hunique : UniqueMarks code) (hc : Realizes code condition m 0 m₁) :
    Realizes code (.loop k condition body) m 0 m₁ := by
  intro s hseg hm
  obtain ⟨hstart, hcondition, hexit, -, -, hend⟩ := hseg.loop
  obtain ⟨s₁, hrun₁, hc₁, heax, hm₁⟩ := hc s.next hcondition hm
  have hpc₁ : s₁.pc = s.pc + 1 + condition.code.length := hc₁.pc
  rw [← hpc₁] at hexit hend
  have hjump := step_jumpIfZero hunique hexit hend
  rw [if_pos heax] at hjump
  have hlast := step_label (s := s₁.jumped (s₁.pc + 1 + body.code.length + 1)) hend
  refine ⟨_, .head (step_label hstart) (hrun₁.trans (.head hjump (.head hlast (.refl _)))),
    ⟨?_, hc₁.stack, hc₁.output⟩, heax, hm₁⟩
  show s₁.pc + 1 + body.code.length + 1 + 1 = s.pc + (Node.loop k condition body).code.length
  rw [hpc₁, Node.length_code_loop]
  omega

lemma loopNext (hunique : UniqueMarks code) (hc : Realizes code condition m c m₁) (hne : c ≠ 0)
    (hb : Realizes code body m₁ x m₂) (hl : Realizes code (.loop k condition body) m₂ v m₃) :
    Realizes code (.loop k condition body) m v m₃ := by
  intro s hseg hm
  obtain ⟨hstart, hcondition, hexit, hbody, hback, hend⟩ := hseg.loop
  obtain ⟨s₁, hrun₁, hc₁, rfl, hm₁⟩ := hc s.next hcondition hm
  have hpc₁ : s₁.pc = s.pc + 1 + condition.code.length := hc₁.pc
  rw [← hpc₁] at hexit hbody hback
  have hgo := step_jumpIfZero hunique hexit hend
  rw [if_neg hne] at hgo
  obtain ⟨s₂, hrun₂, hc₂, -, hm₂⟩ := hb s₁.next hbody hm₁
  have hpc₂ : s₂.pc = s₁.pc + 1 + body.code.length := hc₂.pc
  rw [← hpc₂] at hback
  -- back at the start, the rest of the rounds
  obtain ⟨t, hrun₃, hc₃, heax, hmem⟩ := hl (s₂.jumped s.pc) hseg hm₂
  refine ⟨t, ?_, ⟨hc₃.pc, ?_, ?_⟩, heax, hmem⟩
  · exact .head (step_label hstart) (hrun₁.trans (.head hgo (hrun₂.trans
      (.head (step_jump hunique hback hstart) hrun₃))))
  · exact hc₃.stack.trans (hc₂.stack.trans hc₁.stack)
  · exact hc₃.output.trans (hc₂.output.trans hc₁.output)

lemma branchThen (hunique : UniqueMarks code) (hc : Realizes code condition m c m₁) (hne : c ≠ 0)
    (ht : Realizes code consequent m₁ v m₂) :
    Realizes code (.branch k condition consequent alternative) m v m₂ := by
  intro s hseg hm
  obtain ⟨hcondition, htest, hfirst, hleave, hother, -, hend⟩ := hseg.branch
  obtain ⟨s₁, hrun₁, hc₁, rfl, hm₁⟩ := hc s hcondition hm
  rw [← hc₁.pc] at htest hfirst hleave hother hend
  have hgo := step_jumpIfZero hunique htest hother
  rw [if_neg hne] at hgo
  obtain ⟨s₂, hrun₂, hc₂, heax, hm₂⟩ := ht s₁.next hfirst hm₁
  have hpc₂ : s₂.pc = s₁.pc + 1 + consequent.code.length := hc₂.pc
  rw [← hpc₂] at hleave hend
  have hlast := step_label (s := s₂.jumped (s₂.pc + 1 + 1 + alternative.code.length)) hend
  refine ⟨_, hrun₁.trans (.head hgo (hrun₂.trans (.head (step_jump hunique hleave hend)
    (.head hlast (.refl _))))), ⟨?_, ?_, ?_⟩, heax, hm₂⟩
  · show s₂.pc + 1 + 1 + alternative.code.length + 1
      = s.pc + (Node.branch k condition consequent alternative).code.length
    rw [hpc₂, hc₁.pc, Node.length_code_branch]
    omega
  · exact hc₂.stack.trans hc₁.stack
  · exact hc₂.output.trans hc₁.output

lemma branchElse (hunique : UniqueMarks code) (hc : Realizes code condition m 0 m₁)
    (he : Realizes code alternative m₁ v m₂) :
    Realizes code (.branch k condition consequent alternative) m v m₂ := by
  intro s hseg hm
  obtain ⟨hcondition, htest, -, -, hother, hsecond, hend⟩ := hseg.branch
  obtain ⟨s₁, hrun₁, hc₁, heax₁, hm₁⟩ := hc s hcondition hm
  rw [← hc₁.pc] at htest hother hsecond hend
  have hjump := step_jumpIfZero hunique htest hother
  rw [if_pos heax₁] at hjump
  have hlabel := step_label (s := s₁.jumped (s₁.pc + 1 + consequent.code.length + 1)) hother
  obtain ⟨s₂, hrun₂, hc₂, heax, hm₂⟩ :=
    he (s₁.jumped (s₁.pc + 1 + consequent.code.length + 1)).next hsecond hm₁
  have hpc₂ : s₂.pc = s₁.pc + 1 + consequent.code.length + 1 + 1 + alternative.code.length :=
    hc₂.pc
  rw [← hpc₂] at hend
  refine ⟨s₂.next, hrun₁.trans (.head hjump (.head hlabel (hrun₂.trans
    (.head (step_label hend) (.refl _))))), ⟨?_, ?_, ?_⟩, heax, hm₂⟩
  · show s₂.pc + 1 = s.pc + (Node.branch k condition consequent alternative).code.length
    rw [hpc₂, hc₁.pc, Node.length_code_branch]
    omega
  · exact hc₂.stack.trans hc₁.stack
  · exact hc₂.output.trans hc₁.output

end Realizes

/-- When an expression has a value, its code computes it. -/
lemma realizes_of_evaluates (hunique : UniqueMarks code) {node : Node} {m m' : Memory} {v : Int}
    (h : Evaluates m node v m') : Realizes code node m v m' := by
  induction h with
  | number m value =>
    intro s hseg hm
    exact ⟨s.result value.toInt, .head (step_eq hseg.head) (.refl _), ⟨rfl, rfl, rfl⟩, rfl, hm⟩
  | var m name =>
    intro s hseg hm
    have hstep : step code s = some (s.result (s.memory name)) := step_eq hseg.head
    rw [hm] at hstep
    exact ⟨s.result (m name), .head hstep (.refl _), ⟨rfl, rfl, rfl⟩, rfl, hm⟩
  | binary _ _ hv ihl ihr => exact ihl.binary ihr hv
  | bind _ ih => exact ih.bind
  | loopEnd _ ih => exact ih.loopEnd hunique
  | loopNext _ hne _ _ ihc ihb ihl => exact ihc.loopNext hunique hne ihb ihl
  | branchThen _ hne _ ihc iht => exact ihc.branchThen hunique hne iht
  | branchElse _ _ ihc ihe => exact ihc.branchElse hunique ihe
  | lambda _ ih => exact ih

lemma reaches_of_evaluatesAll (hunique : UniqueMarks code) {nodes : List Node} {m m' : Memory}
    {w v : Int} (h : EvaluatesAll m w nodes v m') {s : State}
    (hseg : Segment code s.pc (nodes.flatMap Node.code)) (hm : s.memory = m) (hw : s.eax = w) :
    ∃ t, Reaches code s t ∧ Completes s t (nodes.flatMap Node.code).length ∧ t.eax = v ∧
      t.memory = m' := by
  induction h generalizing s with
  | nil m w => exact ⟨s, .refl s, ⟨rfl, rfl, rfl⟩, hw, hm⟩
  | @cons node nodes m m₁ m₂ w x v hnode _ ih =>
    rw [List.flatMap_cons] at hseg ⊢
    obtain ⟨s₁, hrun₁, hc₁, heax₁, hm₁⟩ :=
      realizes_of_evaluates hunique hnode s hseg.append_left hm
    have hrest := hseg.append_right
    rw [← hc₁.pc] at hrest
    obtain ⟨t, hrun, hc, heax, hmem⟩ := ih hrest hm₁ heax₁
    refine ⟨t, hrun₁.trans hrun, ⟨?_, ?_, ?_⟩, heax, hmem⟩
    · rw [hc.pc, hc₁.pc, List.length_append, Nat.add_assoc]
    · exact hc.stack.trans hc₁.stack
    · exact hc.output.trans hc₁.output

/-! ## From runs to values -/

/-- A run past the code of the expression comes to the end of this code with a value of the
expression, and is not longer from there on. -/
def Traced (code : List Instr) (node : Node) : Prop :=
  ∀ (s u : State) (n : Nat), Segment code s.pc node.code → after code n s = some u →
    s.pc + node.code.length ≤ u.pc →
    ∃ t k, Evaluates s.memory node t.eax t.memory ∧ Completes s t node.code.length ∧
      after code k t = some u ∧ k ≤ n

namespace Traced

variable {left right value condition body consequent alternative : Node} {k : UInt64}

lemma number (w : Int64) : Traced code (.number w) := by
  intro s u n hseg hrun hu
  obtain ⟨j, hrun, hj⟩ := after_step hrun hu (step_eq hseg.head)
  exact ⟨s.result w.toInt, j, .number s.memory w, ⟨rfl, rfl, rfl⟩, hrun, by omega⟩

lemma var (name : String) : Traced code (.var name) := by
  intro s u n hseg hrun hu
  obtain ⟨j, hrun, hj⟩ := after_step hrun hu (step_eq hseg.head)
  exact ⟨s.result (s.memory name), j, .var s.memory name, ⟨rfl, rfl, rfl⟩, hrun, by omega⟩

lemma binary {op : Operator} (hl : Traced code left) (hr : Traced code right) :
    Traced code (.binary op left right) := by
  intro s u n hseg hrun hu
  rw [Node.length_code_binary] at hu
  obtain ⟨hleft, hpush, hright, hpop, htail⟩ := hseg.binary
  obtain ⟨s₁, n₁, hev₁, hc₁, hrun, hn₁⟩ := hl s u n hleft hrun (by omega)
  have hpc₁ := hc₁.pc
  rw [← hpc₁] at hpush hright hpop htail
  obtain ⟨n₂, hrun, hn₂⟩ := after_step hrun (by omega) (step_push hpush)
  obtain ⟨s₂, n₃, hev₂, hc₂, hrun, hn₃⟩ := hr s₁.pushed u n₂ hright hrun
    (show s₁.pc + 1 + right.code.length ≤ u.pc by omega)
  have hpc₂ : s₂.pc = s₁.pc + 1 + right.code.length := hc₂.pc
  rw [← hpc₂] at hpop htail
  obtain ⟨n₄, hrun, hn₄⟩ := after_step hrun (by omega) (step_pop hpop hc₂.stack)
  obtain ⟨t, n₅, hv, hmem, hc₃, hrun, hn₅⟩ :=
    apply_of_after (s := s₂.popped s₁.eax s₁.stack) htail hrun
      (show s₂.pc + 1 + op.tail.length ≤ u.pc by omega)
  have hpc₃ : t.pc = s₂.pc + 1 + op.tail.length := hc₃.pc
  refine ⟨t, n₅, ?_, ⟨?_, ?_, ?_⟩, hrun, by omega⟩
  · rw [hmem]
    exact .binary hev₁ hev₂ hv
  · rw [Node.length_code_binary]
    omega
  · exact hc₃.stack.trans hc₁.stack
  · exact hc₃.output.trans (hc₂.output.trans hc₁.output)

lemma bind {name : String} (h : Traced code value) : Traced code (.bind name value) := by
  intro s u n hseg hrun hu
  rw [Node.length_code_bind] at hu
  obtain ⟨hvalue, hstore⟩ := hseg.bind
  obtain ⟨s₁, n₁, hev, hc₁, hrun, hn₁⟩ := h s u n hvalue hrun (by omega)
  have hpc₁ := hc₁.pc
  rw [← hpc₁] at hstore
  obtain ⟨n₂, hrun, hn₂⟩ := after_step hrun (by omega) (step_store hstore)
  refine ⟨s₁.stored name, n₂, .bind hev, ⟨?_, hc₁.stack, hc₁.output⟩, hrun, by omega⟩
  show s₁.pc + 1 = s.pc + (Node.bind name value).code.length
  rw [hpc₁, Node.length_code_bind, Nat.add_assoc]

lemma loop (hunique : UniqueMarks code) (hc : Traced code condition) (hb : Traced code body) :
    Traced code (.loop k condition body) := by
  intro s u n
  -- by the number of steps: a round takes at least one
  induction n using Nat.strongRecOn generalizing s with
  | ind n ih =>
    intro hseg hrun hu
    have hlen := Node.length_code_loop k condition body
    obtain ⟨hstart, hcondition, hexit, hbody, hback, hend⟩ := hseg.loop
    obtain ⟨n₁, hrun, hn₁⟩ := after_step hrun (by omega) (step_label hstart)
    obtain ⟨s₁, n₂, hev₁, hc₁, hrun, hn₂⟩ := hc s.next u n₁ hcondition hrun
      (show s.pc + 1 + condition.code.length ≤ u.pc by omega)
    have hpc₁ : s₁.pc = s.pc + 1 + condition.code.length := hc₁.pc
    rw [← hpc₁] at hexit hbody hback hend
    obtain ⟨n₃, hrun, hn₃⟩ := after_step hrun (by omega) (step_jumpIfZero hunique hexit hend)
    by_cases hzero : s₁.eax = 0
    · rw [if_pos hzero] at hrun
      obtain ⟨n₄, hrun, hn₄⟩ := after_step hrun
        (show s₁.pc + 1 + body.code.length + 1 < u.pc by omega) (step_label hend)
      refine ⟨(s₁.jumped (s₁.pc + 1 + body.code.length + 1)).next, n₄, ?_,
        ⟨?_, hc₁.stack, hc₁.output⟩, hrun, by omega⟩
      · rw [hzero] at hev₁
        show Evaluates s.memory (.loop k condition body) s₁.eax s₁.memory
        rw [hzero]
        exact .loopEnd hev₁
      · show s₁.pc + 1 + body.code.length + 1 + 1
          = s.pc + (Node.loop k condition body).code.length
        omega
    · rw [if_neg hzero] at hrun
      obtain ⟨s₂, n₄, hev₂, hc₂, hrun, hn₄⟩ := hb s₁.next u n₃ hbody hrun
        (show s₁.pc + 1 + body.code.length ≤ u.pc by omega)
      have hpc₂ : s₂.pc = s₁.pc + 1 + body.code.length := hc₂.pc
      rw [← hpc₂] at hback
      obtain ⟨n₅, hrun, hn₅⟩ := after_step hrun (by omega) (step_jump hunique hback hstart)
      obtain ⟨t, n₆, hev₃, hc₃, hrun, hn₆⟩ := ih n₅ (by omega) (s₂.jumped s.pc) hseg hrun hu
      refine ⟨t, n₆, .loopNext hev₁ hzero hev₂ hev₃, ⟨hc₃.pc, ?_, ?_⟩, hrun, by omega⟩
      · exact hc₃.stack.trans (hc₂.stack.trans hc₁.stack)
      · exact hc₃.output.trans (hc₂.output.trans hc₁.output)

lemma branch (hunique : UniqueMarks code) (hc : Traced code condition)
    (ht : Traced code consequent) (he : Traced code alternative) :
    Traced code (.branch k condition consequent alternative) := by
  intro s u n hseg hrun hu
  have hlen := Node.length_code_branch k condition consequent alternative
  obtain ⟨hcondition, htest, hfirst, hleave, hother, hsecond, hend⟩ := hseg.branch
  obtain ⟨s₁, n₁, hev₁, hc₁, hrun, hn₁⟩ := hc s u n hcondition hrun (by omega)
  have hpc₁ := hc₁.pc
  rw [← hpc₁] at htest hfirst hleave hother hsecond hend
  obtain ⟨n₂, hrun, hn₂⟩ := after_step hrun (by omega) (step_jumpIfZero hunique htest hother)
  by_cases hzero : s₁.eax = 0
  · rw [if_pos hzero] at hrun
    obtain ⟨n₃, hrun, hn₃⟩ := after_step hrun
      (show s₁.pc + 1 + consequent.code.length + 1 < u.pc by omega) (step_label hother)
    obtain ⟨s₂, n₄, hev₂, hc₂, hrun, hn₄⟩ := he _ u n₃ hsecond hrun
      (show s₁.pc + 1 + consequent.code.length + 1 + 1 + alternative.code.length ≤ u.pc by omega)
    have hpc₂ : s₂.pc = s₁.pc + 1 + consequent.code.length + 1 + 1 + alternative.code.length :=
      hc₂.pc
    rw [← hpc₂] at hend
    obtain ⟨n₅, hrun, hn₅⟩ := after_step hrun (by omega) (step_label hend)
    rw [hzero] at hev₁
    refine ⟨s₂.next, n₅, .branchElse hev₁ hev₂, ⟨?_, ?_, ?_⟩, hrun, by omega⟩
    · show s₂.pc + 1 = s.pc + (Node.branch k condition consequent alternative).code.length
      omega
    · exact hc₂.stack.trans hc₁.stack
    · exact hc₂.output.trans hc₁.output
  · rw [if_neg hzero] at hrun
    obtain ⟨s₂, n₃, hev₂, hc₂, hrun, hn₃⟩ := ht s₁.next u n₂ hfirst hrun
      (show s₁.pc + 1 + consequent.code.length ≤ u.pc by omega)
    have hpc₂ : s₂.pc = s₁.pc + 1 + consequent.code.length := hc₂.pc
    rw [← hpc₂] at hleave hend
    obtain ⟨n₄, hrun, hn₄⟩ := after_step hrun (by omega) (step_jump hunique hleave hend)
    obtain ⟨n₅, hrun, hn₅⟩ := after_step hrun
      (show s₂.pc + 1 + 1 + alternative.code.length < u.pc by omega) (step_label hend)
    refine ⟨(s₂.jumped (s₂.pc + 1 + 1 + alternative.code.length)).next, n₅,
      .branchThen hev₁ hzero hev₂, ⟨?_, ?_, ?_⟩, hrun, by omega⟩
    · show s₂.pc + 1 + 1 + alternative.code.length + 1
        = s.pc + (Node.branch k condition consequent alternative).code.length
      omega
    · exact hc₂.stack.trans hc₁.stack
    · exact hc₂.output.trans hc₁.output

end Traced

/-- Every expression is traced. -/
lemma traced (hunique : UniqueMarks code) (node : Node) : Traced code node := by
  induction node with
  | number w => exact .number w
  | var name => exact .var name
  | binary op left right ihl ihr => exact ihl.binary ihr
  | bind name value ih => exact ih.bind
  | loop k condition body ihc ihb => exact ihc.loop hunique ihb
  | branch k condition consequent alternative ihc iht ihe => exact ihc.branch hunique iht ihe
  | lambda first second body ih =>
    intro s u n hseg hrun hu
    obtain ⟨t, j, hev, hrest⟩ := ih s u n hseg hrun hu
    exact ⟨t, j, .lambda hev, hrest⟩

lemma evaluatesAll_of_after (hunique : UniqueMarks code) {nodes : List Node} {s u : State}
    {n : Nat} (hseg : Segment code s.pc (nodes.flatMap Node.code))
    (hrun : after code n s = some u) (hu : s.pc + (nodes.flatMap Node.code).length ≤ u.pc) :
    ∃ t k, EvaluatesAll s.memory s.eax nodes t.eax t.memory ∧
      Completes s t (nodes.flatMap Node.code).length ∧ after code k t = some u := by
  induction nodes generalizing s n with
  | nil => exact ⟨s, n, .nil s.memory s.eax, ⟨rfl, rfl, rfl⟩, hrun⟩
  | cons node nodes ih =>
    rw [List.flatMap_cons] at hseg hu ⊢
    rw [List.length_append] at hu
    obtain ⟨s₁, n₁, hev₁, hc₁, hrun, -⟩ :=
      traced hunique node s u n hseg.append_left hrun (by omega)
    have hrest := hseg.append_right
    have hpc₁ := hc₁.pc
    rw [← hpc₁] at hrest
    obtain ⟨t, k, hev, hc, hrun⟩ := ih hrest hrun (by omega)
    refine ⟨t, k, .cons hev₁ hev, ⟨?_, ?_, ?_⟩, hrun⟩
    · rw [hc.pc, hpc₁, List.length_append, Nat.add_assoc]
    · exact hc.stack.trans hc₁.stack
    · exact hc.output.trans hc₁.output

/-- At the end of the code no step is left. -/
lemma eq_of_after_end {n : Nat} (hs : s.pc = code.length) (h : after code n s = some t) :
    t = s := by
  cases n with
  | zero => exact (Option.some.inj h).symm
  | succ n =>
    have hstep : step code s = none := by
      rw [step, hs, List.getElem?_eq_none (Nat.le_refl _), Option.bind_none]
    rw [after, hstep, Option.bind_none] at h
    exact absurd h (by simp)

end Machine

/-! ## The output of a generator -/

lemma Generator.uniqueMarks_of_lowerAll {g : Generator} {nodes : List Node} {code : List Instr}
    (h : (g.lowerAll nodes).result = .ok code) : Machine.UniqueMarks code := by
  have hnodup := labels_nodup_of_lowerAll h
  obtain ⟨-, rfl⟩ := lowerAll_eq_ok_iff.mp h
  exact fun i j l => Node.marksAt_unique hnodup

/-- **Runs and values.**  A run of an output from its beginning comes to its end with a value in
the accumulator and with a memory just when the expressions, evaluated in order, have this
value and leave this memory; and at the end the stack is what it was. -/
theorem Generator.reaches_end_iff_evaluatesAll {g : Generator} {nodes : List Node}
    {code : List Instr} (h : (g.lowerAll nodes).result = .ok code) (s : Machine.State)
    (hs : s.pc = 0) :
    (∀ v m, (∃ t, Machine.Reaches code s t ∧ t.pc = code.length ∧ t.eax = v ∧ t.memory = m) ↔
      EvaluatesAll s.memory s.eax nodes v m) ∧
    ∀ t, Machine.Reaches code s t → t.pc = code.length →
      t.stack = s.stack ∧ t.output = s.output := by
  have hunique := uniqueMarks_of_lowerAll h
  obtain ⟨-, rfl⟩ := lowerAll_eq_ok_iff.mp h
  have hseg : Segment (nodes.flatMap Node.code) s.pc (nodes.flatMap Node.code) := by
    rw [hs]
    exact Segment.whole _
  -- a run to the end goes through the code of all expressions, and no further
  have hback (t : Machine.State) (hrun : Machine.Reaches (nodes.flatMap Node.code) s t)
      (ht : t.pc = (nodes.flatMap Node.code).length) :
      EvaluatesAll s.memory s.eax nodes t.eax t.memory ∧
        Machine.Completes s t (nodes.flatMap Node.code).length := by
    obtain ⟨n, hn⟩ := Machine.reaches_iff_after.mp hrun
    obtain ⟨u, k, hev, hc, hrest⟩ := Machine.evaluatesAll_of_after hunique hseg hn (by omega)
    have hu := hc.pc
    obtain rfl := Machine.eq_of_after_end (by omega) hrest
    exact ⟨hev, hc⟩
  refine ⟨fun v m => ⟨?_, fun hev => ?_⟩, fun t hrun ht => ?_⟩
  · rintro ⟨t, hrun, ht, rfl, rfl⟩
    exact (hback t hrun ht).1
  · obtain ⟨t, hrun, hc, heax, hmem⟩ := Machine.reaches_of_evaluatesAll hunique hev hseg rfl rfl
    exact ⟨t, hrun, by rw [hc.pc, hs, Nat.zero_add], heax, hmem⟩
  · have hc := (hback t hrun ht).2
    exact ⟨hc.stack, hc.output⟩

/-- From a memory of ones the loop goes round once, and the first branch is taken. -/
theorem Generator.reaches_end_loopPlusBranch :
    (initial.lowerAll [Node.loopPlusBranch]).result = .ok Node.loopPlusBranch.code ∧
      ∃ t, Machine.Reaches Node.loopPlusBranch.code ⟨0, 5, 6, 8, [7], fun _ => 1, []⟩ t ∧
        t.pc = Node.loopPlusBranch.code.length ∧ t.eax = 1 ∧ t.memory "n" = 0 ∧ t.stack = [7] := by
  have hok : (initial.lowerAll [Node.loopPlusBranch]).result = .ok Node.loopPlusBranch.code := rfl
  obtain ⟨hiff, hend⟩ := reaches_end_iff_evaluatesAll hok ⟨0, 5, 6, 8, [7], fun _ => 1, []⟩ rfl
  have hloop : Evaluates (fun _ => 1) (.loop 0 (.var "n") (.bind "n" (.number 0))) 0
      (Memory.set (fun _ => 1) "n" 0) :=
    .loopNext (.var _ "n") (by decide) (.bind (.number _ 0)) (.loopEnd (.var _ "n"))
  have hbranch : Evaluates (Memory.set (fun _ => 1) "n" 0)
      (.branch 0 (.var "c") (.number 1) (.number 2)) 1 (Memory.set (fun _ => 1) "n" 0) :=
    .branchThen (.var _ "c") (by decide) (.number _ 1)
  obtain ⟨t, hrun, hpc, heax, hmem⟩ :=
    (hiff 1 (Memory.set (fun _ => 1) "n" 0)).mpr (.cons (.binary hloop hbranch rfl) (.nil _ _))
  exact ⟨hok, t, hrun, hpc, heax, by rw [hmem, Memory.set_same], (hend t hrun hpc).1⟩

end Accumulator
