/-
Lowering an expression only appends.

Lowering continues the current output, and its recursion mixes instructions with checks that can
fail at any depth.  After a failure, some operands and branches have left their code behind and
others have not.  What is left behind is of one form nevertheless: the generator extended by the
steps before the check that has failed (`Generator.perform_extended`).  From this it follows that

* the instructions left behind are a proper prefix of the code of the expression
  (`Node.emitted_before_check`), because every script ends with an instruction;
* the labels left behind are among those of the loops and conditionals of the expression
  (`Node.marks_iff`), and all of these if lowering succeeds.
-/
import Accumulator.Proofs.FirstFault

namespace Accumulator

/-! ## Where a script can stop -/

lemma Step.mem_emitted_of_mem {steps : List Step} {instr : Instr} (h : .emit instr ∈ steps) :
    instr ∈ emitted steps :=
  List.mem_filterMap.mpr ⟨.emit instr, h, rfl⟩

namespace Node

/-- The last step of an expression emits an instruction. -/
lemma exists_getLast?_script (node : Node) :
    ∃ instr, node.script.getLast? = some (.emit instr) := by
  induction node with
  | number value => exact ⟨.loadImmediate value, rfl⟩
  | var name => exact ⟨.load name, rfl⟩
  | binary op left right =>
    obtain ⟨instr, hlast⟩ : ∃ instr, op.tail.getLast? = some instr := by
      cases op <;> exact ⟨_, rfl⟩
    exact ⟨instr, by simp [script, List.getLast?_cons, hlast]⟩
  | bind name value => exact ⟨.store name, by simp [script, List.getLast?_cons]⟩
  | loop k condition body =>
    exact ⟨.label (Label.loopEnd k).text, by simp [script, List.getLast?_cons]⟩
  | branch k condition consequent alternative =>
    exact ⟨.label (Label.branchEnd k).text, by simp [script, List.getLast?_cons]⟩
  | lambda first second body ih =>
    obtain ⟨instr, hlast⟩ := ih
    exact ⟨instr, by simp [script, List.getLast?_cons, hlast]⟩

/-- The instructions before a check of an expression are a proper prefix of its code. -/
lemma emitted_before_check {node : Node} {done later : List Step} {c : Check}
    (h : node.script = done ++ .check c :: later) :
    Step.emitted done <+: node.code ∧ Step.emitted done ≠ node.code := by
  have hcode : node.code = Step.emitted done ++ Step.emitted later := by
    rw [← emitted_script, h, Step.emitted_append, Step.emitted_check]
  have hlater : Step.emitted later ≠ [] := by
    obtain ⟨instr, hlast⟩ := node.exists_getLast?_script
    rw [h, List.getLast?_append, List.getLast?_cons] at hlast
    cases hcases : later.getLast? with
    | none => simp [hcases] at hlast
    | some step =>
      obtain rfl : step = .emit instr := by simpa [hcases] using hlast
      exact List.ne_nil_of_mem (Step.mem_emitted_of_mem (List.mem_of_getLast? hcases))
  rw [hcode]
  refine ⟨List.prefix_append _ _, ?_⟩
  intro hall
  exact hlater (List.self_eq_append_right.mp hall)

/-- The text marks one of the two places of a loop or of a conditional of the expression. -/
def Marks (node : Node) (t : String) : Prop :=
  (∃ k ∈ node.loopIndices, t = (Label.loopStart k).text ∨ t = (Label.loopEnd k).text) ∨
    ∃ k ∈ node.branchIndices, t = (Label.branchElse k).text ∨ t = (Label.branchEnd k).text

/-- The checks of an expression claim the labels of its loops and conditionals. -/
lemma marks_iff {node : Node} {t : String} : node.Marks t ↔ t ∈ Check.texts node.checks := by
  have htexts : Check.texts node.checks = node.labels.map Label.text := by
    simpa using Check.texts_flatMap_checks [node]
  rw [htexts, List.mem_map]
  constructor
  · rintro (⟨k, hk, rfl | rfl⟩ | ⟨k, hk, rfl | rfl⟩)
    · exact ⟨.loopStart k, mem_labels_iff.mpr hk, rfl⟩
    · exact ⟨.loopEnd k, mem_labels_iff.mpr hk, rfl⟩
    · exact ⟨.branchElse k, mem_labels_iff.mpr hk, rfl⟩
    · exact ⟨.branchEnd k, mem_labels_iff.mpr hk, rfl⟩
  · rintro ⟨⟨family, k⟩, hl, rfl⟩
    have hk := mem_labels_iff.mp hl
    cases family with
    | loopStart => exact Or.inl ⟨k, hk, Or.inl rfl⟩
    | loopEnd => exact Or.inl ⟨k, hk, Or.inr rfl⟩
    | branchElse => exact Or.inr ⟨k, hk, Or.inl rfl⟩
    | branchEnd => exact Or.inr ⟨k, hk, Or.inr rfl⟩

end Node

namespace Generator

/-- An expression that is lowered has labels that were not claimed before. -/
lemma not_mem_claimed_of_marks {g : Generator} {node : Node}
    (h : (g.perform node.script).result = .ok ()) {t : String} (ht : node.Marks t) :
    t ∉ g.claimed := by
  have hnone := perform_eq_ok_iff.mp h
  rw [Node.checked_script] at hnone
  exact (Check.firstFailing?_eq_none_iff.mp hnone).2.2 t (Node.marks_iff.mp ht)

/-- **Lowering an expression only appends.**  It changes neither the options nor the admitted
names, keeps every claimed label, and appends instructions to the code.  If it succeeds, these
are the code of the expression, and the labels that it has claimed are those of the loops and
conditionals of the expression, none of which was claimed before.  If it fails, the instructions
are a proper prefix of that code, and the labels that it has claimed are some of those labels. -/
theorem lowerNode_only_appends (g : Generator) (node : Node) :
    (g.lowerNode node).generator.options = g.options ∧
    (g.lowerNode node).generator.symbols = g.symbols ∧
    (∀ t ∈ g.claimed, t ∈ (g.lowerNode node).generator.claimed) ∧
    ∃ s : List Instr, (g.lowerNode node).generator.code = g.code ++ s ∧
      match (g.lowerNode node).result with
      | .ok () =>
        s = node.code ∧
        (∀ t, t ∈ (g.lowerNode node).generator.claimed ↔ t ∈ g.claimed ∨ node.Marks t) ∧
        ∀ t, node.Marks t → t ∉ g.claimed
      | .error _ =>
        (s <+: node.code ∧ s ≠ node.code) ∧
        ∀ t ∈ (g.lowerNode node).generator.claimed, t ∈ g.claimed ∨ node.Marks t := by
  obtain ⟨done, hgenerator, hdone⟩ := g.perform_extended node.script
  rw [lowerNode, hgenerator]
  refine ⟨rfl, rfl, ?_, Step.emitted done, rfl, ?_⟩
  · intro t ht
    exact mem_claimed_extended.mpr (Or.inr ht)
  · simp only [mem_claimed_extended]
    cases hresult : (g.perform node.script).result with
    | ok =>
      rw [hresult] at hdone
      obtain rfl : node.script = done := hdone
      refine ⟨node.emitted_script, ?_, fun t => not_mem_claimed_of_marks hresult⟩
      intro t
      rw [Node.checked_script, ← Node.marks_iff, or_comm]
    | error e =>
      rw [hresult] at hdone
      obtain ⟨c, later, hcut⟩ := hdone
      refine ⟨Node.emitted_before_check hcut, ?_⟩
      intro t ht
      -- the checks that were made are some of the checks of the expression
      rw [Node.marks_iff, ← Node.checked_script, hcut, Step.checked_append, Check.texts_append]
      exact ht.symm.imp_right (List.mem_append_left _)

-- a loop is appended to the code that is there
example :
    ((initial.emit .push).lowerNode (.loop 7 (.var "x") (.number 2))).result = .ok () ∧
      ((initial.emit .push).lowerNode (.loop 7 (.var "x") (.number 2))).generator.code
        = #[.push, .label "while_start_7", .load "x", .jumpIfZero "while_end_7",
            .loadImmediate 2, .jump "while_start_7", .label "while_end_7"] := by
  exact ⟨rfl, rfl⟩

-- when the name in the condition is not admitted, the left operand and the label of the loop stay
example :
    ((ofOptions { strict := true }).lowerNode
      (.binary .add (.number 1) (.loop 7 (.var "x") (.number 2)))).generator.code
      = #[.loadImmediate 1, .push, .label "while_start_7"] := by
  decide

end Generator

end Accumulator
