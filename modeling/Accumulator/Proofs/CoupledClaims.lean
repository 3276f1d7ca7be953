/-
Claims on labels are all-or-nothing.

A loop claims the label of its start and then the label of its end; a conditional claims the label
of its second branch and then the label of its end.  These are two claims that can fail, and what
was claimed before a failure stays claimed.  Still no loop and no conditional is ever left with one
of its labels claimed: if the first claim passes, then neither label was claimed, and the second
claim passes as well.  So the claims are coupled after every call, because they were before it:

* `Step.Coupled` says that the claims of a script come in pairs, and `Node.coupled_script` that the
  script of every expression is of this form;
* `Generator.perform_keeps`: from coupled claims, such a script leads to coupled claims, whether or
  not it fails, and if a claim fails, it is the first of its pair;
* `Desk.Keeps.run`: what every call keeps, every session keeps.
-/
import Accumulator.Proofs.History

namespace Accumulator

/-! ## The two labels of a loop or a conditional -/

namespace LabelFamily

/-- The family of the other label of a loop or a conditional. -/
def partner : LabelFamily → LabelFamily
  | loopStart => loopEnd
  | loopEnd => loopStart
  | branchElse => branchEnd
  | branchEnd => branchElse

/-- Whether the labels of the family are claimed before their partners. -/
def opens : LabelFamily → Bool
  | loopStart | branchElse => true
  | loopEnd | branchEnd => false

end LabelFamily

namespace Label

/-- The other label of the same loop or conditional. -/
def partner (l : Label) : Label := ⟨l.family.partner, l.index⟩

@[simp] lemma partner_partner (l : Label) : l.partner.partner = l := by
  obtain ⟨family, k⟩ := l
  cases family <;> rfl

lemma partner_ne (l : Label) : l.partner ≠ l := by
  obtain ⟨family, k⟩ := l
  intro heq
  have hfamily : family.partner = family := congrArg Label.family heq
  cases family <;> exact absurd hfamily (by decide)

end Label

/-- The claimed texts are texts of labels, and with a label its partner is claimed. -/
structure NameSet.Coupled (claimed : NameSet) : Prop where
  /-- With a label its partner is claimed. -/
  partner : ∀ l : Label, l.text ∈ claimed → l.partner.text ∈ claimed
  /-- Nothing but labels is claimed. -/
  label : ∀ t ∈ claimed, ∃ l : Label, t = l.text

namespace NameSet.Coupled

variable {claimed : NameSet}

lemma empty : Coupled ∅ where
  partner _ h := absurd h (not_mem_empty _)
  label _ h := absurd h (not_mem_empty _)

lemma mem_iff (h : claimed.Coupled) (l : Label) :
    l.text ∈ claimed ↔ l.partner.text ∈ claimed := by
  refine ⟨h.partner l, fun hl => ?_⟩
  rw [← l.partner_partner]
  exact h.partner l.partner hl

/-- A label and its partner can be claimed together. -/
lemma insert_partner (h : claimed.Coupled) (l : Label) :
    ((claimed.insert l.text).insert l.partner.text).Coupled where
  partner l' := by
    simp only [mem_insert, Label.text_inj]
    rintro (rfl | rfl | hl')
    · exact Or.inr (Or.inl l.partner_partner)
    · exact Or.inl rfl
    · exact Or.inr (Or.inr (h.partner l' hl'))
  label t := by
    simp only [mem_insert]
    rintro (rfl | rfl | ht)
    · exact ⟨_, rfl⟩
    · exact ⟨_, rfl⟩
    · exact h.label t ht

end NameSet.Coupled

/-! ## Scripts -/

namespace Step

/-- The claims of a script come in pairs: a label that opens, and at once its partner. -/
inductive Coupled : List Step → Prop where
  | nil : Coupled []
  | emit (instr : Instr) {steps : List Step} : Coupled steps → Coupled (.emit instr :: steps)
  | note (event : Event) {steps : List Step} : Coupled steps → Coupled (.note event :: steps)
  | name (n : String) {steps : List Step} :
      Coupled steps → Coupled (.check (.name n) :: steps)
  | labels (l : Label) {steps : List Step} : l.family.opens = true → Coupled steps →
      Coupled (.check (.label l) :: .check (.label l.partner) :: steps)

lemma Coupled.append {xs ys : List Step} (hx : Coupled xs) (hy : Coupled ys) :
    Coupled (xs ++ ys) := by
  induction hx with
  | nil => exact hy
  | emit instr _ ih => exact .emit instr ih
  | note event _ ih => exact .note event ih
  | name n _ ih => exact .name n ih
  | labels l hopens _ ih => exact .labels l hopens ih

lemma coupled_map_emit (code : List Instr) : Coupled (code.map Step.emit) := by
  induction code with
  | nil => exact .nil
  | cons instr code ih => exact .emit instr ih

end Step

/-- The claims of every expression come in pairs. -/
lemma Node.coupled_script (node : Node) : Step.Coupled node.script := by
  induction node with
  | number value => exact .emit _ .nil
  | var name => exact .name name (.emit _ .nil)
  | binary op left right ihl ihr =>
    exact .note _ (ihl.append (.emit _ (ihr.append (.emit _ (Step.coupled_map_emit op.tail)))))
  | bind name value ih => exact .name name (ih.append (.emit _ .nil))
  | loop k condition body ihc ihb =>
    exact .labels (.loopStart k) rfl (.note _ (.emit _ (ihc.append (.emit _
      (ihb.append (.emit _ (.emit _ .nil)))))))
  | branch k condition consequent alternative ihc iht ihe =>
    exact .labels (.branchElse k) rfl (.note _ (ihc.append (.emit _ (iht.append (.emit _
      (.emit _ (ihe.append (.emit _ .nil))))))))
  | lambda first second body ih => exact .note _ ih

lemma Node.coupled_flatMap_script (nodes : List Node) :
    Step.Coupled (nodes.flatMap Node.script) := by
  induction nodes with
  | nil => exact .nil
  | cons node nodes ih =>
    rw [List.flatMap_cons]
    exact node.coupled_script.append ih

/-! ## Calls -/

/-- If a claim on a label has failed, the label opens and is one of the labels of the checks. -/
def Error.Opening (checks : List Check) (e : Error) : Prop :=
  ∀ t, e = .duplicateLabel t → ∃ l : Label, .label l ∈ checks ∧ l.family.opens = true ∧ t = l.text

namespace Generator

/-- From coupled claims, a script whose claims come in pairs leads to coupled claims, and fails at
no label but the first of a pair. -/
lemma perform_keeps {g : Generator} {steps : List Step} (hsteps : Step.Coupled steps)
    (hg : g.claimed.Coupled) :
    (g.perform steps).generator.claimed.Coupled ∧
      ∀ e, (g.perform steps).result = .error e → e.Opening (Step.checked steps) := by
  induction hsteps generalizing g with
  | nil => exact ⟨hg, fun e he => absurd he (by simp [perform])⟩
  | emit instr _ ih => exact ih (g := g.emit instr) hg
  | note event _ ih => exact ih hg
  | name n _ ih =>
    by_cases hn : (Check.name n).Fails g g.claimed.toList
    · rw [perform, check_of_fails hn]
      refine ⟨hg, ?_⟩
      intro e he t ht
      rw [← Except.error.inj he] at ht
      exact absurd ht (by simp [Check.fault])
    · rw [perform, check_of_not_fails hn]
      obtain ⟨hclaimed, hfault⟩ := ih (g := g.passed [.name n]) hg
      refine ⟨hclaimed, ?_⟩
      intro e he t ht
      obtain ⟨l, hl, hrest⟩ := hfault e he t ht
      exact ⟨l, List.mem_cons_of_mem _ hl, hrest⟩
  | labels l hopens _ ih =>
    by_cases hl : l.text ∈ g.claimed
    · have hclaim : g.check (.label l) = .error (.duplicateLabel l.text) := if_pos hl
      rw [perform, hclaim]
      refine ⟨hg, ?_⟩
      intro e he t ht
      refine ⟨l, List.mem_cons_self, hopens, ?_⟩
      rw [← Except.error.inj he] at ht
      exact (Error.duplicateLabel.inj ht).symm
    · -- neither label was claimed, so both claims pass
      have hpartner : l.partner.text ∉ g.claimed.insert l.text := by
        rw [NameSet.mem_insert, Label.text_inj, ← hg.mem_iff]
        intro h
        exact h.elim l.partner_ne hl
      have hfirst : g.check (.label l) = .ok { g with claimed := g.claimed.insert l.text } :=
        if_neg hl
      have hsecond : check { g with claimed := g.claimed.insert l.text } (.label l.partner)
          = .ok { g with claimed := (g.claimed.insert l.text).insert l.partner.text } :=
        if_neg hpartner
      rw [perform, hfirst]
      simp only [perform, hsecond]
      obtain ⟨hclaimed, hfault⟩ := ih
        (g := { g with claimed := (g.claimed.insert l.text).insert l.partner.text })
        (hg.insert_partner l)
      refine ⟨hclaimed, ?_⟩
      intro e he t ht
      obtain ⟨l', hl', hrest⟩ := hfault e he t ht
      exact ⟨l', List.mem_cons_of_mem _ (List.mem_cons_of_mem _ hl'), hrest⟩

/-- An output of its own leaves coupled claims, whatever was claimed before. -/
lemma lowerAll_keeps (g : Generator) (nodes : List Node) :
    (g.lowerAll nodes).generator.claimed.Coupled ∧
      ∀ e, (g.lowerAll nodes).result = .error e → e.Opening (nodes.flatMap Node.checks) := by
  obtain ⟨hclaimed, hfault⟩ :=
    perform_keeps (g := g.clear) (Node.coupled_flatMap_script nodes) .empty
  rw [Step.checked_flatMap_script] at hfault
  cases hresult : (g.clear.perform (nodes.flatMap Node.script)).result with
  | ok =>
    simp only [lowerAll, hresult]
    exact ⟨hclaimed, fun e he => absurd he (by simp)⟩
  | error e =>
    rw [lowerAll_of_error hresult]
    refine ⟨.empty, ?_⟩
    intro e' he'
    obtain rfl := Except.error.inj he'
    exact hfault e hresult

end Generator

/-- The expressions that a call lowers. -/
def Query.nodes : Query → List Node
  | lowerNode node | lower node | generate node => [node]
  | lowerAll nodes => nodes
  | setOptions _ | declare _ | checkName _ | emit _ => []

/-- The fault of a result, if it is one. -/
def Error.of? {α : Type} : Except Error α → Option Error
  | .ok _ => none
  | .error e => some e

lemma Error.of?_eq_some_iff {α : Type} {result : Except Error α} {e : Error} :
    Error.of? result = some e ↔ result = .error e := by
  cases result <;> simp [Error.of?]

/-- The fault of an answer, if it is one. -/
def Query.Answer.fault? : Query.Answer → Option Error
  | done => none
  | checked result => Error.of? result
  | code result => Error.of? result
  | lines result => Error.of? result

/-- A call keeps the claims coupled, and fails at no label but the first of a pair. -/
lemma Generator.ask_keeps {g : Generator} (hg : g.claimed.Coupled) (query : Query) :
    (g.ask query).1.claimed.Coupled ∧
      ∀ e, (g.ask query).2.answer.fault? = some e →
        e.Opening (query.nodes.flatMap Node.checks) := by
  cases query with
  | setOptions | declare | emit =>
    exact ⟨hg, fun e he => absurd he (by simp [ask, Query.Answer.fault?])⟩
  | checkName n =>
    refine ⟨hg, ?_⟩
    intro e he t ht
    have hfails : g.checkName n = .error e := Error.of?_eq_some_iff.mp he
    rw [ht, checkName] at hfails
    split at hfails
    · exact absurd hfails (by simp)
    · exact absurd hfails (by simp)
  | lowerNode node =>
    obtain ⟨hclaimed, hfault⟩ := perform_keeps node.coupled_script hg
    rw [Node.checked_script] at hfault
    refine ⟨hclaimed, ?_⟩
    intro e he
    rw [Query.nodes, List.flatMap_singleton]
    exact hfault e (Error.of?_eq_some_iff.mp he)
  | lower node =>
    obtain ⟨hclaimed, hfault⟩ := g.lowerAll_keeps [node]
    exact ⟨hclaimed, fun e he => hfault e (Error.of?_eq_some_iff.mp he)⟩
  | lowerAll nodes =>
    obtain ⟨hclaimed, hfault⟩ := g.lowerAll_keeps nodes
    exact ⟨hclaimed, fun e he => hfault e (Error.of?_eq_some_iff.mp he)⟩
  | generate node =>
    obtain ⟨hclaimed, hfault⟩ := g.lowerAll_keeps [node]
    refine ⟨hclaimed, fun e he => hfault e ?_⟩
    have hmap : (g.lowerAll [node]).result.map (List.map Instr.text) = .error e :=
      Error.of?_eq_some_iff.mp he
    cases hresult : (g.lowerAll [node]).result with
    | ok code =>
      rw [hresult] at hmap
      exact absurd hmap (by simp [Except.map])
    | error e' =>
      rw [hresult] at hmap
      exact congrArg Except.error (Except.error.inj hmap)

/-! ## Sessions -/

namespace Desk

variable {σ : Type} {desk : Desk σ} {P : σ → Prop} {Q : Query → Reply → Prop}
  {store : Nat → Option σ}

/-- All objects that are kept have a property. -/
def Holds (P : σ → Prop) (store : Nat → Option σ) : Prop :=
  ∀ number object, store number = some object → P object

lemma Holds.update (h : Holds P store) {object : σ} (hobject : P object) (number : Nat) :
    Holds P (Function.update store number (some object)) := by
  intro other object' hother
  by_cases heq : other = number
  · rw [heq, Function.update_self] at hother
    rwa [← Option.some.inj hother]
  · rw [Function.update_of_ne heq] at hother
    exact h other object' hother

/-- New objects have the property `P`, every call keeps it, and the replies to calls on objects
with this property satisfy `Q`. -/
structure Keeps (desk : Desk σ) (P : σ → Prop) (Q : Query → Reply → Prop) : Prop where
  /-- New objects have the property. -/
  make : ∀ options, P (desk.make options)
  /-- A call keeps the property, and its reply is as it should be. -/
  ask : ∀ object query, P object → P (desk.ask object query).1 ∧ Q query (desk.ask object query).2

lemma Keeps.serve (h : Keeps desk P Q) (hstore : Holds P store) (turn : Turn) :
    Holds P (desk.serve store turn).1 ∧
      ∀ number query reply, turn = .ask number query →
        (desk.serve store turn).2 = some reply → Q query reply := by
  cases turn with
  | make number options => exact ⟨hstore.update (h.make options) number, by simp⟩
  | copy source target =>
    refine ⟨?_, by simp⟩
    cases hsource : store source with
    | none => simpa only [Desk.serve, hsource] using hstore
    | some object =>
      simpa only [Desk.serve, hsource] using hstore.update (hstore source object hsource) target
  | ask number query =>
    cases hnumber : store number with
    | none => simpa [Desk.serve, hnumber] using hstore
    | some object =>
      obtain ⟨hafter, hreply⟩ := h.ask object query (hstore number object hnumber)
      simp only [Desk.serve, hnumber]
      refine ⟨hstore.update hafter number, ?_⟩
      rintro _ _ reply ⟨⟩ ⟨⟩
      exact hreply

/-- What every call keeps, every session keeps. -/
lemma Keeps.run (h : Keeps desk P Q) (hstore : Holds P store) (turns : List Turn) :
    Holds P (desk.run store turns).1 ∧
      ∀ (i number : Nat) query reply, turns[i]? = some (Turn.ask number query) →
        (desk.run store turns).2[i]? = some (some reply) → Q query reply := by
  induction turns generalizing store with
  | nil => exact ⟨hstore, by simp⟩
  | cons turn turns ih =>
    obtain ⟨hserved, hreply⟩ := h.serve hstore turn
    obtain ⟨hrest, hreplies⟩ := ih hserved
    refine ⟨hrest, ?_⟩
    intro i number query reply hturn hi
    cases i with
    | zero => exact hreply number query reply (Option.some.inj hturn) (Option.some.inj hi)
    | succ i => exact hreplies i number query reply hturn hi

end Desk

lemma Generator.keeps_coupled :
    Desk.Keeps Desk.generators (fun g => g.claimed.Coupled) fun query reply =>
      ∀ e, reply.answer.fault? = some e → e.Opening (query.nodes.flatMap Node.checks) where
  make _ := .empty
  ask _ query hg := ask_keeps hg query

/-- A fault at the first label of a pair names the start of a loop or the second branch of a
conditional. -/
lemma Error.Opening.cases {nodes : List Node} {e : Error} {t : String}
    (h : e.Opening (nodes.flatMap Node.checks)) (he : e = .duplicateLabel t) :
    (∃ k ∈ nodes.flatMap Node.loopIndices, t = (Label.loopStart k).text) ∨
      ∃ k ∈ nodes.flatMap Node.branchIndices, t = (Label.branchElse k).text := by
  obtain ⟨⟨family, k⟩, hl, hopens, rfl⟩ := h t he
  have hk := Node.index_mem_of_label_mem hl
  cases family with
  | loopStart => exact Or.inl ⟨k, hk, rfl⟩
  | branchElse => exact Or.inr ⟨k, hk, rfl⟩
  | loopEnd | branchEnd => exact absurd hopens Bool.false_ne_true

/-- **Claims on labels are all-or-nothing.**  After every session, a generator has claimed the start
of a loop if and only if it has claimed its end, and the second branch of a conditional if and only
if it has claimed its end, and nothing else is claimed.  So a label that a call finds claimed
already is the start of a loop or the second branch of a conditional of the given expressions, and
never an end. -/
theorem Generator.claims_all_or_nothing (turns : List Turn) :
    (∀ number g, (Desk.generators.run (fun _ => none) turns).1 number = some g →
      (∀ k, (Label.loopStart k).text ∈ g.claimed ↔ (Label.loopEnd k).text ∈ g.claimed) ∧
      (∀ k, (Label.branchElse k).text ∈ g.claimed ↔ (Label.branchEnd k).text ∈ g.claimed) ∧
      ∀ t ∈ g.claimed, ∃ l : Label, t = l.text) ∧
    ∀ (i number : Nat) query reply t, turns[i]? = some (.ask number query) →
      (Desk.generators.run (fun _ => none) turns).2[i]? = some (some reply) →
      reply.answer.fault? = some (.duplicateLabel t) →
      ((∃ k ∈ query.nodes.flatMap Node.loopIndices, t = (Label.loopStart k).text) ∨
        ∃ k ∈ query.nodes.flatMap Node.branchIndices, t = (Label.branchElse k).text) ∧
      ∀ k, t ≠ (Label.loopEnd k).text ∧ t ≠ (Label.branchEnd k).text := by
  have hstart : Desk.Holds (fun g : Generator => g.claimed.Coupled) (fun _ => none) := by
    intro number g hg
    exact absurd hg (by simp)
  obtain ⟨hcoupled, hreplies⟩ := keeps_coupled.run hstart turns
  constructor
  · intro number g hg
    have hclaimed := hcoupled number g hg
    exact ⟨fun k => hclaimed.mem_iff (.loopStart k), fun k => hclaimed.mem_iff (.branchElse k),
      hclaimed.label⟩
  · intro i number query reply t hturn hreply hfault
    have hcases := (hreplies i number query reply hturn hreply _ hfault).cases rfl
    refine ⟨hcases, ?_⟩
    intro k
    rcases hcases with ⟨j, -, rfl⟩ | ⟨j, -, rfl⟩
    · simp [Label.loopStart, Label.loopEnd, Label.branchEnd]
    · simp [Label.branchElse, Label.loopEnd, Label.branchEnd]

/-- A strict generator fails inside a loop, at a name that it does not admit, and a copy of it
meets the loop again. -/
def Turn.failInside : List Turn :=
  [.make 0 { strict := true, symbols := .ofList ["x"] },
   .ask 0 (.lowerNode (.loop 4 (.var "x") (.var "y"))),
   .copy 0 1,
   .ask 1 (.lowerNode (.bind "x" (.loop 4 (.var "x") (.number 0))))]

/-- Both labels of the loop are claimed after the failure, and the copy fails at its start. -/
theorem Generator.claims_failInside :
    (∃ g, (Desk.generators.run (fun _ => none) Turn.failInside).1 1 = some g ∧
      "while_start_4" ∈ g.claimed ∧ "while_end_4" ∈ g.claimed) ∧
    ∃ t, (Desk.generators.run (fun _ => none) Turn.failInside).2[3]?
        = some (some { answer := .checked (.error (.duplicateLabel t)) }) ∧
      t = "while_start_4" ∧ ∀ k, t ≠ (Label.loopEnd k).text ∧ t ≠ (Label.branchEnd k).text := by
  obtain ⟨hclaims, hfaults⟩ := claims_all_or_nothing Turn.failInside
  have hstore : (Desk.generators.run (fun _ => none) Turn.failInside).1 1 = some _ := rfl
  have hreply : (Desk.generators.run (fun _ => none) Turn.failInside).2[3]?
      = some (some { answer := .checked (.error (.duplicateLabel "while_start_4")) }) := rfl
  obtain ⟨hloop, -, -⟩ := hclaims 1 _ hstore
  have hclaimed : (Label.loopStart 4).text ∈ NameSet.ofList ["while_start_4", "while_end_4"] := by
    decide
  refine ⟨⟨_, hstore, hclaimed, (hloop 4).mp hclaimed⟩, _, hreply, rfl, ?_⟩
  exact (hfaults 3 1 _ _ _ rfl hreply rfl).2

end Accumulator
