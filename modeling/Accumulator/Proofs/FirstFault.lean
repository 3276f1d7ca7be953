/-
The result of lowering, as a function of the checks.

Lowering a list of expressions makes the checks of the expressions in order, and the first check
that fails decides the fault.  Whether a check fails can be said without the generator's run: a
name fails if the generator is strict and does not admit it, and a label fails if its text
occurs among the labels of the earlier checks.  If no check fails, the result is the code of the
expressions, one after another, whatever the state of the generator was.

* `Check.firstFailing?` finds the first failing check of a list;
* `perform_result` says that a script ends with the fault of that check, if there is one, and
  `perform_extended` says what it leaves behind, whether or not there is one;
* `lowerAll_eq_ok_iff` and `lowerAll_eq_error_iff` say the same of a whole output;
* `labels_nodup_iff` reduces the claims on labels to the indices of loops and conditionals.
-/
import Accumulator.Generator
import Accumulator.Proofs.LabelText
import Mathlib.Data.List.Nodup

namespace Accumulator

namespace Check

/-- The texts of the labels that checks claim, in order. -/
def texts (checks : List Check) : List String :=
  checks.filterMap fun
    | label l => some l.text
    | name _ => none

@[simp] lemma texts_nil : texts [] = [] := rfl

@[simp] lemma texts_cons_name (n : String) (checks : List Check) :
    texts (name n :: checks) = texts checks := rfl

@[simp] lemma texts_cons_label (l : Label) (checks : List Check) :
    texts (label l :: checks) = l.text :: texts checks := rfl

@[simp] lemma texts_append (xs ys : List Check) : texts (xs ++ ys) = texts xs ++ texts ys :=
  List.filterMap_append

/-- A label has its text among those that checks claim if it is one of the labels. -/
lemma text_mem_texts_iff {l : Label} {checks : List Check} :
    l.text ∈ texts checks ↔ label l ∈ checks := by
  induction checks with
  | nil => simp
  | cons c checks ih =>
    cases c with
    | name n => simp [ih]
    | label l' => simp [ih]

/-- A check fails in a generator, the texts `taken` being claimed already: a name, if the
generator is strict and does not admit it; a label, if its text is taken. -/
def Fails (g : Generator) (taken : List String) : Check → Prop
  | name n => g.options.strict = true ∧ n ∉ g.symbols
  | label l => l.text ∈ taken

instance (g : Generator) (taken : List String) (c : Check) : Decidable (c.Fails g taken) :=
  match c with
  | name n => inferInstanceAs (Decidable (g.options.strict = true ∧ n ∉ g.symbols))
  | label l => inferInstanceAs (Decidable (l.text ∈ taken))

/-- The fault of a check that fails. -/
def fault : Check → Error
  | name n => .undefinedVariable n
  | label l => .duplicateLabel l.text

/-- The first failing check of a list, the texts `taken` being claimed already. -/
def firstFailing? (g : Generator) (taken : List String) : List Check → Option Check
  | [] => none
  | c :: checks =>
    if c.Fails g taken then some c else firstFailing? g (taken ++ texts [c]) checks

variable {g g' : Generator} {taken taken' : List String} {c : Check} {checks : List Check}

lemma firstFailing?_cons_of_fails (h : c.Fails g taken) :
    firstFailing? g taken (c :: checks) = some c := by
  rw [firstFailing?, if_pos h]

lemma firstFailing?_cons_of_not_fails (h : ¬ c.Fails g taken) :
    firstFailing? g taken (c :: checks) = firstFailing? g (taken ++ texts [c]) checks := by
  rw [firstFailing?, if_neg h]

/-! ## What a failure depends on -/

lemma fails_congr (ho : g.options = g'.options) (hs : g.symbols = g'.symbols)
    (ht : ∀ t, t ∈ taken ↔ t ∈ taken') : c.Fails g taken ↔ c.Fails g' taken' := by
  cases c with
  | name n => simp only [Fails, ho, hs]
  | label l => exact ht l.text

/-- Of the generator only its options and symbols matter, and of the texts only which they
are. -/
lemma firstFailing?_congr (ho : g.options = g'.options) (hs : g.symbols = g'.symbols)
    (ht : ∀ t, t ∈ taken ↔ t ∈ taken') :
    firstFailing? g taken checks = firstFailing? g' taken' checks := by
  induction checks generalizing taken taken' with
  | nil => rfl
  | cons c checks ih =>
    have hc : c.Fails g taken ↔ c.Fails g' taken' := fails_congr ho hs ht
    by_cases h : c.Fails g taken
    · rw [firstFailing?_cons_of_fails h, firstFailing?_cons_of_fails (hc.mp h)]
    · rw [firstFailing?_cons_of_not_fails h, firstFailing?_cons_of_not_fails (mt hc.mpr h)]
      refine ih fun t => ?_
      rw [List.mem_append, List.mem_append, ht t]

/-! ## The first failing check by its place -/

/-- The first failing check has checks before it none of which fails. -/
lemma firstFailing?_eq_some_iff :
    firstFailing? g taken checks = some c ↔
      ∃ earlier later, checks = earlier ++ c :: later ∧
        firstFailing? g taken earlier = none ∧ c.Fails g (taken ++ texts earlier) := by
  induction checks generalizing taken with
  | nil => simp [firstFailing?]
  | cons d checks ih =>
    by_cases hd : d.Fails g taken
    · rw [firstFailing?_cons_of_fails hd]
      constructor
      · rintro ⟨⟩
        exact ⟨[], checks, rfl, rfl, by simpa using hd⟩
      · rintro ⟨earlier, later, heq, hnone, -⟩
        cases earlier with
        | nil => rw [(List.cons.inj heq).1]
        | cons e earlier =>
          -- the head fails, so nothing can pass before the failing check
          obtain ⟨rfl, -⟩ := List.cons.inj heq
          rw [firstFailing?_cons_of_fails hd] at hnone
          exact absurd hnone (by simp)
    · rw [firstFailing?_cons_of_not_fails hd, ih]
      constructor
      · rintro ⟨earlier, later, rfl, hnone, hc⟩
        refine ⟨d :: earlier, later, rfl, ?_, ?_⟩
        · rw [firstFailing?_cons_of_not_fails hd]
          exact hnone
        · rw [← List.singleton_append, texts_append, ← List.append_assoc]
          exact hc
      · rintro ⟨earlier, later, heq, hnone, hc⟩
        cases earlier with
        | nil =>
          obtain ⟨rfl, -⟩ := List.cons.inj heq
          exact absurd (by simpa using hc) hd
        | cons e earlier =>
          obtain ⟨rfl, rfl⟩ := List.cons.inj heq
          refine ⟨earlier, later, rfl, ?_, ?_⟩
          · rwa [firstFailing?_cons_of_not_fails hd] at hnone
          · rwa [← List.singleton_append, texts_append, ← List.append_assoc] at hc

/-- Without a failing check, every name passes, and the labels have different texts, none of
which was taken. -/
lemma firstFailing?_eq_none_iff :
    firstFailing? g taken checks = none ↔
      (∀ n, name n ∈ checks → g.options.strict = true → n ∈ g.symbols) ∧
        (texts checks).Nodup ∧ ∀ t ∈ texts checks, t ∉ taken := by
  induction checks generalizing taken with
  | nil => simp [firstFailing?]
  | cons d checks ih =>
    by_cases hd : d.Fails g taken
    · rw [firstFailing?_cons_of_fails hd]
      refine ⟨fun h => absurd h (by simp), ?_⟩
      rintro ⟨hnames, -, htaken⟩
      cases d with
      | name n => exact absurd (hnames n (by simp) hd.1) hd.2
      | label l => exact absurd hd (htaken l.text (by simp))
    · rw [firstFailing?_cons_of_not_fails hd, ih]
      cases d with
      | name n =>
        have hn : g.options.strict = true → n ∈ g.symbols := by
          intro hs
          by_contra hn
          exact hd ⟨hs, hn⟩
        simp only [texts_cons_name, texts_nil, List.append_nil, List.mem_cons, name.injEq,
          forall_eq_or_imp]
        exact ⟨fun ⟨h1, h2, h3⟩ => ⟨⟨hn, h1⟩, h2, h3⟩, fun ⟨h1, h2, h3⟩ => ⟨h1.2, h2, h3⟩⟩
      | label l =>
        have hl : l.text ∉ taken := hd
        simp only [texts_cons_label, texts_nil, List.nodup_cons, List.mem_cons,
          List.mem_append, forall_eq_or_imp, List.not_mem_nil, or_false, reduceCtorEq,
          false_or, not_or]
        constructor
        · rintro ⟨hnames, hnodup, htaken⟩
          refine ⟨hnames, ⟨fun hmem => (htaken _ hmem).2 rfl, hnodup⟩, hl, ?_⟩
          exact fun t ht => (htaken t ht).1
        · rintro ⟨hnames, ⟨hnew, hnodup⟩, -, htaken⟩
          refine ⟨hnames, hnodup, fun t ht => ⟨htaken t ht, ?_⟩⟩
          rintro rfl
          exact hnew ht

end Check

/-! ## Scripts -/

namespace Step

lemma checked_flatMap_script (nodes : List Node) :
    checked (nodes.flatMap Node.script) = nodes.flatMap Node.checks := by
  induction nodes with
  | nil => rfl
  | cons node nodes ih =>
    rw [List.flatMap_cons, List.flatMap_cons, checked_append, Node.checked_script, ih]

lemma emitted_flatMap_script (nodes : List Node) :
    emitted (nodes.flatMap Node.script) = nodes.flatMap Node.code := by
  induction nodes with
  | nil => rfl
  | cons node nodes ih =>
    rw [List.flatMap_cons, List.flatMap_cons, emitted_append, Node.emitted_script, ih]

/-- How far a script has been performed when it ends with a result: to its end if it ends well,
and otherwise up to a check. -/
def Performed (steps done : List Step) : Except Error Unit → Prop
  | .ok () => steps = done
  | .error _ => ∃ c later, steps = done ++ .check c :: later

lemma Performed.cons {steps done : List Step} {result : Except Error Unit}
    (h : Performed steps done result) (step : Step) :
    Performed (step :: steps) (step :: done) result := by
  cases result with
  | ok =>
    have hdone : steps = done := h
    exact congrArg (step :: ·) hdone
  | error e =>
    obtain ⟨c, later, rfl⟩ := h
    exact ⟨c, later, rfl⟩

end Step

namespace Generator

open Check (firstFailing? texts)

/-- The generator after checks that pass: their labels are claimed. -/
def passed (g : Generator) (checks : List Check) : Generator :=
  { g with claimed := g.claimed.insertAll (texts checks) }

lemma mem_passed_claimed {g : Generator} {checks : List Check} {t : String} :
    t ∈ (g.passed checks).claimed.toList ↔ t ∈ g.claimed.toList ++ texts checks := by
  rw [← NameSet.mem_def, passed, NameSet.mem_insertAll, List.mem_append, or_comm,
    NameSet.mem_def]

lemma check_of_fails {g : Generator} {c : Check} (h : c.Fails g g.claimed.toList) :
    g.check c = .error c.fault := by
  cases c with
  | name n =>
    have hn : g.checkName n = .error (.undefinedVariable n) := if_pos h
    rw [check, hn]
    rfl
  | label l => exact if_pos h

lemma check_of_not_fails {g : Generator} {c : Check} (h : ¬ c.Fails g g.claimed.toList) :
    g.check c = .ok (g.passed [c]) := by
  cases c with
  | name n =>
    have hn : g.checkName n = .ok () := if_neg h
    rw [check, hn]
    rfl
  | label l => exact if_neg h

/-- Once a check has passed, the rest of the checks fail where they failed before it. -/
lemma firstFailing?_passed (g : Generator) (c : Check) (checks : List Check) :
    firstFailing? (g.passed [c]) (g.passed [c]).claimed.toList checks
      = firstFailing? g (g.claimed.toList ++ texts [c]) checks :=
  Check.firstFailing?_congr rfl rfl fun _ => mem_passed_claimed

/-- A script ends with the fault of its first failing check. -/
lemma perform_result (g : Generator) (steps : List Step) :
    (g.perform steps).result =
      match firstFailing? g g.claimed.toList (Step.checked steps) with
      | none => .ok ()
      | some c => .error c.fault := by
  induction steps generalizing g with
  | nil => rfl
  | cons step steps ih =>
    cases step with
    | emit instr =>
      have hsame : firstFailing? (g.emit instr) g.claimed.toList (Step.checked steps)
          = firstFailing? g g.claimed.toList (Step.checked steps) :=
        Check.firstFailing?_congr rfl rfl fun _ => Iff.rfl
      rw [Step.checked_emit, ← hsame]
      exact ih (g.emit instr)
    | note event => exact ih g
    | check c =>
      rw [Step.checked_check]
      by_cases hc : c.Fails g g.claimed.toList
      · rw [Check.firstFailing?_cons_of_fails hc, perform, check_of_fails hc]
      · rw [Check.firstFailing?_cons_of_not_fails hc, perform, check_of_not_fails hc]
        rw [← firstFailing?_passed]
        exact ih (g.passed [c])

/-- A script ends well if and only if none of its checks fails. -/
lemma perform_eq_ok_iff {g : Generator} {steps : List Step} :
    (g.perform steps).result = .ok () ↔
      firstFailing? g g.claimed.toList (Step.checked steps) = none := by
  rw [perform_result]
  cases firstFailing? g g.claimed.toList (Step.checked steps) <;> simp

/-- The generator after steps that have passed: their labels are claimed, and their instructions
are appended. -/
def extended (g : Generator) (steps : List Step) : Generator :=
  { g.passed (Step.checked steps) with code := g.code ++ Step.emitted steps }

lemma mem_claimed_extended {g : Generator} {steps : List Step} {t : String} :
    t ∈ (g.extended steps).claimed ↔ t ∈ texts (Step.checked steps) ∨ t ∈ g.claimed :=
  NameSet.mem_insertAll

lemma extended_nil (g : Generator) : g.extended [] = g := by
  simp [extended, passed, NameSet.insertAll]

lemma extended_cons_emit (g : Generator) (instr : Instr) (steps : List Step) :
    g.extended (.emit instr :: steps) = (g.emit instr).extended steps := by
  simp [extended, passed, emit]

lemma extended_cons_check (g : Generator) (c : Check) (steps : List Step) :
    g.extended (.check c :: steps) = (g.passed [c]).extended steps := by
  cases c <;> rfl

/-- A script leaves the generator extended by the steps that have been performed, whether or not
it fails. -/
lemma perform_extended (g : Generator) (steps : List Step) :
    ∃ done, (g.perform steps).generator = g.extended done ∧
      Step.Performed steps done (g.perform steps).result := by
  induction steps generalizing g with
  | nil => exact ⟨[], g.extended_nil.symm, rfl⟩
  | cons step steps ih =>
    cases step with
    | emit instr =>
      obtain ⟨done, hgenerator, hdone⟩ := ih (g.emit instr)
      refine ⟨.emit instr :: done, ?_, hdone.cons (.emit instr)⟩
      rw [extended_cons_emit]
      exact hgenerator
    | note event =>
      obtain ⟨done, hgenerator, hdone⟩ := ih g
      exact ⟨.note event :: done, hgenerator, hdone.cons (.note event)⟩
    | check c =>
      by_cases hc : c.Fails g g.claimed.toList
      · -- the script stops here, and the check that fails leaves nothing behind
        rw [perform, check_of_fails hc]
        exact ⟨[], g.extended_nil.symm, c, steps, rfl⟩
      · rw [perform, check_of_not_fails hc]
        obtain ⟨done, hgenerator, hdone⟩ := ih (g.passed [c])
        refine ⟨.check c :: done, ?_, hdone.cons (.check c)⟩
        rw [extended_cons_check]
        exact hgenerator

/-- A script that ends well has claimed its labels and emitted its code. -/
lemma perform_generator_of_ok {g : Generator} {steps : List Step}
    (h : (g.perform steps).result = .ok ()) : (g.perform steps).generator = g.extended steps := by
  obtain ⟨done, hgenerator, hdone⟩ := g.perform_extended steps
  rw [h] at hdone
  obtain rfl : steps = done := hdone
  exact hgenerator

/-- A script changes neither the options nor the admitted names. -/
lemma perform_unchanged (g : Generator) (steps : List Step) :
    (g.perform steps).generator.options = g.options ∧
      (g.perform steps).generator.symbols = g.symbols := by
  obtain ⟨done, hgenerator, -⟩ := g.perform_extended steps
  rw [hgenerator]
  exact ⟨rfl, rfl⟩

/-! ## Whole outputs -/

/-- The result of lowering expressions into a new output. -/
lemma lowerAll_result (g : Generator) (nodes : List Node) :
    (g.lowerAll nodes).result =
      match firstFailing? g [] (nodes.flatMap Node.checks) with
      | none => .ok (nodes.flatMap Node.code)
      | some c => .error c.fault := by
  have hresult := g.clear.perform_result (nodes.flatMap Node.script)
  have hclear : firstFailing? g.clear g.clear.claimed.toList (nodes.flatMap Node.checks)
      = firstFailing? g [] (nodes.flatMap Node.checks) :=
    Check.firstFailing?_congr rfl rfl fun _ => Iff.rfl
  rw [Step.checked_flatMap_script, hclear] at hresult
  unfold lowerAll
  cases hfirst : firstFailing? g [] (nodes.flatMap Node.checks) with
  | some c =>
    rw [hfirst] at hresult
    simp only [hresult]
  | none =>
    rw [hfirst] at hresult
    simp only [hresult, perform_generator_of_ok hresult, extended, Step.emitted_flatMap_script]
    simp [clear]

lemma lowerAll_eq_ok_iff {g : Generator} {nodes : List Node} {code : List Instr} :
    (g.lowerAll nodes).result = .ok code ↔
      firstFailing? g [] (nodes.flatMap Node.checks) = none ∧
        code = nodes.flatMap Node.code := by
  rw [lowerAll_result]
  cases firstFailing? g [] (nodes.flatMap Node.checks) <;> simp [eq_comm]

lemma lowerAll_eq_error_iff {g : Generator} {nodes : List Node} {e : Error} :
    (g.lowerAll nodes).result = .error e ↔
      ∃ c, firstFailing? g [] (nodes.flatMap Node.checks) = some c ∧ e = c.fault := by
  rw [lowerAll_result]
  cases firstFailing? g [] (nodes.flatMap Node.checks) <;> simp [eq_comm]

end Generator

/-! ## Labels and indices -/

namespace Node

/-- The indices of the loops of an expression, an outer loop before its parts. -/
def loopIndices : Node → List UInt64
  | number _ => []
  | var _ => []
  | binary _ left right => left.loopIndices ++ right.loopIndices
  | bind _ value => value.loopIndices
  | loop k condition body => k :: (condition.loopIndices ++ body.loopIndices)
  | branch _ condition consequent alternative =>
    condition.loopIndices ++ consequent.loopIndices ++ alternative.loopIndices
  | lambda _ _ body => body.loopIndices

/-- The indices of the conditionals of an expression, an outer conditional before its parts. -/
def branchIndices : Node → List UInt64
  | number _ => []
  | var _ => []
  | binary _ left right => left.branchIndices ++ right.branchIndices
  | bind _ value => value.branchIndices
  | loop _ condition body => condition.branchIndices ++ body.branchIndices
  | branch k condition consequent alternative =>
    k :: (condition.branchIndices ++ consequent.branchIndices ++ alternative.branchIndices)
  | lambda _ _ body => body.branchIndices

/-- The indices of the labels of one family in an expression. -/
def indices (node : Node) : LabelFamily → List UInt64
  | .loopStart | .loopEnd => node.loopIndices
  | .branchElse | .branchEnd => node.branchIndices

@[simp] lemma labels_number (value : Int64) : (number value).labels = [] := rfl

@[simp] lemma labels_var (n : String) : (var n).labels = [] := rfl

@[simp] lemma labels_binary (op : Operator) (left right : Node) :
    (binary op left right).labels = left.labels ++ right.labels :=
  List.filterMap_append

@[simp] lemma labels_bind (n : String) (value : Node) : (bind n value).labels = value.labels := rfl

@[simp] lemma labels_loop (k : UInt64) (condition body : Node) :
    (loop k condition body).labels =
      .loopStart k :: .loopEnd k :: (condition.labels ++ body.labels) := by
  simp [labels, checks]

@[simp] lemma labels_branch (k : UInt64) (condition consequent alternative : Node) :
    (branch k condition consequent alternative).labels =
      .branchElse k :: .branchEnd k ::
        (condition.labels ++ consequent.labels ++ alternative.labels) := by
  simp [labels, checks]

@[simp] lemma labels_lambda (first second : String) (body : Node) :
    (lambda first second body).labels = body.labels := rfl

/-- A label occurs as often as its index occurs among the indices of its family. -/
lemma count_labels (node : Node) (l : Label) :
    node.labels.count l = (node.indices l.family).count l.index := by
  obtain ⟨family, i⟩ := l
  induction node with
  | number | var => cases family <;> rfl
  | binary op left right ihl ihr =>
    rw [labels_binary, List.count_append, ihl, ihr]
    cases family <;> simp [indices, loopIndices, branchIndices]
  | bind name value ih => exact ih.trans (by cases family <;> rfl)
  | loop k condition body ihc ihb =>
    simp only [labels_loop, List.count_cons, List.count_append, ihc, ihb]
    cases family <;>
      simp [indices, loopIndices, branchIndices, Label.loopStart, Label.loopEnd,
        List.count_cons]
  | branch k condition consequent alternative ihc iht ihe =>
    simp only [labels_branch, List.count_cons, List.count_append, ihc, iht, ihe]
    cases family <;>
      simp [indices, loopIndices, branchIndices, Label.branchElse, Label.branchEnd,
        List.count_cons, Nat.add_assoc]
  | lambda first second body ih => exact ih.trans (by cases family <;> rfl)

/-- An expression has a label if and only if it has the index of the label in its family. -/
lemma mem_labels_iff {node : Node} {l : Label} :
    l ∈ node.labels ↔ l.index ∈ node.indices l.family := by
  rw [← List.count_pos_iff, count_labels, List.count_pos_iff]

/-- A label that is claimed has one of the indices of its family. -/
lemma index_mem_of_label_mem {nodes : List Node} {l : Label}
    (h : .label l ∈ nodes.flatMap checks) :
    l.index ∈ nodes.flatMap fun node => node.indices l.family := by
  obtain ⟨node, hnode, hcheck⟩ := List.mem_flatMap.mp h
  have hlabel : l ∈ node.labels := List.mem_filterMap.mpr ⟨_, hcheck, rfl⟩
  exact List.mem_flatMap.mpr ⟨node, hnode, mem_labels_iff.mp hlabel⟩

/-- The labels of a list of expressions are different if and only if its loops have different
indices and its conditionals have different indices. -/
lemma labels_nodup_iff (nodes : List Node) :
    (nodes.flatMap labels).Nodup ↔
      (nodes.flatMap loopIndices).Nodup ∧ (nodes.flatMap branchIndices).Nodup := by
  have hcount (l : Label) : (nodes.flatMap labels).count l
      = (nodes.flatMap fun node => node.indices l.family).count l.index := by
    rw [List.count_flatMap, List.count_flatMap]
    congr 1
    exact List.map_congr_left fun node _ => node.count_labels l
  simp only [List.nodup_iff_count_le_one, hcount]
  constructor
  · intro h
    exact ⟨fun k => h (.loopStart k), fun k => h (.branchElse k)⟩
  · rintro ⟨hloop, hbranch⟩ ⟨family, k⟩
    cases family with
    | loopStart | loopEnd => exact hloop k
    | branchElse | branchEnd => exact hbranch k

end Node

/-- The checks of expressions claim the texts of their labels. -/
lemma Check.texts_flatMap_checks (nodes : List Node) :
    texts (nodes.flatMap Node.checks) = (nodes.flatMap Node.labels).map Label.text := by
  induction nodes with
  | nil => rfl
  | cons node nodes ih =>
    have hnode : texts node.checks = node.labels.map Label.text := by
      rw [Node.labels, List.map_filterMap, texts]
      congr 1
      funext c
      cases c <;> rfl
    rw [List.flatMap_cons, List.flatMap_cons, texts_append, List.map_append, hnode, ih]

/-- Expressions that are lowered into one output have different labels. -/
lemma Generator.labels_nodup_of_lowerAll {g : Generator} {nodes : List Node} {code : List Instr}
    (h : (g.lowerAll nodes).result = .ok code) : (nodes.flatMap Node.labels).Nodup := by
  have hnone := (lowerAll_eq_ok_iff.mp h).1
  have htexts := (Check.firstFailing?_eq_none_iff.mp hnone).2.1
  rw [Check.texts_flatMap_checks] at htexts
  exact htexts.of_map _

/-! ## The result by the checks -/

/-- No check of a list fails, each being made after those before it. -/
def Check.AllPass (g : Generator) (checks : List Check) : Prop :=
  ∀ earlier c later, checks = earlier ++ c :: later → ¬ c.Fails g (texts earlier)

lemma Check.allPass_iff {g : Generator} {checks : List Check} :
    AllPass g checks ↔ firstFailing? g [] checks = none := by
  constructor
  · intro hpass
    by_contra hne
    obtain ⟨c, hc⟩ := Option.ne_none_iff_exists'.mp hne
    obtain ⟨earlier, later, heq, -, hfails⟩ := firstFailing?_eq_some_iff.mp hc
    exact hpass earlier c later heq hfails
  · rintro hnone earlier c later rfl hfails
    obtain ⟨hnames, hnodup, -⟩ := firstFailing?_eq_none_iff.mp hnone
    cases c with
    | name n => exact hfails.2 (hnames n (by simp) hfails.1)
    | label l =>
      rw [texts_append, texts_cons_label] at hnodup
      exact (List.nodup_append.mp hnodup).2.2 l.text hfails l.text (by simp) rfl

/-- **The result of lowering expressions into one output.**  It is the fault of the first check
that fails, if there is one, and else the code of the expressions, one after another.  So
lowering succeeds exactly if no name fails, no two loops have the same index and no two
conditionals have the same index. -/
theorem Generator.lowerAll_result_by_checks (g : Generator) (nodes : List Node) :
    (∀ e, (g.lowerAll nodes).result = .error e ↔
      ∃ earlier c later, nodes.flatMap Node.checks = earlier ++ c :: later ∧
        Check.AllPass g earlier ∧ c.Fails g (Check.texts earlier) ∧ e = c.fault) ∧
    (∀ code, (g.lowerAll nodes).result = .ok code ↔
      Check.AllPass g (nodes.flatMap Node.checks) ∧ code = nodes.flatMap Node.code) ∧
    ((∃ code, (g.lowerAll nodes).result = .ok code) ↔
      (∀ n, Check.name n ∈ nodes.flatMap Node.checks → g.options.strict = true → n ∈ g.symbols) ∧
        (nodes.flatMap Node.loopIndices).Nodup ∧ (nodes.flatMap Node.branchIndices).Nodup) := by
  refine ⟨fun e => ?_, fun code => ?_, ?_⟩
  · rw [lowerAll_eq_error_iff]
    constructor
    · rintro ⟨c, hc, rfl⟩
      obtain ⟨earlier, later, heq, hnone, hfails⟩ := Check.firstFailing?_eq_some_iff.mp hc
      exact ⟨earlier, c, later, heq, Check.allPass_iff.mpr hnone, hfails, rfl⟩
    · rintro ⟨earlier, c, later, heq, hpass, hfails, rfl⟩
      refine ⟨c, Check.firstFailing?_eq_some_iff.mpr ⟨earlier, later, heq, ?_, hfails⟩, rfl⟩
      exact Check.allPass_iff.mp hpass
  · rw [lowerAll_eq_ok_iff, Check.allPass_iff]
  · have hok : (∃ code, (g.lowerAll nodes).result = .ok code) ↔
        Check.firstFailing? g [] (nodes.flatMap Node.checks) = none := by
      simp [lowerAll_eq_ok_iff]
    rw [hok, Check.firstFailing?_eq_none_iff, Check.texts_flatMap_checks,
      List.nodup_map_iff fun l l' => Label.text_injective, Node.labels_nodup_iff]
    simp

end Accumulator
