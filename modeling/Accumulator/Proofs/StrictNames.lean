/-
Names in strict mode, after inference.

In strict mode a program may use a name only if it is a data word or allowed by the options.
Inference makes every name that a fragment binds a data word, so what is left to fail are names
that are read and never bound.  Names are read and bound at the leaves `var` and at the nodes
`bind` of an expression, wherever they stand:

* `Node.subtrees` lists all subtrees of an expression, and `Node.Reads` and `Node.Binds` say that a
  name is read or bound in one of them;
* the bindings that inference collects, the names that are checked and the names in the code are
  these names (`mem_bindings_iff`, `name_mem_checks_iff`, `load_mem_code_iff`).
-/
import Accumulator.Proofs.DataInference

namespace Accumulator

/-! ## Names in subtrees -/

namespace Node

/-- The subtrees of an expression, itself first. -/
def subtrees : Node → List Node
  | number value => [number value]
  | var name => [var name]
  | binary op left right => binary op left right :: (left.subtrees ++ right.subtrees)
  | bind name value => bind name value :: value.subtrees
  | loop k condition body => loop k condition body :: (condition.subtrees ++ body.subtrees)
  | branch k condition consequent alternative =>
    branch k condition consequent alternative ::
      (condition.subtrees ++ consequent.subtrees ++ alternative.subtrees)
  | lambda first second body => lambda first second body :: body.subtrees

/-- A name is read somewhere in an expression. -/
def Reads (node : Node) (name : String) : Prop := var name ∈ node.subtrees

/-- A name is bound somewhere in an expression. -/
def Binds (node : Node) (name : String) : Prop := ∃ value, bind name value ∈ node.subtrees

variable {node : Node} {name : String}

/-- The collected bindings are the names bound anywhere. -/
lemma mem_bindings_iff : name ∈ node.bindings ↔ node.Binds name := by
  unfold Binds
  induction node with
  | number | var => simp [bindings, subtrees]
  | binary op left right ihl ihr => simp [bindings, subtrees, ihl, ihr, exists_or]
  | bind target value ih =>
    simp only [bindings, subtrees, List.mem_append, List.mem_cons, List.not_mem_nil, or_false, ih,
      bind.injEq, exists_or, exists_and_left, exists_eq, and_true]
    exact or_comm
  | loop k condition body ihc ihb => simp [bindings, subtrees, ihc, ihb, exists_or]
  | branch k condition consequent alternative ihc iht ihe =>
    simp [bindings, subtrees, ihc, iht, ihe, exists_or]
  | lambda first second body ih => simp [bindings, subtrees, ih]

/-- The checked names are the names read or bound anywhere. -/
lemma name_mem_checks_iff : .name name ∈ node.checks ↔ node.Reads name ∨ node.Binds name := by
  rw [← mem_bindings_iff, Reads]
  induction node with
  | number | var => simp [checks, subtrees, bindings]
  | binary op left right ihl ihr =>
    simp only [checks, subtrees, bindings, List.mem_append, List.mem_cons, ihl, ihr,
      reduceCtorEq, false_or]
    exact or_or_or_comm
  | bind target value ih =>
    simp only [checks, subtrees, bindings, List.mem_append, List.mem_cons, List.not_mem_nil, ih,
      Check.name.injEq, reduceCtorEq, false_or, or_false]
    rw [or_comm, or_assoc]
  | loop k condition body ihc ihb =>
    simp only [checks, subtrees, bindings, List.mem_append, List.mem_cons, ihc, ihb,
      reduceCtorEq, false_or]
    exact or_or_or_comm
  | branch k condition consequent alternative ihc iht ihe =>
    simp only [checks, subtrees, bindings, List.mem_append, List.mem_cons, ihc, iht, ihe,
      reduceCtorEq, false_or]
    rw [or_or_or_comm (a := var name ∈ condition.subtrees), or_or_or_comm]
  | lambda first second body ih => simpa [checks, subtrees, bindings] using ih

/-- The code loads the names read anywhere. -/
lemma load_mem_code_iff : .load name ∈ node.code ↔ node.Reads name := by
  have htail (op : Operator) : Instr.load name ∉ op.tail := by
    cases op <;> simp [Operator.tail]
  unfold Reads
  induction node with
  | number | var => simp [code, subtrees]
  | binary op left right ihl ihr => simp [code, subtrees, ihl, ihr, htail]
  | bind target value ih => simp [code, subtrees, ih]
  | loop k condition body ihc ihb => simp [code, subtrees, ihc, ihb]
  | branch k condition consequent alternative ihc iht ihe =>
    simp [code, subtrees, ihc, iht, ihe]
  | lambda first second body ih => simpa [code, subtrees] using ih

end Node

/-! ## Programs -/

namespace Program

/-- A name is read in a fragment. -/
def Reads (program : Program) (name : String) : Prop :=
  ∃ node ∈ program.fragments, node.Reads name

/-- A name is bound in a fragment. -/
def Binds (program : Program) (name : String) : Prop :=
  ∃ node ∈ program.fragments, node.Binds name

variable {program : Program} {options : Options} {name : String}

lemma mem_data_inferData_iff_binds :
    name ∈ program.inferData.data ↔ program.Binds name ∨ name ∈ program.data := by
  simp only [mem_data_inferData, List.mem_flatMap, Node.mem_bindings_iff, Binds]

lemma name_mem_checks_iff :
    .name name ∈ program.fragments.flatMap Node.checks ↔
      program.Reads name ∨ program.Binds name := by
  simp only [List.mem_flatMap, Node.name_mem_checks_iff, Reads, Binds, and_or_left, exists_or]

/-- After inference a name is admitted if it was a data word, or is allowed, or is bound. -/
lemma mem_symbols_generator_inferData :
    name ∈ (program.inferData.generator options).symbols ↔
      name ∈ program.data ∨ name ∈ options.symbols ∨ program.Binds name := by
  rw [mem_symbols_generator, mem_data_inferData_iff_binds]
  tauto

/-- After inference, lowering accepts the fragments if their indices are different and, in strict
mode, every name that is read was a data word, or is allowed, or is bound. -/
lemma accepts_inferData_iff :
    (program.inferData.generator options).Accepts program.fragments ↔
      (program.fragments.flatMap Node.loopIndices).Nodup ∧
      (program.fragments.flatMap Node.branchIndices).Nodup ∧
      (options.strict = true → ∀ name, program.Reads name →
        name ∈ program.data ∨ name ∈ options.symbols ∨ program.Binds name) := by
  constructor
  · rintro ⟨hnames, hloops, hbranches⟩
    refine ⟨hloops, hbranches, fun hstrict name ⟨node, hnode, hreads⟩ => ?_⟩
    have hchecked : .name name ∈ node.checks := Node.name_mem_checks_iff.mpr (.inl hreads)
    rw [← options_generator program.inferData options] at hstrict
    exact mem_symbols_generator_inferData.mp (hnames node hnode name hchecked hstrict)
  · rintro ⟨hloops, hbranches, hreads⟩
    refine ⟨fun node hnode name hchecked hstrict => ?_, hloops, hbranches⟩
    rw [options_generator] at hstrict
    refine mem_symbols_generator_inferData.mpr ?_
    rcases Node.name_mem_checks_iff.mp hchecked with hread | hbind
    · exact hreads hstrict name ⟨node, hnode, hread⟩
    · exact .inr (.inr ⟨node, hnode, hbind⟩)

/-- The name of a fault is read, and it was not a data word, is not allowed and is not bound. -/
lemma never_bound_of_undefinedVariable
    (h : program.inferData.assemble options = .error (.undefinedVariable name)) :
    program.Reads name ∧ name ∉ program.data ∧ name ∉ options.symbols ∧ ¬ program.Binds name := by
  obtain ⟨c, hc, hfault⟩ := Generator.lowerAll_eq_error_iff.mp (assemble_eq_error_iff.mp h)
  obtain ⟨earlier, later, hchecks, -, hfails⟩ := Check.firstFailing?_eq_some_iff.mp hc
  cases c with
  | label l => simp [Check.fault] at hfault
  | name n =>
    obtain rfl : name = n := by simpa [Check.fault] using hfault
    have hused : .name name ∈ program.fragments.flatMap Node.checks := by
      rw [← fragments_inferData, hchecks]
      simp
    have hnot := mt mem_symbols_generator_inferData.mpr hfails.2
    simp only [not_or] at hnot
    exact ⟨(name_mem_checks_iff.mp hused).resolve_right hnot.2.2, hnot⟩

/-- **Strict mode after inference rejects exactly the names that are read and never bound.**  A name
that a fragment binds is never reported as undefined.  Assembling succeeds if and only if the loops
have different indices, the conditionals have different indices, and every name that is read was a
data word, or is allowed, or is bound in a fragment; and a name that is reported as undefined is
read and none of these.  In a listing every name that the code loads or stores is allowed or stands
in the data segment. -/
theorem assemble_inferData_strict (program : Program) (symbols : NameSet) :
    (∀ name, program.Binds name →
      program.inferData.assemble { strict := true, symbols } ≠ .error (.undefinedVariable name)) ∧
    ((∃ listing, program.inferData.assemble { strict := true, symbols } = .ok listing) ↔
      (program.fragments.flatMap Node.loopIndices).Nodup ∧
      (program.fragments.flatMap Node.branchIndices).Nodup ∧
      ∀ name, program.Reads name →
        name ∈ program.data ∨ name ∈ symbols ∨ program.Binds name) ∧
    (∀ name, program.inferData.assemble { strict := true, symbols }
        = .error (.undefinedVariable name) →
      program.Reads name ∧ name ∉ program.data ∧ name ∉ symbols ∧ ¬ program.Binds name) ∧
    ∀ listing, program.inferData.assemble { strict := true, symbols } = .ok listing →
      ∃ code, ((program.inferData.generator { strict := true, symbols }).lowerAll
          program.fragments).result = .ok code ∧
        listing.lines = layout program.inferData.data code ∧
        ∀ name, .load name ∈ code ∨ .store name ∈ code →
          name ∈ symbols ∨ name ∈ dataOf listing.lines := by
  refine ⟨fun name hbinds h => ?_, ?_, fun name h => never_bound_of_undefinedVariable h,
    fun listing h => ?_⟩
  · exact (never_bound_of_undefinedVariable h).2.2.2 hbinds
  · rw [exists_assemble_eq_ok_iff, fragments_inferData, accepts_inferData_iff]
    simp only [forall_const]
  · obtain ⟨haccepts, hlines⟩ := assemble_eq_ok_iff.mp h
    refine ⟨_, Generator.lowerAll_eq_ok_iff_accepts.mpr ⟨haccepts, rfl⟩, hlines, ?_⟩
    intro name hname
    rw [hlines, dataOf_layout, mem_data_inferData_iff_binds]
    simp only [List.mem_flatMap] at hname
    rcases hname with ⟨node, hnode, hload⟩ | ⟨node, hnode, hstore⟩
    · have hread := Node.load_mem_code_iff.mp hload
      rcases (accepts_inferData_iff.mp haccepts).2.2 rfl name ⟨node, hnode, hread⟩ with
        hdata | hsymbol | hbinds
      · exact .inr (.inr hdata)
      · exact .inl hsymbol
      · exact .inr (.inl hbinds)
    · have hbind := Node.mem_bindings_iff.mp (Node.store_mem_code_iff.mp hstore)
      exact .inr (.inl ⟨node, hnode, hbind⟩)

/-- A conditional that reads a name before the lambda of the second fragment binds it. -/
def lateBinding : Program where
  fragments :=
    [.branch 0 (.bind "c" (.number 1)) (.var "late") (.var "c"),
     .lambda "p" "q" (.bind "late" (.loop 0 (.var "input") (.number 0)))]

theorem assemble_lateBinding :
    (∃ listing, lateBinding.inferData.assemble { strict := true, symbols := .ofList ["input"] }
        = .ok listing ∧ ("late" ∈ NameSet.ofList ["input"] ∨ "late" ∈ dataOf listing.lines)) ∧
      lateBinding.inferData.assemble { strict := true } = .error (.undefinedVariable "input") ∧
      lateBinding.Reads "input" ∧ ¬ lateBinding.Binds "input" ∧
      lateBinding.inferData.assemble { strict := true } ≠ .error (.undefinedVariable "late") := by
  obtain ⟨-, -, -, hnames⟩ := assemble_inferData_strict lateBinding (.ofList ["input"])
  obtain ⟨hbound, -, hundefined, -⟩ := assemble_inferData_strict lateBinding ∅
  have hok : lateBinding.inferData.assemble { strict := true, symbols := .ofList ["input"] }
      = .ok _ := rfl
  have herror : lateBinding.inferData.assemble { strict := true }
      = .error (.undefinedVariable "input") := rfl
  obtain ⟨hreads, -, -, hnever⟩ := hundefined "input" herror
  refine ⟨⟨_, hok, ?_⟩, herror, hreads, hnever, hbound "late" ?_⟩
  · obtain ⟨code, hcode, -, hplaces⟩ := hnames _ hok
    obtain ⟨-, rfl⟩ := Generator.lowerAll_eq_ok_iff.mp hcode
    exact hplaces "late" (by decide)
  · exact ⟨_, List.mem_cons_of_mem _ (List.mem_singleton.mpr rfl), _,
      List.mem_cons_of_mem _ (List.mem_cons_self)⟩

end Program

end Accumulator
