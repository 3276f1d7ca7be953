/-
Data words and stores.

The data words of a program are declared one by one, or inferred: every name that a fragment
binds is declared.  A name is kept at the place of its first mention, inside an expression, across
the fragments and after earlier declarations.  Keeping first mentions step by step is the same as
keeping the first occurrences in the whole list of mentions, so the data words after any calls are
described by one list:

* `Roster.enterAll_eraseDups`: entering names one after another leaves their first occurrences;
* `Node.filterMap_stored?_code`: the stores of the code of an expression are its bindings, in the
  order of evaluation;
* `Program.data_foldl_edit`: calls enter the names that they mention, in order.

After an inference every name that the code stores is a data word, and as no data word is there
twice, it has exactly one line in the listing (`Program.count_dataLine_layout`).
-/
import Accumulator.Proofs.ListingReading
import Mathlib.Data.List.Count

namespace Accumulator

/-! ## First occurrences -/

namespace Roster

lemma enter_eraseDups (xs : List String) (name : String) :
    enter xs.eraseDups name = (xs ++ [name]).eraseDups := by
  rw [List.eraseDups_append, List.cons_removeAll]
  by_cases hmem : name ∈ xs
  · simp [enter, hmem, List.removeAll]
  · simp [enter, hmem, List.removeAll, List.eraseDups_cons]

/-- Entering names one after another leaves the first occurrences. -/
lemma enterAll_eraseDups (xs ys : List String) :
    enterAll xs.eraseDups ys = (xs ++ ys).eraseDups := by
  induction ys generalizing xs with
  | nil => simp
  | cons name ys ih =>
    rw [enterAll_cons, enter_eraseDups, ih, List.append_assoc, List.singleton_append]

lemma ofList_eq_eraseDups (names : List String) : ofList names = names.eraseDups :=
  enterAll_eraseDups [] names

lemma enterAll_enter (roster names : List String) (name : String) :
    enterAll roster (enter names name) = enter (enterAll roster names) name := by
  by_cases hmem : name ∈ names
  · have hentered : name ∈ enterAll roster names := mem_enterAll.mpr (.inl hmem)
    rw [enter, if_pos hmem, enter, if_pos hentered]
  · rw [enter, if_neg hmem, enterAll_append]
    rfl

lemma enterAll_enterAll (roster names more : List String) :
    enterAll roster (enterAll names more) = enterAll (enterAll roster names) more := by
  induction more generalizing names with
  | nil => rfl
  | cons name more ih => rw [enterAll_cons, ih, enterAll_enter, enterAll_cons]

/-- Whether repetitions are dropped before the names are entered makes no difference. -/
lemma enterAll_ofList (roster names : List String) :
    enterAll roster (ofList names) = enterAll roster names :=
  enterAll_enterAll roster [] names

lemma enterAll_of_subset {roster names : List String} (h : names ⊆ roster) :
    enterAll roster names = roster := by
  induction names with
  | nil => rfl
  | cons name names ih =>
    obtain ⟨hname, hnames⟩ := List.cons_subset.mp h
    rw [enterAll_cons, enter, if_pos hname, ih hnames]

end Roster

/-! ## Stores -/

/-- The name under which an instruction stores the accumulator. -/
def Instr.stored? : Instr → Option String
  | store name => some name
  | _ => none

lemma Instr.stored?_eq_some_iff {instr : Instr} {name : String} :
    instr.stored? = some name ↔ instr = .store name := by
  cases instr <;> simp [stored?]

@[simp] lemma Operator.filterMap_stored?_tail (op : Operator) :
    op.tail.filterMap Instr.stored? = [] := by
  cases op <;> rfl

/-- The code of an expression stores the names that the expression binds, in the order of
evaluation. -/
lemma Node.filterMap_stored?_code (node : Node) :
    node.code.filterMap Instr.stored? = node.bindings := by
  induction node with
  | number | var => rfl
  | binary op left right ihl ihr =>
    simp [code, bindings, List.filterMap_cons, Instr.stored?, ihl, ihr]
  | bind name value ih => simp [code, bindings, Instr.stored?, ih]
  | loop k condition body ihc ihb =>
    simp [code, bindings, List.filterMap_cons, Instr.stored?, ihc, ihb]
  | branch k condition consequent alternative ihc iht ihe =>
    simp [code, bindings, List.filterMap_cons, Instr.stored?, ihc, iht, ihe]
  | lambda first second body ih => exact ih

lemma Node.store_mem_code_iff {node : Node} {name : String} :
    .store name ∈ node.code ↔ name ∈ node.bindings := by
  rw [← filterMap_stored?_code, List.mem_filterMap]
  simp only [Instr.stored?_eq_some_iff, exists_eq_right]

/-! ## Programs under construction -/

namespace Program

lemma fragments_inferData (program : Program) :
    program.inferData.fragments = program.fragments := rfl

/-- Inference declares all bindings of the fragments, whether or not an expression mentions a name
more than once. -/
lemma data_inferData (program : Program) :
    program.inferData.data
      = Roster.enterAll program.data (program.fragments.flatMap Node.bindings) := by
  have hfragments (roster : List String) (nodes : List Node) :
      Roster.enterAll roster (nodes.flatMap Node.boundNames)
        = Roster.enterAll roster (nodes.flatMap Node.bindings) := by
    induction nodes generalizing roster with
    | nil => rfl
    | cons node nodes ih =>
      rw [List.flatMap_cons, List.flatMap_cons, Roster.enterAll_append, Roster.enterAll_append,
        Node.boundNames, Roster.enterAll_ofList, ih]
  exact hfragments program.data program.fragments

lemma mem_data_inferData {program : Program} {name : String} :
    name ∈ program.inferData.data ↔
      name ∈ program.fragments.flatMap Node.bindings ∨ name ∈ program.data := by
  rw [data_inferData, Roster.mem_enterAll]

/-- A second inference finds everything declared. -/
lemma inferData_inferData (program : Program) :
    program.inferData.inferData = program.inferData := by
  have hdata : program.inferData.inferData.data = program.inferData.data := by
    rw [data_inferData, fragments_inferData]
    exact Roster.enterAll_of_subset fun name hname => mem_data_inferData.mpr (.inl hname)
  exact congrArg₂ Program.mk hdata rfl

/-- A call that extends a program. -/
inductive Edit where
  /-- Declare a data word. -/
  | declare (name : String)
  /-- Add a fragment. -/
  | addFragment (node : Node)
  /-- Declare the names that the fragments bind. -/
  | inferData
deriving DecidableEq, Repr

/-- The program after a call. -/
def edit (program : Program) : Edit → Program
  | .declare name => program.declare name
  | .addFragment node => program.addFragment node
  | .inferData => program.inferData

/-- The program after calls made one after another, at first without words and fragments. -/
def ofEdits (edits : List Edit) : Program := edits.foldl edit {}

/-- The names that calls mention, in order and with repetitions, if there are some fragments
already: a declaration mentions its name, and an inference mentions the bindings of all fragments
that there are then. -/
def Edit.mentions (fragments : List Node) : List Edit → List String
  | [] => []
  | declare name :: edits => name :: mentions fragments edits
  | addFragment node :: edits => mentions (fragments ++ [node]) edits
  | inferData :: edits => fragments.flatMap Node.bindings ++ mentions fragments edits

/-- Calls enter the names that they mention. -/
lemma data_foldl_edit (program : Program) (edits : List Edit) :
    (edits.foldl edit program).data
      = Roster.enterAll program.data (Edit.mentions program.fragments edits) := by
  induction edits generalizing program with
  | nil => rfl
  | cons call edits ih =>
    rw [List.foldl_cons, ih]
    cases call with
    | declare name => rfl
    | addFragment node => rfl
    | inferData =>
      rw [Edit.mentions, Roster.enterAll_append, edit, data_inferData, fragments_inferData]

lemma data_ofEdits (edits : List Edit) :
    (ofEdits edits).data = (Edit.mentions [] edits).eraseDups := by
  rw [← Roster.ofList_eq_eraseDups]
  exact data_foldl_edit {} edits

lemma data_ofEdits_nodup (edits : List Edit) : (ofEdits edits).data.Nodup := by
  rw [ofEdits, data_foldl_edit]
  exact Roster.enterAll_nodup List.nodup_nil _

/-! ## Data lines -/

lemma dataLine_injective : Function.Injective dataLine :=
  Function.LeftInverse.injective readDataLine_dataLine

/-- The line of an instruction is not the line of a data word: it does not begin with a tab, or, if
it marks a label, it ends with a colon. -/
lemma text_ne_dataLine (instr : Instr) (name : String) : instr.text ≠ dataLine name := by
  intro heq
  have hhead : instr.text.toList.head? = some '\t' := by simp [heq, dataLine]
  have hlast : instr.text.toList.getLast? = some 'D' := by
    simp [heq, dataLine, List.getLast?_cons, List.getLast?_append]
  cases instr with
  | label l => simp [Instr.text] at hlast
  | loadImmediate _ | load _ | store _ | jumpIfZero _ | jump _ => simp [Instr.text] at hhead
  | push | pop | add | sub | mul | clearExtension | div | moveRemainder | compareEq | compareGt
  | output => exact absurd hhead (by decide)

/-- The lines that every listing has. -/
def fixedLines : List String :=
  ["DATA SEGMENT", "DATA ENDS", "CODE SEGMENT", "out eax", "CODE ENDS"]

/-- Any other line stands for a data word or for an instruction. -/
lemma count_layout {line : String} (hline : line ∉ fixedLines) (data : List String)
    (code : List Instr) :
    (layout data code).count line
      = (data.map dataLine).count line + (code.map Instr.text).count line := by
  simp only [fixedLines, List.mem_cons, List.not_mem_nil, or_false, not_or, ← ne_eq] at hline
  obtain ⟨hsegment, hends, hcode, hout, hend⟩ := hline
  have htail : ["out eax", "CODE ENDS"].count line = 0 := by
    rw [List.count_cons_of_ne hout.symm, List.count_cons_of_ne hend.symm, List.count_nil]
  rw [layout_eq, List.count_cons_of_ne hsegment.symm, List.count_append,
    List.count_cons_of_ne hends.symm, List.count_cons_of_ne hcode.symm, List.count_append, htail,
    Nat.add_zero]

/-- A name has as many lines in a listing as it occurs among the data words. -/
lemma count_dataLine_layout (data : List String) (code : List Instr) (name : String) :
    (layout data code).count (dataLine name) = data.count name := by
  have hfixed : dataLine name ∉ fixedLines := by
    intro hmem
    have hhead : (dataLine name).toList.head? = some '\t' := by simp [dataLine]
    have hother : ∀ line ∈ fixedLines, line.toList.head? ≠ some '\t' := by decide
    exact hother _ hmem hhead
  have hcode : (code.map Instr.text).count (dataLine name) = 0 := by
    refine List.count_eq_zero.mpr fun hmem => ?_
    obtain ⟨instr, -, htext⟩ := List.mem_map.mp hmem
    exact text_ne_dataLine instr name htext
  rw [count_layout hfixed, hcode, List.count_map_of_injective _ _ dataLine_injective,
    Nat.add_zero]

/-- **The inferred data words agree with the stores.**  The names bound by an expression are the
names that its code stores, in the order of the code, each at its first occurrence.  The data words
after any calls are the names that the calls mention, each at its first occurrence.  So a second
inference changes nothing, and in a listing that is assembled after an inference every stored name
has exactly one data line. -/
theorem data_eq_first_mentions :
    (∀ (g : Generator) (node : Node) (code : List Instr), (g.lower node).result = .ok code →
      node.boundNames = (code.filterMap Instr.stored?).eraseDups) ∧
    (∀ edits : List Edit, (ofEdits edits).data.Nodup ∧
      (ofEdits edits).data = (Edit.mentions [] edits).eraseDups) ∧
    (∀ program : Program, program.inferData.inferData = program.inferData) ∧
    ∀ (edits : List Edit) (options : Options) (listing : Listing),
      (ofEdits edits).inferData.assemble options = .ok listing →
      ∃ code, (((ofEdits edits).inferData.generator options).lowerAll
          (ofEdits edits).fragments).result = .ok code ∧
        listing.lines = layout (ofEdits edits).inferData.data code ∧
        ∀ name, .store name ∈ code → listing.lines.count (dataLine name) = 1 := by
  refine ⟨fun g node code h => ?_, fun edits => ⟨data_ofEdits_nodup edits, data_ofEdits edits⟩,
    inferData_inferData, fun edits options listing h => ?_⟩
  · obtain ⟨-, rfl⟩ := Generator.lowerAll_eq_ok_iff.mp h
    rw [List.flatMap_singleton, Node.filterMap_stored?_code, Node.boundNames,
      Roster.ofList_eq_eraseDups]
  · obtain ⟨haccepts, hlines⟩ := assemble_eq_ok_iff.mp h
    refine ⟨_, Generator.lowerAll_eq_ok_iff_accepts.mpr ⟨haccepts, rfl⟩, hlines, ?_⟩
    intro name hstore
    obtain ⟨node, hnode, hstore⟩ := List.mem_flatMap.mp hstore
    have hmem : name ∈ (ofEdits edits).inferData.data := by
      refine mem_data_inferData.mpr (.inl (List.mem_flatMap.mpr ⟨node, hnode, ?_⟩))
      exact Node.store_mem_code_iff.mp hstore
    have hnodup : (ofEdits edits).inferData.data.Nodup := by
      rw [data_inferData]
      exact Roster.enterAll_nodup (data_ofEdits_nodup edits) _
    rw [hlines, count_dataLine_layout]
    exact List.count_eq_one_of_mem hnodup hmem

/-- Calls between two inferences: a name is declared before it is bound, another is bound twice in
one expression, and a loop binds a name that was declared in between. -/
def Edit.interleaved : List Edit :=
  [.declare "c",
   .addFragment (.bind "total" (.binary .add (.bind "a" (.number 1))
     (.bind "c" (.bind "a" (.number 3))))),
   .inferData, .declare "b",
   .addFragment (.loop 0 (.var "b") (.bind "d" (.bind "b" (.number 0))))]

theorem data_interleaved :
    ∃ listing, (ofEdits Edit.interleaved).inferData.assemble { strict := true } = .ok listing ∧
      (ofEdits (Edit.interleaved ++ [.inferData])).data = ["c", "a", "total", "b", "d"] ∧
      (∀ name ∈ ["a", "b", "c", "d", "total"], listing.lines.count (dataLine name) = 1) ∧
      Node.boundNames (.bind "c" (.bind "a" (.bind "c" (.number 3)))) = ["c", "a"] := by
  obtain ⟨hbound, hdata, -, hcount⟩ := data_eq_first_mentions
  have hok : (ofEdits Edit.interleaved).inferData.assemble { strict := true } = .ok _ := rfl
  obtain ⟨code, hcode, -, hone⟩ := hcount Edit.interleaved { strict := true } _ hok
  obtain ⟨-, rfl⟩ := Generator.lowerAll_eq_ok_iff.mp hcode
  refine ⟨_, hok, (hdata _).2.trans (by decide), fun name hname => hone name ?_, ?_⟩
  · revert name
    decide
  · have hlower : (Generator.initial.lower (.bind "c" (.bind "a" (.bind "c" (.number 3))))).result
        = .ok [.loadImmediate 3, .store "c", .store "a", .store "c"] := rfl
    exact (hbound _ _ _ hlower).trans (by decide)

end Program

end Accumulator
