/-
Assembling a program, fragment by fragment.

A program is assembled by lowering all its fragments into one output, so the labels that one
fragment has claimed are taken for the next.  What this amounts to can be said without the
common output: every fragment must be accepted when it is lowered alone, and no two fragments
may share the index of a loop or of a conditional.  The code of a fragment does not depend on
the other fragments, so the code segment is the code of the fragments put one after another,
and rearranging the fragments rearranges these blocks.

* `Generator.Accepts` says which expressions can be lowered into one output, and
  `lowerAll_eq_ok_iff_accepts` that the result is then their code;
* `Generator.accepts_iff_apart` splits this into a condition on every expression and a
  condition on every pair;
* `Program.assemble_eq_ok_iff` and `Program.assemble_eq_error_iff` reduce assembling to lowering.
-/
import Accumulator.Program
import Accumulator.Proofs.FirstFault

namespace Accumulator

lemma except_map_eq_ok_iff {α β : Type} {f : α → β} {result : Except Error α} {b : β} :
    result.map f = .ok b ↔ ∃ a, result = .ok a ∧ f a = b := by
  cases result <;> simp [Except.map]

/-! ## Expressions that can be lowered into one output -/

namespace Generator

/-- The generator can lower the expressions into one output. -/
structure Accepts (g : Generator) (nodes : List Node) : Prop where
  /-- In strict mode every name that is used is admitted. -/
  names : ∀ node ∈ nodes, ∀ n, Check.name n ∈ node.checks →
    g.options.strict = true → n ∈ g.symbols
  /-- Different loops have different indices. -/
  loops : (nodes.flatMap Node.loopIndices).Nodup
  /-- Different conditionals have different indices. -/
  branches : (nodes.flatMap Node.branchIndices).Nodup

variable {g : Generator} {nodes : List Node} {node : Node}

lemma firstFailing?_eq_none_iff_accepts :
    Check.firstFailing? g [] (nodes.flatMap Node.checks) = none ↔ g.Accepts nodes := by
  rw [Check.firstFailing?_eq_none_iff, Check.texts_flatMap_checks,
    List.nodup_map_iff fun l l' => Label.text_injective, Node.labels_nodup_iff]
  constructor
  · rintro ⟨hnames, ⟨hloops, hbranches⟩, -⟩
    refine ⟨fun node hnode n hn => hnames n ?_, hloops, hbranches⟩
    exact List.mem_flatMap.mpr ⟨node, hnode, hn⟩
  · rintro ⟨hnames, hloops, hbranches⟩
    refine ⟨fun n hn => ?_, ⟨hloops, hbranches⟩, fun _ _ => List.not_mem_nil⟩
    obtain ⟨node, hnode, hn⟩ := List.mem_flatMap.mp hn
    exact hnames node hnode n hn

/-- Lowering succeeds for the expressions that are accepted, and gives their code. -/
lemma lowerAll_eq_ok_iff_accepts {code : List Instr} :
    (g.lowerAll nodes).result = .ok code ↔ g.Accepts nodes ∧ code = nodes.flatMap Node.code := by
  rw [lowerAll_eq_ok_iff, firstFailing?_eq_none_iff_accepts]

/-- Generating lines succeeds for an expression that is accepted, and gives the lines of its
code. -/
lemma generate_eq_ok_iff {lines : List String} :
    (g.generate node).result = .ok lines ↔
      g.Accepts [node] ∧ lines = node.code.map Instr.text := by
  have hmap : (g.generate node).result
      = (g.lowerAll [node]).result.map (List.map Instr.text) := rfl
  rw [hmap, except_map_eq_ok_iff]
  simp only [lowerAll_eq_ok_iff_accepts, List.flatMap_singleton]
  constructor
  · rintro ⟨code, ⟨haccepts, rfl⟩, rfl⟩
    exact ⟨haccepts, rfl⟩
  · rintro ⟨haccepts, rfl⟩
    exact ⟨node.code, ⟨haccepts, rfl⟩, rfl⟩

end Generator

/-- Two expressions share neither the index of a loop nor the index of a conditional. -/
structure Node.Apart (a b : Node) : Prop where
  /-- No loop of the one has the index of a loop of the other. -/
  loops : a.loopIndices.Disjoint b.loopIndices
  /-- No conditional of the one has the index of a conditional of the other. -/
  branches : a.branchIndices.Disjoint b.branchIndices

/-- Expressions are accepted together if each is accepted alone and any two are apart. -/
lemma Generator.accepts_iff_apart {g : Generator} {nodes : List Node} :
    g.Accepts nodes ↔ (∀ node ∈ nodes, g.Accepts [node]) ∧ nodes.Pairwise Node.Apart := by
  constructor
  · rintro ⟨hnames, hloops, hbranches⟩
    obtain ⟨hloop, hloops⟩ := List.nodup_flatMap.mp hloops
    obtain ⟨hbranch, hbranches⟩ := List.nodup_flatMap.mp hbranches
    refine ⟨fun node hnode => ⟨?_, ?_, ?_⟩, ?_⟩
    · rintro a ha
      obtain rfl := List.mem_singleton.mp ha
      exact hnames a hnode
    · simpa using hloop node hnode
    · simpa using hbranch node hnode
    · exact (hloops.and hbranches).imp fun h => ⟨h.1, h.2⟩
  · rintro ⟨halone, hapart⟩
    refine ⟨fun node hnode => (halone node hnode).names node (by simp), ?_, ?_⟩
    · refine List.nodup_flatMap.mpr ⟨fun node hnode => ?_, hapart.imp Node.Apart.loops⟩
      simpa using (halone node hnode).loops
    · refine List.nodup_flatMap.mpr ⟨fun node hnode => ?_, hapart.imp Node.Apart.branches⟩
      simpa using (halone node hnode).branches

/-- Whether expressions are accepted does not depend on their order. -/
lemma Generator.Accepts.perm {g : Generator} {nodes order : List Node} (h : g.Accepts nodes)
    (hperm : order.Perm nodes) : g.Accepts order where
  names node hnode := h.names node (hperm.mem_iff.mp hnode)
  loops := (hperm.flatMap_right Node.loopIndices).nodup_iff.mpr h.loops
  branches := (hperm.flatMap_right Node.branchIndices).nodup_iff.mpr h.branches

/-! ## Programs -/

namespace Program

variable {program : Program} {options : Options}

lemma options_generator (program : Program) (options : Options) :
    (program.generator options).options = options := by
  have hdeclare (g : Generator) (names : List String) :
      (g.declareAll names).options = g.options := by
    induction names generalizing g with
    | nil => rfl
    | cons name names ih => exact ih (g.declare name)
  exact hdeclare (.ofOptions options) program.data

/-- The data words and the allowed names are admitted. -/
lemma mem_symbols_generator {name : String} :
    name ∈ (program.generator options).symbols ↔
      name ∈ program.data ∨ name ∈ options.symbols :=
  Generator.mem_symbols_declareAll

/-- Assembling lowers the fragments and lays the code out. -/
lemma assemble_eq_map (program : Program) (options : Options) :
    program.assemble options =
      ((program.generator options).lowerAll program.fragments).result.map fun code =>
        ⟨layout program.data code⟩ := by
  simp only [assemble, assembly]
  cases ((program.generator options).lowerAll program.fragments).result <;> rfl

/-- A program that can be assembled gives the layout of its data and of the code of its
fragments. -/
lemma assemble_eq_ok_iff {listing : Listing} :
    program.assemble options = .ok listing ↔
      (program.generator options).Accepts program.fragments ∧
        listing.lines = layout program.data (program.fragments.flatMap Node.code) := by
  rw [assemble_eq_map, except_map_eq_ok_iff]
  simp only [Generator.lowerAll_eq_ok_iff_accepts]
  constructor
  · rintro ⟨code, ⟨haccepts, rfl⟩, rfl⟩
    exact ⟨haccepts, rfl⟩
  · rintro ⟨haccepts, hlines⟩
    exact ⟨_, ⟨haccepts, rfl⟩, by rw [← hlines]⟩

/-- A program can be assembled if its fragments are accepted. -/
lemma exists_assemble_eq_ok_iff :
    (∃ listing, program.assemble options = .ok listing) ↔
      (program.generator options).Accepts program.fragments := by
  constructor
  · rintro ⟨listing, h⟩
    exact (assemble_eq_ok_iff.mp h).1
  · intro h
    exact ⟨⟨layout program.data (program.fragments.flatMap Node.code)⟩,
      assemble_eq_ok_iff.mpr ⟨h, rfl⟩⟩

/-- A program fails to be assembled with the fault of lowering its fragments. -/
lemma assemble_eq_error_iff {e : Error} :
    program.assemble options = .error e ↔
      ((program.generator options).lowerAll program.fragments).result = .error e := by
  rw [assemble_eq_map]
  cases ((program.generator options).lowerAll program.fragments).result <;> simp [Except.map]

/-- The lines of a listing with given data words and given blocks of code. -/
def frame (data : List String) (blocks : List (List String)) : List String :=
  ["DATA SEGMENT"] ++ data.map (fun name => "\t" ++ name ++ " DD") ++ ["DATA ENDS"]
    ++ ["CODE SEGMENT"] ++ blocks.flatten ++ ["out eax", "CODE ENDS"]

lemma layout_flatMap_code (data : List String) (nodes : List Node) :
    layout data (nodes.flatMap Node.code)
      = frame data (nodes.map fun node => node.code.map Instr.text) := by
  simp [layout, dataLine, frame, Instr.text, List.flatMap_def, Function.comp_def]

/-- **Assembling is generation fragment by fragment.**  A program can be assembled if and only
if the generator that admits its data words accepts every fragment alone, and no two fragments
share the index of a loop or of a conditional.  The listing then holds, between the fixed lines,
one line for each data word and the lines that the fragments give alone, block by block; and
rearranging the fragments keeps success and rearranges the blocks. -/
theorem assemble_fragmentwise (program : Program) (options : Options) :
    ((∃ listing, program.assemble options = .ok listing) ↔
      (∀ node ∈ program.fragments, ∃ lines,
        ((program.generator options).generate node).result = .ok lines) ∧
      program.fragments.Pairwise Node.Apart) ∧
    (∀ listing, program.assemble options = .ok listing →
      ∃ block : Node → List String,
        (∀ node ∈ program.fragments,
          ((program.generator options).generate node).result = .ok (block node)) ∧
        listing.lines = frame program.data (program.fragments.map block) ∧
        ∀ order, order.Perm program.fragments →
          Program.assemble { program with fragments := order } options
            = .ok ⟨frame program.data (order.map block)⟩) ∧
    ∀ order, order.Perm program.fragments →
      ((∃ listing, Program.assemble { program with fragments := order } options = .ok listing) ↔
        ∃ listing, program.assemble options = .ok listing) := by
  refine ⟨?_, fun listing h => ?_, fun order hperm => ?_⟩
  · rw [exists_assemble_eq_ok_iff, Generator.accepts_iff_apart]
    simp only [Generator.generate_eq_ok_iff, exists_and_left, exists_eq, and_true]
  · obtain ⟨haccepts, hlines⟩ := assemble_eq_ok_iff.mp h
    refine ⟨fun node => node.code.map Instr.text, fun node hnode => ?_, ?_, fun order hperm => ?_⟩
    · refine Generator.generate_eq_ok_iff.mpr ⟨?_, rfl⟩
      exact (Generator.accepts_iff_apart.mp haccepts).1 node hnode
    · rw [hlines, layout_flatMap_code]
    · refine assemble_eq_ok_iff.mpr ⟨haccepts.perm hperm, ?_⟩
      exact (layout_flatMap_code program.data order).symm
  · rw [exists_assemble_eq_ok_iff, exists_assemble_eq_ok_iff]
    exact ⟨fun h => h.perm hperm.symm, fun h => h.perm hperm⟩

/-- A loop and a conditional that contains a loop, which store their values in two data words. -/
def loopThenBranch : Program where
  data := ["x", "y"]
  fragments :=
    [.bind "x" (.loop 0 (.var "x") (.number 0)),
     .bind "y" (.branch 0 (.var "y") (.loop 1 (.var "x") (.number 0)) (.number 2))]

theorem assemble_loopThenBranch :
    ∃ listing block, loopThenBranch.assemble { strict := true } = .ok listing ∧
      listing.lines = frame ["x", "y"] (loopThenBranch.fragments.map block) ∧
      Program.assemble { loopThenBranch with fragments := loopThenBranch.fragments.reverse }
          { strict := true }
        = .ok ⟨frame ["x", "y"] (loopThenBranch.fragments.reverse.map block)⟩ := by
  obtain ⟨-, hlines, -⟩ := assemble_fragmentwise loopThenBranch { strict := true }
  have hok : loopThenBranch.assemble { strict := true }
      = .ok ⟨layout ["x", "y"] (loopThenBranch.fragments.flatMap Node.code)⟩ := rfl
  obtain ⟨block, -, hframe, hperm⟩ := hlines _ hok
  exact ⟨_, block, hok, hframe, hperm _ (List.reverse_perm _)⟩

end Program

end Accumulator
