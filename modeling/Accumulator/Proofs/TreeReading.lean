/-
Reading expressions off their code.

The code of an expression shows all of the expression but its lambdas: they have no instruction
of their own.  The rest is found by reading the code from left to right with a stack, whose items
are expressions that have been read and instructions that wait for the rest of theirs.  The last
instruction of an operator, of a binding, of a loop or of a conditional finds its parts on top of
the stack, separated by the waiting instructions, and replaces them by the whole.

So the code of an expression puts just that expression on the stack, whatever is below
(`Node.foldl_shift_code`), and code needs no marks between one expression and the next: the stack
holds all of them in the end (`Instr.trees_flatMap_code`).  Unlike the text of a listing, code tells
a number from a name that looks like one, so nothing is asked of the names
(`Generator.lowered_eq_iff_unwrap_eq`).
-/
import Accumulator.Proofs.FirstFault
import Accumulator.Proofs.LineReading

namespace Accumulator

/-! ## Expressions without lambdas -/

namespace Node

/-- The expression in which every lambda is replaced by its body. -/
def unwrap : Node → Node
  | number value => number value
  | var name => var name
  | binary op left right => binary op left.unwrap right.unwrap
  | bind name value => bind name value.unwrap
  | loop k condition body => loop k condition.unwrap body.unwrap
  | branch k condition consequent alternative =>
    branch k condition.unwrap consequent.unwrap alternative.unwrap
  | lambda _ _ body => body.unwrap

/-- Lambdas have no code. -/
@[simp] lemma code_unwrap (node : Node) : node.unwrap.code = node.code := by
  induction node with
  | number | var => rfl
  | binary op left right ihl ihr => simp only [unwrap, code, ihl, ihr]
  | bind name value ih => simp only [unwrap, code, ih]
  | loop k condition body ihc ihb => simp only [unwrap, code, ihc, ihb]
  | branch k condition consequent alternative ihc iht ihe =>
    simp only [unwrap, code, ihc, iht, ihe]
  | lambda first second body ih => exact ih

end Node

/-! ## Reading -/

/-- An item of the stack of a reader. -/
inductive Item where
  /-- An expression that has been read. -/
  | tree (node : Node)
  /-- An instruction whose expression has not been read to its end. -/
  | mark (instr : Instr)
deriving DecidableEq, Repr

/-- The expression of an item, if it is one. -/
def Item.tree? : Item → Option Node
  | tree node => some node
  | mark _ => none

namespace Instr

/-- Apply an operator to the two operands on the stack. -/
def reduce (op : Operator) : List Item → List Item
  | .mark .pop :: .tree right :: .mark .push :: .tree left :: stack =>
    .tree (.binary op left right) :: stack
  | stack => stack

/-- Put a label with a given text on the stack; the label at the end of a loop or of a conditional
completes it. -/
def place (text : String) : Option Label → List Item → List Item
  | some ⟨.loopEnd, k⟩,
      .mark (.jump _) :: .tree body :: .mark (.jumpIfZero _) :: .tree condition ::
        .mark (.label _) :: stack =>
    .tree (.loop k condition body) :: stack
  | some ⟨.branchEnd, k⟩,
      .tree alternative :: .mark (.label _) :: .mark (.jump _) :: .tree consequent ::
        .mark (.jumpIfZero _) :: .tree condition :: stack =>
    .tree (.branch k condition consequent alternative) :: stack
  | _, stack => .mark (.label text) :: stack

/-- Read one instruction.  A division is taken for a quotient until its remainder is moved. -/
def shift (stack : List Item) : Instr → List Item
  | loadImmediate value => .tree (.number value) :: stack
  | load name => .tree (.var name) :: stack
  | store name =>
    match stack with
    | .tree value :: stack => .tree (.bind name value) :: stack
    | stack => stack
  | add => reduce .add stack
  | sub => reduce .sub stack
  | mul => reduce .mul stack
  | clearExtension => stack
  | div => reduce .div stack
  | moveRemainder =>
    match stack with
    | .tree (.binary .div left right) :: stack => .tree (.binary .mod left right) :: stack
    | stack => stack
  | compareEq => reduce .eq stack
  | compareGt => reduce .gt stack
  | label text => place text (Label.ofText? text) stack
  | instr => .mark instr :: stack

/-- The expressions read off code. -/
def trees (code : List Instr) : List Node :=
  ((code.foldl shift []).filterMap Item.tree?).reverse

/-- The instructions of an operator apply it to the operands on the stack. -/
lemma foldl_shift_tail (op : Operator) (left right : Node) (stack : List Item) :
    op.tail.foldl shift (.mark .pop :: .tree right :: .mark .push :: .tree left :: stack)
      = .tree (.binary op left right) :: stack := by
  cases op <;> rfl

/-- A label is placed as what its text says. -/
lemma shift_label (l : Label) (stack : List Item) :
    shift stack (.label l.text) = place l.text (some l) stack := by
  show place l.text (Label.ofText? l.text) stack = _
  rw [Label.ofText?_text]

end Instr

/-- Reading the code of an expression puts the expression on the stack, without its lambdas. -/
lemma Node.foldl_shift_code (node : Node) (stack : List Item) :
    node.code.foldl Instr.shift stack = .tree node.unwrap :: stack := by
  induction node generalizing stack with
  | number | var => rfl
  | binary op left right ihl ihr =>
    simp only [code, List.foldl_append, ihl, ihr, List.foldl_cons, List.foldl_nil]
    -- the operands are on the stack, each below the instruction that follows it
    exact Instr.foldl_shift_tail op left.unwrap right.unwrap stack
  | bind name value ih =>
    rw [code, List.foldl_append, ih]
    rfl
  | loop k condition body ihc ihb =>
    simp only [code, List.foldl_append, List.foldl_cons, List.foldl_nil, Instr.shift_label,
      ihc, ihb]
    rfl
  | branch k condition consequent alternative ihc iht ihe =>
    simp only [code, List.foldl_append, List.foldl_cons, List.foldl_nil, Instr.shift_label,
      ihc, iht, ihe]
    rfl
  | lambda first second body ih => exact ih stack

namespace Instr

/-- Reading the code of expressions puts them on the stack in order, the last on top. -/
lemma foldl_shift_flatMap_code (nodes : List Node) (stack : List Item) :
    (nodes.flatMap Node.code).foldl shift stack
      = (nodes.map fun node => Item.tree node.unwrap).reverse ++ stack := by
  induction nodes generalizing stack with
  | nil => rfl
  | cons node nodes ih =>
    rw [List.flatMap_cons, List.foldl_append, node.foldl_shift_code, ih, List.map_cons,
      List.reverse_cons, List.append_assoc, List.singleton_append]

/-- The expressions are read off their code, without their lambdas. -/
lemma trees_flatMap_code (nodes : List Node) :
    trees (nodes.flatMap Node.code) = nodes.map Node.unwrap := by
  rw [trees, foldl_shift_flatMap_code, List.append_nil, ← List.filterMap_reverse,
    List.reverse_reverse, List.filterMap_map]
  exact congrFun List.filterMap_eq_map nodes

end Instr

/-- Expressions have the same code if and only if they are the same without their lambdas. -/
lemma Node.flatMap_code_inj {nodes nodes' : List Node} :
    nodes.flatMap code = nodes'.flatMap code ↔ nodes.map unwrap = nodes'.map unwrap := by
  constructor
  · intro h
    rw [← Instr.trees_flatMap_code, h, Instr.trees_flatMap_code]
  · intro h
    have hcode (nodes : List Node) : nodes.flatMap code = (nodes.map unwrap).flatMap code := by
      simp [List.flatMap_map]
    rw [hcode nodes, h, ← hcode nodes']

/-! ## Output of generators -/

namespace Generator

/-- **Lowering loses nothing but lambdas.**  Two lists of expressions, each lowered by a generator
that accepts it, give the same code if and only if the lists are the same after every lambda, at
every depth, is replaced by its body. -/
theorem lowered_eq_iff_unwrap_eq {g g' : Generator} {nodes nodes' : List Node}
    {code code' : List Instr} (h : (g.lowerAll nodes).result = .ok code)
    (h' : (g'.lowerAll nodes').result = .ok code') :
    code = code' ↔ nodes.map Node.unwrap = nodes'.map Node.unwrap := by
  obtain ⟨-, rfl⟩ := lowerAll_eq_ok_iff.mp h
  obtain ⟨-, rfl⟩ := lowerAll_eq_ok_iff.mp h'
  exact Node.flatMap_code_inj

/-- A loop less a right operand. -/
def loopLess (right : Node) : Node := .binary .sub (.loop 7 (.var "n") (.number 0)) right

theorem lowered_loopLess :
    ∃ first second third,
      ((ofOptions { strict := true, symbols := .ofList ["n", "5"] }).lowerAll
        [.lambda "p" "q" (loopLess (.var "5"))]).result = .ok first ∧
      (initial.lowerAll [loopLess (.lambda "r" "r" (.var "5"))]).result = .ok second ∧
      (initial.lowerAll [loopLess (.number 5)]).result = .ok third ∧
      first = second ∧ first ≠ third ∧ first.map Instr.text = third.map Instr.text := by
  have hfirst : ((ofOptions { strict := true, symbols := .ofList ["n", "5"] }).lowerAll
      [.lambda "p" "q" (loopLess (.var "5"))]).result = .ok (loopLess (.var "5")).code := rfl
  have hsecond : (initial.lowerAll [loopLess (.lambda "r" "r" (.var "5"))]).result
      = .ok (loopLess (.var "5")).code := rfl
  have hthird : (initial.lowerAll [loopLess (.number 5)]).result
      = .ok (loopLess (.number 5)).code := rfl
  refine ⟨_, _, _, hfirst, hsecond, hthird, ?_, fun heq => ?_, rfl⟩
  · exact (lowered_eq_iff_unwrap_eq hfirst hsecond).mpr rfl
  · exact absurd ((lowered_eq_iff_unwrap_eq hfirst hthird).mp heq) (by decide)

end Generator

end Accumulator
