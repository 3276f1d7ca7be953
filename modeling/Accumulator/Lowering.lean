/-
Lowering an expression, as a script of steps.

Lowering an expression checks names, claims labels, reports events and emits instructions, in
an order that decides which of several faults is met first.  `Node.script` is that order,
written as a list of steps; the generator of `Accumulator.Generator` performs it, and stops at
the first step that fails.

Beside the script stand its two projections, each as a table of its own:

* `Node.code`, the instructions of an expression:

  | expression            | instructions                                               |
  |-----------------------|------------------------------------------------------------|
  | number                | load immediate                                             |
  | name                  | load                                                       |
  | left op right         | left, push, right, pop, tail of op                         |
  | name := value         | value, store                                               |
  | loop                  | start:, condition, jz end, body, jmp start, end:           |
  | conditional           | condition, jz else, first, jmp end, else:, second, end:    |
  | lambda                | its body                                                   |

* `Node.checks`, the names that it uses and the labels that it claims.

The theorems `emitted_script` and `checked_script` say that the script contains exactly these
instructions and exactly these checks, in this order.
-/
import Accumulator.Event
import Accumulator.Node

namespace Accumulator

/-- A step that can fail: a name is used, or a label is claimed. -/
inductive Check where
  | name (name : String)
  | label (label : Label)
deriving DecidableEq, Repr

/-- One step of lowering. -/
inductive Step where
  | check (check : Check)
  | note (event : Event)
  | emit (instr : Instr)
deriving DecidableEq, Repr

namespace Step

/-- The instructions that are emitted by a list of steps. -/
def emitted (steps : List Step) : List Instr :=
  steps.filterMap fun
    | emit instr => some instr
    | _ => none

/-- The checks that are made by a list of steps. -/
def checked (steps : List Step) : List Check :=
  steps.filterMap fun
    | check c => some c
    | _ => none

end Step

namespace Node

/-- The steps of lowering an expression, in order.  The target of a binding is checked before
its value, and the two labels of a loop or a conditional are claimed before any of its
parts. -/
def script : Node → List Step
  | number value => [.emit (.loadImmediate value)]
  | var name => [.check (.name name), .emit (.load name)]
  | binary op left right =>
    .note (.binary op) ::
      (left.script ++ .emit .push :: (right.script ++ .emit .pop :: op.tail.map Step.emit))
  | bind name value => .check (.name name) :: (value.script ++ [.emit (.store name)])
  | loop k condition body =>
    .check (.label (.loopStart k)) :: .check (.label (.loopEnd k)) :: .note (.loop k) ::
      .emit (.label (Label.loopStart k).text) ::
      (condition.script ++ .emit (.jumpIfZero (Label.loopEnd k).text) ::
        (body.script ++
          [.emit (.jump (Label.loopStart k).text), .emit (.label (Label.loopEnd k).text)]))
  | branch k condition consequent alternative =>
    .check (.label (.branchElse k)) :: .check (.label (.branchEnd k)) :: .note (.branch k) ::
      (condition.script ++ .emit (.jumpIfZero (Label.branchElse k).text) ::
        (consequent.script ++ .emit (.jump (Label.branchEnd k).text) ::
          .emit (.label (Label.branchElse k).text) ::
          (alternative.script ++ [.emit (.label (Label.branchEnd k).text)])))
  | lambda first second body => .note (.lambda first second) :: body.script

/-- The instructions of an expression. -/
def code : Node → List Instr
  | number value => [.loadImmediate value]
  | var name => [.load name]
  | binary op left right => left.code ++ [.push] ++ right.code ++ [.pop] ++ op.tail
  | bind name value => value.code ++ [.store name]
  | loop k condition body =>
    [.label (Label.loopStart k).text] ++ condition.code
      ++ [.jumpIfZero (Label.loopEnd k).text] ++ body.code
      ++ [.jump (Label.loopStart k).text, .label (Label.loopEnd k).text]
  | branch k condition consequent alternative =>
    condition.code ++ [.jumpIfZero (Label.branchElse k).text] ++ consequent.code
      ++ [.jump (Label.branchEnd k).text, .label (Label.branchElse k).text]
      ++ alternative.code ++ [.label (Label.branchEnd k).text]
  | lambda _ _ body => body.code

/-- The checks of an expression, in the order in which they are made. -/
def checks : Node → List Check
  | number _ => []
  | var name => [.name name]
  | binary _ left right => left.checks ++ right.checks
  | bind name value => .name name :: value.checks
  | loop k condition body =>
    .label (.loopStart k) :: .label (.loopEnd k) :: (condition.checks ++ body.checks)
  | branch k condition consequent alternative =>
    .label (.branchElse k) :: .label (.branchEnd k) ::
      (condition.checks ++ consequent.checks ++ alternative.checks)
  | lambda _ _ body => body.checks

/-- The labels of an expression, in the order in which they are claimed. -/
def labels (node : Node) : List Label :=
  node.checks.filterMap fun
    | .label l => some l
    | .name _ => none

end Node

/-! ## The script contains the code and the checks -/

namespace Step

@[simp] theorem emitted_append (xs ys : List Step) :
    emitted (xs ++ ys) = emitted xs ++ emitted ys :=
  List.filterMap_append

@[simp] theorem checked_append (xs ys : List Step) :
    checked (xs ++ ys) = checked xs ++ checked ys :=
  List.filterMap_append

@[simp] theorem emitted_nil : emitted [] = [] := rfl

@[simp] theorem emitted_emit (instr : Instr) (steps : List Step) :
    emitted (emit instr :: steps) = instr :: emitted steps := rfl

@[simp] theorem emitted_check (c : Check) (steps : List Step) :
    emitted (check c :: steps) = emitted steps := rfl

@[simp] theorem emitted_note (event : Event) (steps : List Step) :
    emitted (note event :: steps) = emitted steps := rfl

@[simp] theorem emitted_map_emit (code : List Instr) : emitted (code.map emit) = code := by
  induction code with
  | nil => rfl
  | cons instr code ih => simp [ih]

@[simp] theorem checked_nil : checked [] = [] := rfl

@[simp] theorem checked_emit (instr : Instr) (steps : List Step) :
    checked (emit instr :: steps) = checked steps := rfl

@[simp] theorem checked_check (c : Check) (steps : List Step) :
    checked (check c :: steps) = c :: checked steps := rfl

@[simp] theorem checked_note (event : Event) (steps : List Step) :
    checked (note event :: steps) = checked steps := rfl

@[simp] theorem checked_map_emit (code : List Instr) : checked (code.map emit) = [] := by
  induction code with
  | nil => rfl
  | cons instr code ih => simp [ih]

end Step

namespace Node

/-- The script of an expression emits its code. -/
@[simp] theorem emitted_script (node : Node) : Step.emitted node.script = node.code := by
  induction node with
  | number | var => rfl
  | binary op left right ihl ihr => simp [script, code, ihl, ihr]
  | bind name value ih => simp [script, code, ih]
  | loop k condition body ihc ihb => simp [script, code, ihc, ihb]
  | branch k condition consequent alternative ihc iht ihe => simp [script, code, ihc, iht, ihe]
  | lambda first second body ih => simp [script, code, ih]

/-- The script of an expression makes its checks. -/
@[simp] theorem checked_script (node : Node) : Step.checked node.script = node.checks := by
  induction node with
  | number | var => rfl
  | binary op left right ihl ihr => simp [script, checks, ihl, ihr]
  | bind name value ih => simp [script, checks, ih]
  | loop k condition body ihc ihb => simp [script, checks, ihc, ihb]
  | branch k condition consequent alternative ihc iht ihe =>
    simp [script, checks, ihc, iht, ihe]
  | lambda first second body ih => simp [script, checks, ih]

end Node

end Accumulator
