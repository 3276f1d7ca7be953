/-
Expression trees.

Every expression has a value: a binding has the value that it stores, a loop has the value
zero, and a lambda has the value of its body, its parameters being a comment only.  Loops and
conditionals carry the index of their labels; the functions `drawLoop` and `drawBranch` draw
it from an allocator when the node is made, that is, after its parts have been made.
-/
import Accumulator.Label
import Accumulator.Operator
import Accumulator.Roster

namespace Accumulator

/-- An expression.  A loop repeats its body until the condition is zero, and a conditional takes
its first branch unless the condition is zero. -/
inductive Node where
  | number (value : Int64)
  | var (name : String)
  | binary (op : Operator) (left right : Node)
  | bind (name : String) (value : Node)
  | loop (index : UInt64) (condition body : Node)
  | branch (index : UInt64) (condition consequent alternative : Node)
  | lambda (first second : String) (body : Node)
deriving DecidableEq, Repr, Inhabited

namespace Node

/-! ## Nodes with a drawn index -/

/-- A loop whose index is drawn from an allocator. -/
def drawLoop (labels : Allocator) (condition body : Node) : Node × Allocator :=
  let (index, rest) := labels.drawLoop
  (loop index condition body, rest)

/-- A conditional whose index is drawn from an allocator. -/
def drawBranch (labels : Allocator) (condition consequent alternative : Node) :
    Node × Allocator :=
  let (index, rest) := labels.drawBranch
  (branch index condition consequent alternative, rest)

/-! ## Bound names -/

/-- The names bound by an expression, in the order in which the bindings are evaluated, with
repetitions. -/
def bindings : Node → List String
  | number _ => []
  | var _ => []
  | binary _ left right => left.bindings ++ right.bindings
  | bind name value => value.bindings ++ [name]
  | loop _ condition body => condition.bindings ++ body.bindings
  | branch _ condition consequent alternative =>
    condition.bindings ++ consequent.bindings ++ alternative.bindings
  | lambda _ _ body => body.bindings

/-- The names bound by an expression, each at its first place in evaluation order. -/
def boundNames (node : Node) : List String :=
  Roster.ofList node.bindings

end Node

end Accumulator
