/-
Evaluation of expressions.

An expression is evaluated in a memory and gives a number and a memory; all numbers are exact
integers.  Operands are evaluated from left to right.  A division or a remainder by zero has no
value, so the expression around it has none, and neither has a loop that does not end.
-/
import Accumulator.Machine
import Accumulator.Node

namespace Accumulator

/-- The value of an operator, if it has one. -/
def Operator.apply : Operator → Int → Int → Option Int
  | add, x, y => some (x + y)
  | sub, x, y => some (x - y)
  | mul, x, y => some (x * y)
  | div, x, y => if y = 0 then none else some (x.tdiv y)
  | mod, x, y => if y = 0 then none else some (x.tmod y)
  | eq, x, y => some (if x = y then 1 else 0)
  | gt, x, y => some (if x > y then 1 else 0)

/-- `Evaluates m e v m'`: in the memory `m` the expression `e` has the value `v` and leaves the
memory `m'`. -/
inductive Evaluates : Memory → Node → Int → Memory → Prop where
  | number (m : Memory) (value : Int64) : Evaluates m (.number value) value.toInt m
  | var (m : Memory) (name : String) : Evaluates m (.var name) (m name) m
  | binary {op : Operator} {left right : Node} {m m₁ m₂ : Memory} {x y v : Int} :
      Evaluates m left x m₁ → Evaluates m₁ right y m₂ → op.apply x y = some v →
      Evaluates m (.binary op left right) v m₂
  | bind {name : String} {value : Node} {m m₁ : Memory} {v : Int} :
      Evaluates m value v m₁ → Evaluates m (.bind name value) v (m₁.set name v)
  -- a loop has the value zero, which is that of its last condition
  | loopEnd {k : UInt64} {condition body : Node} {m m₁ : Memory} :
      Evaluates m condition 0 m₁ → Evaluates m (.loop k condition body) 0 m₁
  | loopNext {k : UInt64} {condition body : Node} {m m₁ m₂ m₃ : Memory} {c x v : Int} :
      Evaluates m condition c m₁ → c ≠ 0 → Evaluates m₁ body x m₂ →
      Evaluates m₂ (.loop k condition body) v m₃ →
      Evaluates m (.loop k condition body) v m₃
  | branchThen {k : UInt64} {condition consequent alternative : Node} {m m₁ m₂ : Memory}
      {c v : Int} :
      Evaluates m condition c m₁ → c ≠ 0 → Evaluates m₁ consequent v m₂ →
      Evaluates m (.branch k condition consequent alternative) v m₂
  | branchElse {k : UInt64} {condition consequent alternative : Node} {m m₁ m₂ : Memory}
      {v : Int} :
      Evaluates m condition 0 m₁ → Evaluates m₁ alternative v m₂ →
      Evaluates m (.branch k condition consequent alternative) v m₂
  | lambda {first second : String} {body : Node} {m m₁ : Memory} {v : Int} :
      Evaluates m body v m₁ → Evaluates m (.lambda first second body) v m₁

/-- `EvaluatesAll m u es v m'`: the expressions `es`, evaluated one after another from the memory
`m`, leave the memory `m'`, and `v` is the last value; without expressions it is `u`. -/
inductive EvaluatesAll : Memory → Int → List Node → Int → Memory → Prop where
  | nil (m : Memory) (u : Int) : EvaluatesAll m u [] u m
  | cons {node : Node} {nodes : List Node} {m m₁ m₂ : Memory} {u x v : Int} :
      Evaluates m node x m₁ → EvaluatesAll m₁ x nodes v m₂ →
      EvaluatesAll m u (node :: nodes) v m₂

end Accumulator
