/-
Binary operators and faults.

An operator has a symbol, and instructions that compute it.  A text that is the symbol of no
operator is one of the faults of code generation, which are collected here with their wording.
-/
import Accumulator.Instr

namespace Accumulator

/-- A fault of code generation or of writing a listing. -/
inductive Error where
  | unsupportedOperator (symbol : String)
  | undefinedVariable (name : String)
  | duplicateLabel (label : String)
  | io (text : String)
deriving DecidableEq, Repr

/-- The wording of a fault. -/
def Error.message : Error → String
  | unsupportedOperator symbol => "Unsupported operator: '" ++ symbol ++ "'"
  | undefinedVariable name => "Undefined variable: '" ++ name ++ "'"
  | duplicateLabel label => "Duplicate label: '" ++ label ++ "'"
  | io text => "IO error: " ++ text

/-- A binary operator of the expression language. -/
inductive Operator where
  | add
  | sub
  | mul
  | div
  | mod
  | eq
  | gt
deriving DecidableEq, Repr, Inhabited

namespace Operator

/-- All operators, in their standing order. -/
def all : List Operator := [add, sub, mul, div, mod, eq, gt]

def symbol : Operator → String
  | add => "+"
  | sub => "-"
  | mul => "*"
  | div => "/"
  | mod => "mod"
  | eq => "=="
  | gt => ">"

def ofSymbol? (symbol : String) : Option Operator :=
  all.find? fun op => op.symbol = symbol

/-- The operator with a given symbol; any other text is a fault. -/
def parse (symbol : String) : Except Error Operator :=
  match ofSymbol? symbol with
  | some op => .ok op
  | none => .error (.unsupportedOperator symbol)

/-- The instructions that compute the operator once its left operand is in `ebx` and its right
operand in `eax`. -/
def tail : Operator → List Instr
  | add => [.add]
  | sub => [.sub]
  | mul => [.mul]
  | div => [.clearExtension, .div]
  -- a remainder is a division whose second result is moved to the accumulator
  | mod => [.clearExtension, .div, .moveRemainder]
  | eq => [.compareEq]
  | gt => [.compareGt]

end Operator

end Accumulator
