/-
Instructions of the accumulator machine, and their text.

The machine has an accumulator `eax`, a second operand register `ebx`, an extension register
`edx` for division, a stack, and a memory of named words.  A binary instruction finds its left
operand in `ebx` and its right operand in `eax`, and leaves its result in `eax`; the meaning of
each instruction is the step function of `Accumulator.Machine`.
-/
namespace Accumulator

/-- An instruction of the accumulator machine. -/
inductive Instr where
  | loadImmediate (value : Int64)
  | load (name : String)
  | store (name : String)
  -- the accumulator is pushed, and the stack is popped into the second operand register
  | push
  | pop
  | add
  | sub
  | mul
  -- a division requires a cleared extension register, and leaves its remainder there
  | clearExtension
  | div
  | moveRemainder
  | compareEq
  | compareGt
  | label (label : String)
  | jumpIfZero (label : String)
  | jump (label : String)
  | output
deriving DecidableEq, Repr, Inhabited

namespace Instr

/-- The line of an instruction in a listing. -/
def text : Instr → String
  | loadImmediate value => "mov eax, " ++ toString value.toInt
  | load name => "mov eax, " ++ name
  | store name => "mov " ++ name ++ ", eax"
  | push => "push eax"
  | pop => "pop ebx"
  | add => "add eax, ebx"
  | sub => "sub eax, ebx"
  | mul => "imul eax, ebx"
  | clearExtension => "xor edx, edx"
  | div => "idiv ebx"
  | moveRemainder => "mov eax, edx"
  | compareEq => "cmpeq eax, ebx"
  | compareGt => "cmpgt eax, ebx"
  | label l => l ++ ":"
  | jumpIfZero l => "jz " ++ l
  | jump l => "jmp " ++ l
  | output => "out eax"

end Instr

end Accumulator
