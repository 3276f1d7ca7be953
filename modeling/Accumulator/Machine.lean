/-
The accumulator machine.

A state holds the place of the next instruction, the registers, the stack, the memory and the
numbers output so far; all numbers are exact integers.  `step` is the meaning of the
instructions as a partial function on states: it has no value at the end of the code, and where
an instruction cannot be carried out, which is a pop from an empty stack, a jump to a label
that the code does not define, or a division by zero.

A binary instruction takes its left operand from `ebx` and its right operand from `eax`, so
`sub` subtracts the accumulator from `ebx`, and `div` divides `ebx` by the accumulator.
Quotients are rounded toward zero, and a remainder has the sign of the left operand.
-/
import Accumulator.Instr

namespace Accumulator

/-- A memory of named words. -/
abbrev Memory : Type := String → Int

def Memory.set (memory : Memory) (name : String) (value : Int) : Memory :=
  fun other => if other = name then value else memory other

@[simp] theorem Memory.set_same (memory : Memory) (name : String) (value : Int) :
    memory.set name value name = value := by
  simp [Memory.set]

namespace Machine

/-- A state of the machine; the top of the stack comes first. -/
structure State where
  pc : Nat
  eax : Int
  ebx : Int
  edx : Int
  stack : List Int
  memory : Memory
  output : List Int

/-- The place of a label in the code: its first definition, if there is one. -/
def target (code : List Instr) (label : String) : Option Nat :=
  code.findIdx? fun instr => instr = .label label

namespace State

def next (s : State) : State := { s with pc := s.pc + 1 }

/-- The state at the next instruction with a new accumulator. -/
def result (s : State) (value : Int) : State := { s.next with eax := value }

/-- The state at a label of the code, if the code defines it. -/
def goto (s : State) (code : List Instr) (label : String) : Option State :=
  (target code label).map fun place => { s with pc := place }

end State

/-- Carry out one instruction of the code. -/
def perform (code : List Instr) (s : State) : Instr → Option State
  | .loadImmediate value => some (s.result value.toInt)
  | .load name => some (s.result (s.memory name))
  | .store name => some { s.next with memory := s.memory.set name s.eax }
  | .push => some { s.next with stack := s.eax :: s.stack }
  | .pop =>
    match s.stack with
    | [] => none
    | top :: rest => some { s.next with ebx := top, stack := rest }
  | .add => some (s.result (s.ebx + s.eax))
  | .sub => some (s.result (s.ebx - s.eax))
  | .mul => some (s.result (s.ebx * s.eax))
  | .clearExtension => some { s.next with edx := 0 }
  | .div =>
    if s.eax = 0 then none
    else some { s.next with eax := s.ebx.tdiv s.eax, edx := s.ebx.tmod s.eax }
  | .moveRemainder => some (s.result s.edx)
  | .compareEq => some (s.result (if s.ebx = s.eax then 1 else 0))
  | .compareGt => some (s.result (if s.ebx > s.eax then 1 else 0))
  | .label _ => some s.next
  | .jumpIfZero label => if s.eax = 0 then s.goto code label else some s.next
  | .jump label => s.goto code label
  | .output => some { s.next with output := s.output ++ [s.eax] }

def step (code : List Instr) (s : State) : Option State :=
  code[s.pc]?.bind (perform code s)

/-- A run of the machine from one state to another. -/
inductive Reaches (code : List Instr) : State → State → Prop where
  | refl (s : State) : Reaches code s s
  | head {s t u : State} : step code s = some t → Reaches code t u → Reaches code s u

theorem Reaches.trans {code : List Instr} {s t u : State} (h : Reaches code s t)
    (h' : Reaches code t u) : Reaches code s u := by
  induction h with
  | refl => exact h'
  | head hs _ ih => exact .head hs (ih h')

end Machine

end Accumulator
