/-
Labels of loops and conditionals.

A loop marks its start and its end, a conditional marks its second branch and its end.  Each
of these four families numbers its labels by a 64-bit index, and the text of a label is the
stem of its family followed by the index in decimal.

Indices are drawn from an `Allocator`, a pair of counters: one for loops and one for
conditionals.  The counters wrap around after 2^64 draws.
-/
namespace Accumulator

/-- The four places of the code that are marked by a label: before the condition of a loop, after
a loop, before the second branch of a conditional, and after a conditional. -/
inductive LabelFamily where
  | loopStart
  | loopEnd
  | branchElse
  | branchEnd
deriving DecidableEq, Repr

/-- The text that the labels of a family begin with. -/
def LabelFamily.stem : LabelFamily → String
  | loopStart => "while_start_"
  | loopEnd => "while_end_"
  | branchElse => "if_else_"
  | branchEnd => "if_end_"

structure Label where
  family : LabelFamily
  index : UInt64
deriving DecidableEq, Repr

namespace Label

/-- The text of a label: the stem of the family and the decimal index. -/
def text (label : Label) : String :=
  label.family.stem ++ toString label.index.toNat

def loopStart (k : UInt64) : Label := ⟨.loopStart, k⟩

def loopEnd (k : UInt64) : Label := ⟨.loopEnd, k⟩

def branchElse (k : UInt64) : Label := ⟨.branchElse, k⟩

def branchEnd (k : UInt64) : Label := ⟨.branchEnd, k⟩

end Label

/-! ## Drawing indices -/

/-- The next indices for loops and for conditionals. -/
structure Allocator where
  nextLoop : UInt64 := 0
  nextBranch : UInt64 := 0
deriving DecidableEq, Repr, Inhabited

namespace Allocator

/-- The allocator from which nothing has been drawn. -/
def start : Allocator := {}

def drawLoop (labels : Allocator) : UInt64 × Allocator :=
  (labels.nextLoop, { labels with nextLoop := labels.nextLoop + 1 })

def drawBranch (labels : Allocator) : UInt64 × Allocator :=
  (labels.nextBranch, { labels with nextBranch := labels.nextBranch + 1 })

end Allocator

end Accumulator
