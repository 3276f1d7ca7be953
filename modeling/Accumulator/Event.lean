/-
Diagnostic events.

The code generator reports what it does as a list of events, in the order of the work.  An
event has a level, the part of the program that reports it, and a text.  Whoever runs the
program chooses a threshold; events above it are not shown.
-/
import Accumulator.Operator
import Accumulator.PlainText

namespace Accumulator

/-- A text filled up with blanks on the right to a given width; a text that is as wide as the
column, or wider, stays as it is. -/
def column (width : Nat) (text : String) : String :=
  text ++ String.ofList (List.replicate (width - text.length) ' ')

/-- How detailed an event is. -/
inductive Level where
  | info
  | debug
  | trace
deriving DecidableEq, Repr

namespace Level

def name : Level → String
  | info => "INFO"
  | debug => "DEBUG"
  | trace => "TRACE"

/-- The rank of a level: more detailed levels are higher. -/
def rank : Level → Nat
  | info => 0
  | debug => 1
  | trace => 2

/-- Whether a threshold lets events of a level through. -/
def admits (threshold level : Level) : Bool := level.rank ≤ threshold.rank

end Level

/-- Something worth reporting about a run. -/
inductive Event where
  -- an expression is about to be lowered
  | binary (op : Operator)
  | loop (index : UInt64)
  | branch (index : UInt64)
  | lambda (first second : String)
  -- an output, a listing, a demo, a whole run
  | lowered (fragments instructions : Nat)
  | assembled (fragments words lines : Nat)
  | generating (demo : String)
  | wrote (listings : Nat) (path : String)
deriving DecidableEq, Repr

namespace Event

def level : Event → Level
  | binary _ | loop _ | branch _ | lambda _ _ => .trace
  | lowered _ _ | assembled _ _ _ => .debug
  | generating _ | wrote _ _ => .info

/-- The part of the program that reports an event. -/
def origin : Event → String
  | binary _ => "accgen::codegen::expressions"
  | loop _ | branch _ | lambda _ _ => "accgen::codegen::statements"
  | lowered _ _ => "accgen::codegen::generator"
  | assembled _ _ _ => "accgen::program"
  | generating _ | wrote _ _ => "accgen"

def text : Event → String
  | binary op => "lowering binary '" ++ op.symbol ++ "'"
  | loop index => "lowering loop " ++ toString index.toNat
  | branch index => "lowering conditional " ++ toString index.toNat
  | lambda first second => "lowering lambda (" ++ first ++ ", " ++ second ++ ") as its body"
  | lowered fragments instructions =>
    "lowered " ++ toString fragments ++ " fragments into " ++ toString instructions
      ++ " instructions"
  | assembled fragments words lines =>
    "assembled " ++ toString fragments ++ " fragments, " ++ toString words ++ " data words, "
      ++ toString lines ++ " lines"
  | generating demo => "generating demo '" ++ demo ++ "'"
  | wrote listings path => "wrote " ++ toString listings ++ " listings to " ++ path

def summary (event : Event) : String :=
  event.level.name ++ " " ++ event.text

/-- The text with the lines after the first set in by four blanks. -/
def indented (text : String) : String :=
  String.ofList (text.toList.flatMap fun c =>
    if c = '\n' then ['\n', ' ', ' ', ' ', ' '] else [c])

/-- An event as it is shown: the level in a column of five characters, the origin, the text,
and the end of the line, all as plain text. -/
def line (event : Event) : String :=
  plainText ("[" ++ column 5 event.level.name ++ " " ++ event.origin ++ "] "
    ++ indented event.text ++ "\n")

end Event

end Accumulator
