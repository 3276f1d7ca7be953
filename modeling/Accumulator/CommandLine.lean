/-
The command line.

Arguments are read from left to right.  Options and demo names come in any order; an argument
`--` ends the options, and everything after it is a demo name.  Reading stops at the first
argument that asks for help or for the version, or that is malformed, whatever follows.

* `--strict` and `--list` take no value and may be given once;
* `--symbol NAME`, which may be repeated, and `--output FILE` (also `-o FILE`), which may be
  given once and not be empty, take a value: the next argument, which may not look like an
  option, or the text after `=`.  The letter `o` also takes the rest of its own argument;
* `--help` (also `-h`) and `--version` (also `-V`).
-/
namespace Accumulator

/-- What the command line asks for, apart from help and version.  No demo names stand for all
demos, and `list` asks for their names only. -/
structure Invocation where
  demos : List String := []
  strict : Bool := false
  symbols : List String := []
  output : Option String := none
  list : Bool := false
deriving DecidableEq, Repr, Inhabited

/-- A command line that has been read. -/
inductive Request where
  | help
  | version
  | malformed
  | run (invocation : Invocation)
deriving DecidableEq, Repr

namespace CommandLine

/-- An option that takes a value. -/
inductive ValueOption where
  | symbol
  | output
deriving DecidableEq, Repr

/-- What the next argument is taken for.  After `--` it is the name of a demo, whatever it looks
like. -/
inductive Expectation where
  | any
  | value (option : ValueOption)
  | demo
deriving DecidableEq, Repr

/-- The state between two arguments. -/
structure Reading where
  invocation : Invocation := {}
  expects : Expectation := .any
deriving DecidableEq, Repr, Inhabited

namespace Reading

def demo (reading : Reading) (name : String) : Reading :=
  { reading with
    invocation := { reading.invocation with demos := reading.invocation.demos ++ [name] } }

def await (reading : Reading) (option : ValueOption) : Reading :=
  { reading with expects := .value option }

def give (reading : Reading) (option : ValueOption) (value : String) : Except Request Reading :=
  let invocation := reading.invocation
  match option with
  | .symbol =>
    .ok { invocation := { invocation with symbols := invocation.symbols ++ [value] } }
  | .output =>
    if value = "" ∨ invocation.output.isSome then .error .malformed
    else .ok { invocation := { invocation with output := some value } }

/-- Read an option by its long name, with the text after `=` if there is one. -/
def long (reading : Reading) (name : String) (value : Option String) :
    Except Request Reading :=
  let invocation := reading.invocation
  match name, value with
  | "help", none => .error .help
  | "version", none => .error .version
  | "strict", none =>
    if invocation.strict then .error .malformed
    else .ok { reading with invocation := { invocation with strict := true } }
  | "list", none =>
    if invocation.list then .error .malformed
    else .ok { reading with invocation := { invocation with list := true } }
  | "symbol", none => .ok (reading.await .symbol)
  | "symbol", some value => reading.give .symbol value
  | "output", none => .ok (reading.await .output)
  | "output", some value => reading.give .output value
  | _, _ => .error .malformed

/-- Read options by their letters. -/
def short (reading : Reading) : List Char → Except Request Reading
  | 'h' :: _ => .error .help
  | 'V' :: _ => .error .version
  | ['o'] => .ok (reading.await .output)
  | 'o' :: '=' :: value => reading.give .output (String.ofList value)
  | 'o' :: value => reading.give .output (String.ofList value)
  | _ => .error .malformed

def read (reading : Reading) (argument : String) : Except Request Reading :=
  match reading.expects, argument.toList with
  | .demo, _ => .ok (reading.demo argument)
  | .value _, '-' :: _ :: _ => .error .malformed
  | .value option, _ => reading.give option argument
  | .any, ['-', '-'] => .ok { reading with expects := .demo }
  | .any, '-' :: '-' :: chars =>
    reading.long (String.ofList (chars.takeWhile (· ≠ '=')))
      ((chars.dropWhile (· ≠ '=')).tail?.map String.ofList)
  | .any, '-' :: char :: chars => reading.short (char :: chars)
  | .any, _ => .ok (reading.demo argument)

/-- The request after the last argument: no option may still wait for its value. -/
def finish (reading : Reading) : Request :=
  match reading.expects with
  | .value _ => .malformed
  | .any | .demo => .run reading.invocation

end Reading

def parse (arguments : List String) : Request :=
  match arguments.foldlM Reading.read ({} : Reading) with
  | .ok reading => reading.finish
  | .error request => request

end CommandLine

end Accumulator
