/-
Programs and listings.

A program has data words, kept in the order of their declaration, and code fragments, which are
evaluated one after another.  It is assembled into a listing: the listing has a data segment with
one line for each data word, and a code segment with the code of all fragments, which is one
output of a generator, followed by the instruction that outputs the accumulator.
-/
import Accumulator.Generator

namespace Accumulator

/-- The lines of a program, without line ends. -/
structure Listing where
  lines : List String
deriving DecidableEq, Repr, Inhabited

namespace Listing

/-- The pieces in which a listing is written: every line, followed by a line end. -/
def pieces (listing : Listing) : List String :=
  listing.lines.flatMap fun line => [line, "\n"]

def text (listing : Listing) : String :=
  listing.pieces.foldr (· ++ ·) ""

@[simp] theorem text_cons (line : String) (lines : List String) :
    (Listing.mk (line :: lines)).text = line ++ "\n" ++ (Listing.mk lines).text := by
  simp [text, pieces, String.append_assoc]

end Listing

/-! ## Programs -/

structure Program where
  data : List String := []
  fragments : List Node := []
deriving DecidableEq, Repr, Inhabited

/-- What assembling a program leaves behind: the events in order, and the listing or the first
fault. -/
structure Assembly where
  log : List Event
  result : Except Error Listing

namespace Program

/-- Declare a data word; a name that is declared already stays where it is. -/
def declare (program : Program) (name : String) : Program :=
  { program with data := Roster.enter program.data name }

def declareAll (program : Program) (names : List String) : Program :=
  { program with data := Roster.enterAll program.data names }

def addFragment (program : Program) (node : Node) : Program :=
  { program with fragments := program.fragments ++ [node] }

/-- Declare the names that the fragments bind, in order. -/
def inferData (program : Program) : Program :=
  program.declareAll (program.fragments.flatMap Node.boundNames)

def dataLine (name : String) : String := "\t" ++ name ++ " DD"

/-- The lines of the listing with given data words and given code.  After the code, the
accumulator is output. -/
def layout (data : List String) (code : List Instr) : List String :=
  ["DATA SEGMENT"] ++ data.map dataLine ++ ["DATA ENDS"]
    ++ ["CODE SEGMENT"] ++ (code ++ [Instr.output]).map Instr.text ++ ["CODE ENDS"]

/-- The generator with which a program is assembled: it admits the names that the options
allow and the data words. -/
def generator (program : Program) (options : Options) : Generator :=
  (Generator.ofOptions options).declareAll program.data

def assembly (program : Program) (options : Options) : Assembly :=
  let lowered := (program.generator options).lowerAll program.fragments
  match lowered.result with
  | .ok code =>
    let lines := layout program.data code
    { log := lowered.log ++
        [.assembled program.fragments.length program.data.length lines.length]
      result := .ok { lines } }
  | .error e => { log := lowered.log, result := .error e }

def assemble (program : Program) (options : Options) : Except Error Listing :=
  (program.assembly options).result

end Program

end Accumulator
