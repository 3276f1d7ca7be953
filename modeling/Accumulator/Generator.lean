/-
Code generators.

A generator holds its options, the names that strict mode admits, the labels that the current
output has claimed, and the code emitted so far.  It performs the scripts of expressions
(`Accumulator.Lowering`) step by step and stops at the first step that fails.

* `lowerNode` continues the current output: the labels claimed before count, and what it
  claimed and emitted stays, also when it fails.
* `lowerAll`, `lower` and `generate` make one output of their own: they clear code and claimed
  labels first, hand the code over when they succeed, and clear both again when they fail.

The admitted names are those of the options with which the generator was made and those
declared since.  Setting the options later changes whether names are checked, and not which
names are admitted.
-/
import Accumulator.Lowering
import Accumulator.NameSet

namespace Accumulator

/-- How strictly names are checked: whether every name must be admitted, and which names are
admitted without being declared. -/
structure Options where
  strict : Bool := false
  symbols : NameSet := ∅
deriving DecidableEq, Repr, Inhabited

/-- The options with further allowed names. -/
def Options.withSymbols (options : Options) (names : List String) : Options :=
  { options with symbols := options.symbols.insertAll names }

/-- A code generator. -/
structure Generator where
  options : Options
  symbols : NameSet
  /-- The texts of the labels that the current output has claimed. -/
  claimed : NameSet
  code : Array Instr
deriving DecidableEq, Repr

/-- What an operation of a generator leaves behind: the generator after it, the events in
order, and the result. -/
structure Outcome (α : Type) where
  generator : Generator
  log : List Event
  result : Except Error α

/-- The same outcome with its value, if there is one, passed through a function. -/
def Outcome.map {α β : Type} (f : α → β) (outcome : Outcome α) : Outcome β :=
  { generator := outcome.generator, log := outcome.log, result := outcome.result.map f }

namespace Generator

/-- A generator with given options, which admits the names that the options allow. -/
def ofOptions (options : Options) : Generator :=
  { options, symbols := options.symbols, claimed := ∅, code := #[] }

def initial : Generator := ofOptions {}

instance : Inhabited Generator := ⟨initial⟩

/-! ## Single steps -/

def declare (g : Generator) (name : String) : Generator :=
  { g with symbols := g.symbols.insert name }

def declareAll (g : Generator) (names : List String) : Generator :=
  names.foldl declare g

@[simp] theorem mem_symbols_declareAll {g : Generator} {names : List String} {name : String} :
    name ∈ (g.declareAll names).symbols ↔ name ∈ names ∨ name ∈ g.symbols := by
  induction names generalizing g with
  | nil => simp [declareAll]
  | cons first names ih =>
    have h := ih (g := g.declare first)
    simp only [declareAll, List.foldl_cons] at h ⊢
    rw [h, declare, NameSet.mem_insert, List.mem_cons, or_left_comm, or_assoc]

def setOptions (g : Generator) (options : Options) : Generator :=
  { g with options }

def emit (g : Generator) (instr : Instr) : Generator :=
  { g with code := g.code.push instr }

/-- Check a name: in strict mode it must be admitted. -/
def checkName (g : Generator) (name : String) : Except Error Unit :=
  if g.options.strict ∧ name ∉ g.symbols then .error (.undefinedVariable name) else .ok ()

/-- Claim a label for the current output; a label can be claimed once. -/
def claim (g : Generator) (label : Label) : Except Error Generator :=
  if label.text ∈ g.claimed then .error (.duplicateLabel label.text)
  else .ok { g with claimed := g.claimed.insert label.text }

def check (g : Generator) : Check → Except Error Generator
  | .name name => (g.checkName name).map fun _ => g
  | .label label => g.claim label

/-- Begin a new output: neither code nor claimed labels. -/
def clear (g : Generator) : Generator :=
  { g with claimed := ∅, code := #[] }

/-! ## Scripts -/

/-- Perform the steps of a script, up to the first that fails. -/
def perform (g : Generator) : List Step → Outcome Unit
  | [] => { generator := g, log := [], result := .ok () }
  | .emit instr :: steps => (g.emit instr).perform steps
  | .note event :: steps =>
    let rest := g.perform steps
    { rest with log := event :: rest.log }
  | .check c :: steps =>
    match g.check c with
    | .ok next => next.perform steps
    | .error e => { generator := g, log := [], result := .error e }

/-- Lower an expression into the current output. -/
def lowerNode (g : Generator) (node : Node) : Outcome Unit :=
  g.perform node.script

/-- Lower expressions one after another into a new output, and hand over its code. -/
def lowerAll (g : Generator) (nodes : List Node) : Outcome (List Instr) :=
  let run := g.clear.perform (nodes.flatMap Node.script)
  match run.result with
  | .ok () =>
    let code := run.generator.code.toList
    { generator := { run.generator with code := #[] }
      log := run.log ++ [.lowered nodes.length code.length]
      result := .ok code }
  | .error e => { generator := run.generator.clear, log := run.log, result := .error e }

def lower (g : Generator) (node : Node) : Outcome (List Instr) :=
  g.lowerAll [node]

/-- The lines of the code of one expression. -/
def generate (g : Generator) (node : Node) : Outcome (List String) :=
  (g.lower node).map (List.map Instr.text)

end Generator

/-- The lines of the code of an expression, by a generator with the default options. -/
def Node.generate (node : Node) : Outcome (List String) :=
  Generator.initial.generate node

end Accumulator
