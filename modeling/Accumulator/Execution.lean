/-
Carrying out a command line.

A run selects demos, assembles them one after another with labels from one allocator, and puts
their listings, with a separator line between two of them, on standard output or into a file.
Everything is decided here as a value: the text of both output streams, the file and the exit
code.  What an output path leads to is the one thing that is asked of the outside.
-/
import Accumulator.CommandLine
import Accumulator.Demo

namespace Accumulator

/-- A piece of what appears on standard error.  An event is shown if its level is admitted, and a
text is always shown. -/
inductive Message where
  | event (event : Event)
  | text (text : String)
deriving DecidableEq, Repr

def Message.shown (threshold : Option Level) : Message → String
  | event e => if threshold.any (·.admits e.level) then e.line else ""
  | text t => t

/-- What becomes of the text that a run writes.  On standard error it stands among the messages,
and writing may fail with a text. -/
inductive Target where
  | stdout
  | stderr
  | file
  | failing (text : String)
deriving DecidableEq, Repr

def Target.fault? : Target → Option String
  | failing text => some text
  | stdout | stderr | file => none

/-- What a run leaves behind, with the file that it has written by path and contents. -/
structure Execution where
  exitCode : Nat := 0
  stdout : String := ""
  messages : List Message := []
  file : Option (String × String) := none
deriving DecidableEq, Repr, Inhabited

namespace Execution

/-- The text on standard error; without a threshold no event is shown. -/
def stderr (execution : Execution) (threshold : Option Level) : String :=
  (execution.messages.map (Message.shown threshold)).foldr (· ++ ·) ""

end Execution

/-- What one demo contributes to a printout: its events, and then its text. -/
structure Section where
  log : List Event
  text : String
deriving DecidableEq, Repr

/-- The listings of several demos, as far as they were made. -/
structure Printout where
  sections : List Section := []
  fault : Option String := none
deriving DecidableEq, Repr, Inhabited

namespace Printout

def text (printout : Printout) : String :=
  (printout.sections.map Section.text).foldr (· ++ ·) ""

def events (printout : Printout) : List Message :=
  printout.sections.flatMap fun part => part.log.map Message.event

/-- The events of a printout with the text between them. -/
def interleaved (printout : Printout) : List Message :=
  printout.sections.flatMap fun part => part.log.map Message.event ++ [.text part.text]

def separator : String := "--------------------\n"

/-- The listings of demos made one after another from one allocator, each with a given text
before it: nothing before the first, a separator before all others.  The text before a listing
is written also when the demo cannot be assembled.  If writing fails, it does so at the first
listing. -/
def ofDemos (options : Options) (writeFault : Option String) (lead : String)
    (labels : Allocator) : List Demo → Printout
  | [] => {}
  | demo :: demos =>
    let (program, labels) := demo.build labels
    let assembly := program.assembly options
    let log := .generating demo.name :: assembly.log
    match assembly.result, writeFault with
    | .error e, _ =>
      { sections := [{ log, text := lead }]
        fault := some ("failed to generate demo '" ++ demo.name ++ "': " ++ e.message) }
    | .ok _, some text =>
      { sections := [{ log, text := "" }]
        fault := some (Error.io text).message }
    | .ok listing, none =>
      let rest := ofDemos options writeFault separator labels demos
      { sections := { log, text := lead ++ listing.text } :: rest.sections
        fault := rest.fault }

end Printout

namespace Invocation

def options (invocation : Invocation) : Options :=
  Options.withSymbols { strict := invocation.strict } invocation.symbols

/-- The demo of a given name, or a complaint. -/
def demoNamed (name : String) : Except String Demo :=
  match Demo.find? name with
  | some demo => .ok demo
  | none => .error ("unknown demo '" ++ name ++ "' (try --list)")

/-- The demos of given names, in order, or a complaint about the first name without a demo; no
names stand for all demos. -/
def select : List String → Except String (List Demo)
  | [] => .ok Demo.all
  | names => names.mapM demoNamed

def catalogue : String :=
  (Demo.all.map fun demo => column 16 demo.name ++ " " ++ demo.description ++ "\n").foldr
    (· ++ ·) ""

def complaint (text : String) : Message := .text ("Error: " ++ text ++ "\n")

/-- A run that ends before anything is written. -/
def failure (text : String) : Execution :=
  { exitCode := 1, messages := [complaint text] }

/-- The path of the file that a run creates, if it creates one. -/
def destination? (invocation : Invocation) : Option String :=
  match invocation.list, select invocation.demos with
  | false, .ok _ => invocation.output
  | _, _ => none

/-- Where the text goes: to the output path, if there is one, else to standard output. -/
def target (create : String → Except String Target) (invocation : Invocation) :
    Except String Target :=
  match invocation.output with
  | none => .ok .stdout
  | some path =>
    match create path with
    | .ok target => .ok target
    | .error text => .error ("cannot create '" ++ path ++ "': " ++ text)

/-- The last message of a run with a given number of demos. -/
def closing (invocation : Invocation) (printout : Printout) (count : Nat) : List Message :=
  match printout.fault, invocation.output with
  | some text, _ => [complaint text]
  | none, some path => [.event (.wrote count path)]
  | none, none => []

def deliver (invocation : Invocation) (target : Target) (printout : Printout) (count : Nat) :
    Execution :=
  let exitCode := if printout.fault.isSome then 1 else 0
  let closing := invocation.closing printout count
  match target with
  | .stdout =>
    { exitCode, stdout := printout.text, messages := printout.events ++ closing }
  | .stderr => { exitCode, messages := printout.interleaved ++ closing }
  | .file =>
    { exitCode
      messages := printout.events ++ closing
      file := invocation.output.map fun path => (path, printout.text) }
  | .failing _ => { exitCode, messages := printout.events ++ closing }

/-- Carry out an invocation.  The function `create` creates the output file and says what becomes
of the text written to it, or says why it cannot be created; it is not asked before the demos
are known. -/
def run (create : String → Except String Target) (invocation : Invocation) : Execution :=
  if invocation.list then { stdout := catalogue }
  else
    match select invocation.demos with
    | .error text => failure text
    | .ok demos =>
      match invocation.target create with
      | .error text => failure text
      | .ok target =>
        let printout :=
          Printout.ofDemos invocation.options target.fault? "" Allocator.start demos
        invocation.deliver target printout demos.length

end Invocation

namespace Request

def versionText : String := "accgen 0.1.0\n"

def helpLines : List String :=
  ["输出内置示例程序的伪汇编清单",
   "",
   "Usage: accgen [OPTIONS] [DEMOS]...",
   "",
   "Arguments:",
   "  [DEMOS]...  要输出的示例（省略时输出全部）",
   "",
   "Options:",
   "      --strict         严格模式：拒绝未在数据段中声明的变量",
   "      --symbol <NAME>  严格模式下额外允许的名称（可重复）",
   "  -o, --output <FILE>  输出到文件而不是标准输出",
   "      --list           列出可用的示例并退出",
   "  -h, --help           Print help",
   "  -V, --version        Print version"]

def helpText : String := (Listing.mk helpLines).text

/-- The complaint about malformed arguments. -/
def usageText : String :=
  "Usage: accgen [OPTIONS] [DEMOS]...\n\nFor more information, try '--help'.\n"

def execute (create : String → Except String Target) : Request → Execution
  | help => { stdout := helpText }
  | version => { stdout := versionText }
  | malformed => { exitCode := 2, messages := [.text usageText] }
  | run invocation => invocation.run create

end Request

end Accumulator
