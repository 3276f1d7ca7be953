import Accumulator.CommandLine
import Accumulator.Demo
import Accumulator.Evaluation
import Accumulator.Event
import Accumulator.Execution
import Accumulator.Generator
import Accumulator.Instr
import Accumulator.Label
import Accumulator.Lowering
import Accumulator.Machine
import Accumulator.Main
import Accumulator.NameSet
import Accumulator.Node
import Accumulator.Operator
import Accumulator.PlainText
import Accumulator.Program
import Accumulator.Proofs.Appending
import Accumulator.Proofs.Assembling
import Accumulator.Proofs.CoupledClaims
import Accumulator.Proofs.DataInference
import Accumulator.Proofs.DemoRun
import Accumulator.Proofs.DemoSeries
import Accumulator.Proofs.Euclid
import Accumulator.Proofs.FirstFault
import Accumulator.Proofs.History
import Accumulator.Proofs.LabelDiscipline
import Accumulator.Proofs.LabelText
import Accumulator.Proofs.LineCollisions
import Accumulator.Proofs.LineReading
import Accumulator.Proofs.ListingReading
import Accumulator.Proofs.Permissiveness
import Accumulator.Proofs.Preservation
import Accumulator.Proofs.Relabelling
import Accumulator.Proofs.Segment
import Accumulator.Proofs.StackDiscipline
import Accumulator.Proofs.StrictNames
import Accumulator.Proofs.TreeReading
import Accumulator.Proofs.Workbench
import Accumulator.Proofs.Writing
import Accumulator.Roster
import Accumulator.Sink
