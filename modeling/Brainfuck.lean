import Brainfuck.IR.Process
import Brainfuck.LineBuffer
import Brainfuck.Main
import Brainfuck.Proofs.Meaning
import Brainfuck.Proofs.Realization
import Brainfuck.Proofs.Stepping
import Brainfuck.Proofs.Words
import Brainfuck.Proofs.Flattening
import Brainfuck.Proofs.LinearLoop
import Brainfuck.Proofs.Emission
import Brainfuck.Proofs.Refinement
import Brainfuck.Proofs.Idioms
import Brainfuck.Proofs.Optimization
import Brainfuck.Proofs.NormalForm
import Brainfuck.Proofs.Parsing
import Brainfuck.Proofs.TextLength
import Brainfuck.Proofs.HiddenFaults
import Brainfuck.Proofs.Staying
import Brainfuck.Proofs.Construction
import Brainfuck.Proofs.Processes
import Brainfuck.Proofs.LoweredLines
import Brainfuck.Proofs.LoweredNodes
import Brainfuck.Proofs.MainFunction
import Brainfuck.Proofs.Compilation
import Brainfuck.Proofs.StepLimit
import Brainfuck.Proofs.Growth
import Brainfuck.Proofs.Accesses
import Brainfuck.Proofs.TextMeaning
import Brainfuck.Proofs.Folding
import Brainfuck.Proofs.Relocation
import Brainfuck.Proofs.Sequencing
import Brainfuck.Proofs.Buffers
import Brainfuck.Proofs.SingleAssignment
import Brainfuck.Proofs.Drafts
import Brainfuck.Proofs.LoweredForm
import Brainfuck.Proofs.FunctionForm
import Brainfuck.Proofs.Brackets
import Brainfuck.Proofs.Canonical
import Brainfuck.Proofs.ScaleScopes
import Brainfuck.Proofs.WrittenLines
import Brainfuck.Proofs.Shrinking
import Brainfuck.Proofs.LoweredScopes
import Brainfuck.Proofs.ScopeAgreement
import Brainfuck.Proofs.ForeignValues
import Brainfuck.Proofs.Visits
import Brainfuck.Proofs.LinearRuns
import Brainfuck.Proofs.LoopFree
import Brainfuck.Proofs.InputLines
import Brainfuck.Proofs.Listings
import Brainfuck.Proofs.TreeShape
import Brainfuck.Proofs.EmittedForm
import Brainfuck.Proofs.ArtefactPaths
import Brainfuck.Proofs.Enclosures
import Brainfuck.Proofs.EnclosedCode
