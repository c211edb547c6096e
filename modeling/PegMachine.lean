import PegMachine.Host.Function
import PegMachine.Host.Script
import PegMachine.Tokenizer
import PegMachine.Proofs.Inlining.Lockstep
import PegMachine.Proofs.Suggestion
import PegMachine.Proofs.Grammar.Definitions
import PegMachine.Proofs.Grammar.Problems
import PegMachine.Proofs.Notation.Leaves
import PegMachine.Proofs.Notation.Totality
import PegMachine.Proofs.Notation.Bounds
import PegMachine.Proofs.Machine.Effects
import PegMachine.Proofs.Machine.Limits
import PegMachine.Proofs.Machine.Furthest
import PegMachine.Proofs.Machine.Locality
import PegMachine.Proofs.Evaluator.Failures
import PegMachine.Proofs.Evaluator.Termination
import PegMachine.Proofs.Evaluator.Output
import PegMachine.Proofs.Value.Content
import PegMachine.Proofs.Value.Drawing
import PegMachine.Proofs.Value.Spans
import PegMachine.Proofs.Value.Streams
import PegMachine.Proofs.Tokenizer.Tokenizing
import PegMachine.Proofs.Machine.Bytewise
import PegMachine.Proofs.Location
import PegMachine.Proofs.Shifting.Lockstep
import PegMachine.Proofs.Rewriting.References
import PegMachine.Proofs.Rewriting.Flattening
import PegMachine.Proofs.Unrolling.Lockstep
import PegMachine.Proofs.Machine.Pops
import PegMachine.Proofs.Machine.Returns
import PegMachine.Proofs.Evaluator.Copies
import PegMachine.Proofs.Regex.Forms
