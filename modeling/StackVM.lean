import StackVM.Code.Builder
import StackVM.Host.Probe
import StackVM.Main
import StackVM.Proofs.Asm.RoundTrip
import StackVM.Proofs.Asm.Failures
import StackVM.Proofs.Code.Relocation
import StackVM.Proofs.Machine.Fatal.Atomicity
import StackVM.Proofs.Machine.Operands
import StackVM.Proofs.Machine.Trace
import StackVM.Proofs.Verify.Soundness.Runs
import StackVM.Proofs.Machine.Effect.Natives
import StackVM.Proofs.Machine.Layers.Steps
import StackVM.Proofs.Machine.Confined
import StackVM.Proofs.Machine.Reentry
import StackVM.Proofs.Machine.Stretch
import StackVM.Proofs.Machine.Bracket
import StackVM.Proofs.Machine.Delivery.Exceptions
import StackVM.Proofs.Machine.Bounded
import StackVM.Proofs.Machine.Phase.Code
import StackVM.Proofs.Machine.Linking.Resolution
import StackVM.Proofs.Machine.Capture.Lexical
import StackVM.Proofs.Machine.Loading
import StackVM.Proofs.Machine.Locality
import StackVM.Proofs.Machine.Agreement
import StackVM.Proofs.Machine.Indices.Lives
import StackVM.Proofs.Machine.Halting
import StackVM.Proofs.Machine.Blame.Position
import StackVM.Proofs.Verify.Labels
import StackVM.Proofs.Value.Bisimulation.Equality
import StackVM.Proofs.Verify.Report.Order
import StackVM.Proofs.Verify.Flagged
import StackVM.Proofs.Machine.Overloads.Resolution
import StackVM.Proofs.Value.Unambiguous.Containers
import StackVM.Proofs.Machine.Gathering
import StackVM.Proofs.Asm.Edits
import StackVM.Proofs.Machine.Chains
import StackVM.Proofs.Machine.Activation.Entry
