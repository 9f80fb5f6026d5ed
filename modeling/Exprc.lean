import Exprc.Main
import Exprc.Proofs.Meaning.Evaluator
import Exprc.Proofs.Meaning.Correctness
import Exprc.Proofs.Soundness.Run
import Exprc.Proofs.IR.Paths
import Exprc.Proofs.Assignment.Code
import Exprc.Proofs.Assignment.Run
import Exprc.Proofs.Typing.Module
import Exprc.Proofs.Lowering.LoopControl
import Exprc.Proofs.Lowering.Closed
import Exprc.Proofs.Assembly.Assembled
import Exprc.Proofs.Assembly.Calling
import Exprc.Proofs.Assembly.Correctness
import Exprc.Proofs.Assembly.Translation
import Exprc.Proofs.Assembly.Globals
import Exprc.Proofs.Assembly.Slots
import Exprc.Proofs.Assembly.Agreement
import Exprc.Proofs.Assembly.Confinement
import Exprc.Proofs.Syntax.Runs
import Exprc.Proofs.Syntax.Rendering
import Exprc.Proofs.Syntax.Reading
import Exprc.Proofs.Syntax.Faithful
import Exprc.Proofs.Syntax.Producible
import Exprc.Proofs.Syntax.Taking
import Exprc.Proofs.Syntax.Printing
import Exprc.Proofs.Syntax.RoundTrip
import Exprc.Proofs.Syntax.Recogniser
import Exprc.Proofs.Syntax.FirstFault
import Exprc.Proofs.Syntax.Decomposition
import Exprc.Proofs.Places.Checking
import Exprc.Proofs.Places.Lowering
import Exprc.Proofs.Places.Generation
import Exprc.Proofs.Places.Running
import Exprc.Proofs.Places.Compiler
import Exprc.Proofs.Resolution.Agreement
import Exprc.Proofs.Scope.Arena
import Exprc.Proofs.Typing.Repetition
import Exprc.Proofs.Renaming.Locals
import Exprc.Proofs.Order.Functions
import Exprc.Proofs.IR.Input
import Exprc.Proofs.Lowering.Forward
import Exprc.Proofs.Lowering.Ownership
import Exprc.Proofs.Operands.Capture
import Exprc.Proofs.Syntax.Separation
import Exprc.Proofs.Syntax.Sentinel
import Exprc.Proofs.IR.Faithful
import Exprc.Proofs.Assembly.DebugInfo
import Exprc.Proofs.Places.Highlight
import Exprc.Proofs.Routines.Printing
import Exprc.Proofs.Routines.Reading
