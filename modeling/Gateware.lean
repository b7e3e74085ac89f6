import Gateware.Token.Stream
import Gateware.Outline
import Gateware.Sink
import Gateware.Command.Run
import Gateware.Main
import Gateware.Proofs.Grammar.Derivation
import Gateware.Proofs.Checking.FirstFault
import Gateware.Proofs.Naming.Binding
import Gateware.Proofs.Naming.Clock
import Gateware.Proofs.Naming.Namespace
import Gateware.Proofs.Printing.Reparse
import Gateware.Proofs.Printing.Precedence
import Gateware.Proofs.Token.Split
import Gateware.Proofs.Token.Splicing
import Gateware.Proofs.Lowering.Runs
import Gateware.Proofs.Printing.Forms
import Gateware.Proofs.Printing.Text
import Gateware.Proofs.Checking.Storage
import Gateware.Proofs.Structure.Layout
import Gateware.Proofs.Reading.Files
import Gateware.Proofs.Checking.Diagnostics
import Gateware.Proofs.Reading.Acceptance
import Gateware.Proofs.Reading.Completion
import Gateware.Proofs.Reading.Relocation
import Gateware.Proofs.Reading.Concatenation
import Gateware.Proofs.Token.Queue
import Gateware.Proofs.Checking.Supported
import Gateware.Proofs.Lowering.Relocation
import Gateware.Proofs.Naming.Nesting
import Gateware.Proofs.Reading.Balance
import Gateware.Proofs.Output.Delivery
import Gateware.Proofs.Output.Tree
import Gateware.Proofs.Output.System
import Gateware.Proofs.Output.Build
import Gateware.Proofs.Naming.Fresh
import Gateware.Proofs.Structure.Encoding
import Gateware.Proofs.Lowering.Emission
