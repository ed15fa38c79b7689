import Endmark.Main
import Endmark.Proofs.Acceptance
import Endmark.Proofs.Code.Calls
import Endmark.Proofs.Code.Division
import Endmark.Proofs.Code.Placeholders
import Endmark.Proofs.Image.Inclusion
import Endmark.Proofs.Ir.Abandonment
import Endmark.Proofs.Lowering.Initialization
import Endmark.Proofs.Machine.Listing
import Endmark.Proofs.Machine.Relaxation
import Endmark.Proofs.Powers
import Endmark.Proofs.Ranges
import Endmark.Proofs.Source
import Endmark.Proofs.Token.Quoting
import Endmark.Proofs.Token.Range
import Endmark.Proofs.Typed.Calls
import Endmark.Proofs.Typed.Closed
import Endmark.Proofs.Types.Bounds
import Endmark.Proofs.Visibility
