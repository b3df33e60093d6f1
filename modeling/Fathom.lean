import Fathom.Proofs.Segments
import Fathom.Proofs.StackLayout
import Fathom.Proofs.FramePlace
import Fathom.Proofs.ForkWait
import Fathom.Proofs.CodeMap
import Fathom.Proofs.LowMemory
import Fathom.Proofs.Pointers
import Fathom.Proofs.WaitStatus
import Fathom.Proofs.Numbers
import Fathom.Proofs.Interests
import Fathom.Proofs.SharedMemory
import Fathom.Proofs.Tenancy
import Fathom.Proofs.Sockets
import Fathom.Proofs.ExecOpen
import Fathom.Proofs.Transfers
import Fathom.Proofs.Invalidation
import Fathom.Proofs.Console
import Fathom.Proofs.Display
import Fathom.Proofs.Remap
import Fathom.Proofs.Operands
