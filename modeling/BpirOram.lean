import BpirOram.Circuit.Atomic
import BpirOram.Circuit.DrainEach
import BpirOram.Circuit.Debt
import BpirOram.Circuit.Reads
import BpirOram.Direct.Agree
import BpirOram.Direct.Terminate
import BpirOram.Packed.Cuckoo
import BpirOram.Circuit.Fresh
import BpirOram.Merkle.Beside
import BpirOram.Packed.Accepted
import BpirOram.Circuit.Optimal
import BpirOram.Circuit.Overflow
import BpirOram.Stress.Initial
import BpirOram.Pages.Stack
import BpirOram.Pages.Vault
import BpirOram.Circuit.Loaded
import BpirOram.Pages.PageBytes
import BpirOram.Pages.Front
import BpirOram.Evidence.Binding
import BpirOram.Packed.Extract
import BpirOram.Merkle.Planner
import BpirOram.Stress.Ring
import BpirOram.Embedded.Fresh
import BpirOram.Embedded.Refused
import BpirOram.Circuit.OneFault
import BpirOram.Circuit.Reopen
import BpirOram.Deploy.Alike
import BpirOram.Deploy.Tampered
import BpirOram.Merkle.Forged
import BpirOram.Direct.Session
