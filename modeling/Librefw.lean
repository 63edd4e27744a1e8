import Librefw.Common.Words
import Librefw.Common.PathCopy
import Librefw.Common.TrieWalk
import Librefw.Common.Run
import Librefw.Common.Moments
import Librefw.Common.Rcu
import Librefw.Common.Progress
import Librefw.Common.Sections
import Librefw.Hcf.Linear
import Librefw.Bogon.Model.Concurrent
import Librefw.Bogon.Readers
import Librefw.Bogon.Linear
import Librefw.Kernel.Model.Concurrent
import Librefw.Kernel.Concurrent
import Librefw.Filter.Model.Concurrent
import Librefw.Filter.Concurrent
import Librefw.Filter.Sections
import Librefw.Filter.Progress
import Librefw.Filter.Quiet
import Librefw.Kernel.Model.Dispatch
import Librefw.Client.Model.Command
import Librefw.Deployment.Model.World
import Librefw.Deployment.Messages
import Librefw.Deployment.Verdict
import Librefw.Deployment.Provenance
import Librefw.Common.CString
import Librefw.Bogon.Lines
import Librefw.Kernel.Model.Log
import Librefw.Client.Model.Log
import Librefw.Client.Log
import Librefw.Deployment.Transcript
import Librefw.Kernel.Model.Holdings
import Librefw.Kernel.Holdings
import Librefw.Common.Netlink
import Librefw.Kernel.Model.NlOps
import Librefw.Kernel.NlOps
import Librefw.Kernel.Model.Utils
import Librefw.Kernel.Utils
import Librefw.Hcf.Model.Tree
import Librefw.Hcf.Model.State
import Librefw.Hcf.State
import Librefw.Hcf.Refinement
import Librefw.Common.Footprint
import Librefw.Hcf.Model.Concurrent
import Librefw.Hcf.Ledger
import Librefw.Hcf.Readers
import Librefw.Hcf.Model.Watch
import Librefw.Hcf.Watch
import Librefw.Hcf.WatchStep
import Librefw.Hcf.Announce
import Librefw.Bogon.Model.Tree
import Librefw.Common.TrieBuild
import Librefw.Bogon.Tree
import Librefw.Bogon.State
import Librefw.Kernel.Model.Policy
import Librefw.Bogon.Set
import Librefw.Kernel.Model.State
import Librefw.Kernel.State
import Librefw.Filter.Model.Hooks
import Librefw.Filter.Verdict
import Librefw.Kernel.Model.Nl
import Librefw.Hcf.Model.Message
import Librefw.Client.Model.Base
import Librefw.Client.Base
import Librefw.Client.Model.Hcf
import Librefw.Kernel.Nl
import Librefw.Client.Hcf
import Librefw.Log.Model.PacketFilter
import Librefw.Client.Model.PacketFilterLog
import Librefw.Log.PacketFilter
import Librefw.Client.PacketFilterLog
import Librefw.Common.Text
import Librefw.Client.Model.Bogon
import Librefw.Client.Bogon
import Librefw.Bogon.Bounds
import Librefw.Hcf.History
import Librefw.Client.History
import Librefw.Client.Restore
import Librefw.Hcf.Complete
import Librefw.Hcf.Runs
import Librefw.Common.Trace
import Librefw.Filter.Model.Traffic
import Librefw.Filter.Attack
import Librefw.Kernel.Model.Lifetime
import Librefw.Kernel.Lifetime
import Librefw.Log.Model.Flush
import Librefw.Log.Flush
import Librefw.Kernel.Model.Reclaim
import Librefw.Bogon.Ledger
import Librefw.Kernel.Reclaim
import Librefw.Common.Budget
import Librefw.Bogon.Atomic
import Librefw.Hcf.Atomic
import Librefw.Client.Learn
import Librefw.Filter.Learning
import Librefw.Kernel.Model.Validation
import Librefw.Kernel.Validation
import Librefw.Client.BogonGrammar
import Librefw.Log.Model.RingBuffer
import Librefw.Log.RingBuffer
import Librefw.Log.Pages
import Librefw.Log.Model.FullFlush
import Librefw.Log.FullFlush
import Librefw.Log.Model.Hotplug
import Librefw.Log.Hotplug
