import EpDemo.Memheap
import EpDemo.Proofs.Memheap.Table
import EpDemo.Proofs.Memheap.Disjoint
import EpDemo.Buffer.Sync
import EpDemo.Proofs.Buffer.Matching
import EpDemo.Kernel.Address
import EpDemo.Kernel.Dispatch
import EpDemo.Proofs.Kernel.QpSlots
import EpDemo.Kernel.Combine
import EpDemo.Library.Counting
import EpDemo.Proofs.Kernel.SentCount
import EpDemo.Proofs.Kernel.DispatchSend
import EpDemo.Proofs.Kernel.CombineSend
import EpDemo.System.World
import EpDemo.Library.Handshake
import EpDemo.Proofs.Kernel.DispatchRun
import EpDemo.Proofs.Kernel.CombineRun
import EpDemo.Proofs.System.Launches
import EpDemo.Proofs.System.Messages
import EpDemo.Proofs.System.Queues
import EpDemo.Proofs.System.Cells
import EpDemo.Proofs.System.Signals
import EpDemo.Proofs.System.Memory
import EpDemo.Proofs.System.DoubleBuffer
import EpDemo.Proofs.System.Undisturbed
import EpDemo.Proofs.System.Waits
import EpDemo.Proofs.System.Source
import EpDemo.Proofs.System.Delivery
import EpDemo.Proofs.System.Slots
import EpDemo.Proofs.System.Outputs
import EpDemo.Proofs.System.DispatchDelivers
import EpDemo.Proofs.System.Routing
import EpDemo.Buffer.Layout
import EpDemo.Proofs.Buffer.Layout
import EpDemo.Proofs.System.Containment
import EpDemo.Buffer.Bootstrap
import EpDemo.Proofs.Buffer.Bootstrap
import EpDemo.Buffer.NvlinkIpc
import EpDemo.Proofs.Buffer.NvlinkIpc
import EpDemo.Proofs.System.SendRows
import EpDemo.Kernel.Stream
import EpDemo.Proofs.Kernel.Workspace
import EpDemo.Kernel.Residency
import EpDemo.Proofs.Kernel.Residency
import EpDemo.Library.Ring
import EpDemo.System.SendRing
import EpDemo.Proofs.System.SendRing
import EpDemo.Proofs.System.FirstUse
import EpDemo.Proofs.System.LateSignals
import EpDemo.Proofs.System.StaleRows
import EpDemo.Proofs.System.CombineReduces
import EpDemo.Proofs.System.Transports
import EpDemo.Proofs.System.SharedBuffer
import EpDemo.Proofs.Memheap.Bounds
import EpDemo.Proofs.Memheap.Counter
import EpDemo.Proofs.Memheap.Recorded
import EpDemo.Proofs.Memheap.Replay
import EpDemo.Kernel.Experts
import EpDemo.Proofs.Kernel.Experts
import EpDemo.Library.Ledger
import EpDemo.Mlx5gda
import EpDemo.Proofs.Memheap.Used
import EpDemo.Proofs.Mlx5gda.Create
import EpDemo.Buffer.Lifecycle
import EpDemo.Proofs.Buffer.Setup
import EpDemo.Proofs.Buffer.Construct
import EpDemo.Proofs.Buffer.Calls
import EpDemo.Proofs.Buffer.FaultFree
import EpDemo.Proofs.Buffer.Recovery
import EpDemo.Proofs.Buffer.Enabled
import EpDemo.Proofs.Buffer.Rebuild
import EpDemo.Proofs.Buffer.Transitions
import EpDemo.Proofs.Buffer.Ownership
import EpDemo.Proofs.Buffer.Lifetime
import EpDemo.Kernel.WarpCopy
import EpDemo.Proofs.Kernel.WarpCopy
import EpDemo.Mlx5gda.RingSizes
import EpDemo.Proofs.Mlx5gda.RingSizes
import EpDemo.Kernel.Wqe
import EpDemo.Proofs.Kernel.Wqe
import EpDemo.Kernel.PostSend
import EpDemo.Proofs.Kernel.PostSend
import EpDemo.Kernel.PollCq
import EpDemo.Library.Serial
import EpDemo.Proofs.Kernel.PollCq
import EpDemo.Proofs.System.Alignment
import EpDemo.Proofs.Kernel.DispatchSlots
import EpDemo.Proofs.System.SubBlocks
import EpDemo.Library.Fairness
import EpDemo.Proofs.Kernel.DispatchProgress
import EpDemo.Proofs.Kernel.CombineProgress
import EpDemo.Proofs.System.StepsLeft
import EpDemo.Proofs.System.Progress
import EpDemo.Proofs.System.Alone
import EpDemo.Proofs.System.Rounds
import EpDemo.Library.Butterfly
import EpDemo.Kernel.Staging
import EpDemo.Proofs.Kernel.Staging
import EpDemo.Library.Stores
import EpDemo.Proofs.System.StagedRows
import EpDemo.Kernel.NetworkCard
import EpDemo.Proofs.Kernel.NetworkCard
import EpDemo.Library.Mailbox
import EpDemo.Mlx5gda.Commands
import EpDemo.Proofs.Mlx5gda.Commands
import EpDemo.Library.Descent
import EpDemo.Library.Channels
import EpDemo.Buffer.Wire
import EpDemo.Proofs.Buffer.Wire
import EpDemo.Proofs.Buffer.Exchange
import EpDemo.Proofs.System.GivenUp
