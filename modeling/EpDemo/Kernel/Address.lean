import EpDemo.Kernel.Launch

/-!
# `EpDemo.Kernel.Address`: the addresses and queue pairs the kernels use

A pointer into communication memory is the rank whose buffer it points into and a byte offset
from the base of that buffer. The kernels compute every destination as a pointer into their
own buffer and then move it to the destination rank. `Fabric.target` is this move: the local
path keeps the pointer, the NVLink path adds its displacement to `ipc_peer_ptrs[dst_rank]`
and the RDMA path adds it to `raddr_array[dst_rank]`.
-/

set_option autoImplicit false

namespace EpDemo.Kernel

/-- A pointer into the communication buffer of a rank. -/
structure Ptr where
  rank : ℕ
  offset : ℤ
  deriving DecidableEq, Repr

namespace Ptr

/-- Pointer plus bytes. -/
def add (p : Ptr) (bytes : ℤ) : Ptr := { p with offset := p.offset + bytes }

/-- The bytes from `q` to `p`, two pointers into one buffer. -/
def sub (p q : Ptr) : ℤ := p.offset - q.offset

end Ptr

/-- `BufferLayout`: the four regions of one buffer, as byte offsets from the base. -/
structure BufferLayout where
  rdmaSendSignalBuffer : ℤ
  rdmaRecvSignalBuffer : ℤ
  rdmaSendDataBuffer : ℤ
  rdmaRecvDataBuffer : ℤ

/-- How a rank reaches another one. -/
inductive Path
  | local
  | nvlink
  | rdma
  deriving DecidableEq, Repr

/-- What every rank knows about the memory of the others, and the regions of the buffers. -/
structure Fabric where
  nvlinkAvailable : ℕ → ℕ → Bool
  ipcPeerPtrs : ℕ → ℕ → Ptr
  raddrArray : ℕ → ℕ → Ptr
  buffers : ℕ → BufferLayout

namespace Fabric

variable (f : Fabric)

/-- `mxa_buffer` of a rank. -/
def mxaBuffer (r : ℕ) : Ptr := ⟨r, 0⟩

/-- The path that the kernels choose from `rank` to `dst_rank`. -/
def path (rank dstRank : ℕ) : Path :=
  if dstRank = rank then .local
  else if f.nvlinkAvailable rank dstRank then .nvlink
  else .rdma

/-- Where an access of `rank` to `dst_rank` goes, given the pointer into the own buffer. -/
def target (rank dstRank : ℕ) (p : Ptr) : Ptr :=
  match f.path rank dstRank with
  | .local => p
  | .nvlink => (f.ipcPeerPtrs rank dstRank).add (p.sub (mxaBuffer rank))
  | .rdma => (f.raddrArray rank dstRank).add (p.sub (mxaBuffer rank))

/-- `ipc_peer_ptrs[d]` and `raddr_array[d]` both denote the base of the buffer of rank `d`. -/
def Mapped : Prop :=
  ∀ r d, f.ipcPeerPtrs r d = mxaBuffer d ∧ f.raddrArray r d = mxaBuffer d

/-- Entry `i` of `rdma_send_signal_buffer` of a rank. -/
def sendSignal (buf r : ℕ) (i : ℕ) : Ptr :=
  (mxaBuffer r).add ((f.buffers buf).rdmaSendSignalBuffer + 4 * i)

/-- Entry `i` of `rdma_recv_signal_buffer` of a rank. -/
def recvSignal (buf r : ℕ) (i : ℕ) : Ptr :=
  (mxaBuffer r).add ((f.buffers buf).rdmaRecvSignalBuffer + 4 * i)

/-- Byte `bytes` of `rdma_send_data_buffer` of a rank. -/
def sendData (buf r : ℕ) (bytes : ℤ) : Ptr :=
  (mxaBuffer r).add ((f.buffers buf).rdmaSendDataBuffer + bytes)

/-- Byte `bytes` of `rdma_recv_data_buffer` of a rank. -/
def recvData (buf r : ℕ) (bytes : ℤ) : Ptr :=
  (mxaBuffer r).add ((f.buffers buf).rdmaRecvDataBuffer + bytes)

end Fabric

/-! ### Queue pairs -/

/-- `num_qp_per_rank`. -/
def numQpPerRank (maxQpCount numRanks : ℕ) : ℕ := maxQpCount / numRanks

/-- The index into `ctx_array` of the queue pair for a destination rank and one of its local
experts. -/
def ctxIndex (maxQpCount numRanks dstRank localExpert : ℕ) : ℕ :=
  dstRank * numQpPerRank maxQpCount numRanks + localExpert % numQpPerRank maxQpCount numRanks

/-- The queue pair of the data write of `dispatch`. -/
def dispatchDataCtx (maxQpCount numRanks dstRank dstExpertLocalIdx : ℕ) : ℕ :=
  ctxIndex maxQpCount numRanks dstRank dstExpertLocalIdx

/-- The queue pair of the signal of `dispatch`. -/
def dispatchSignalCtx (maxQpCount numRanks dstRank dstExpertLocalIdx : ℕ) : ℕ :=
  ctxIndex maxQpCount numRanks dstRank dstExpertLocalIdx

/-- The queue pair of the data write of `combine`. -/
def combineDataCtx (maxQpCount numRanks dstRank localExpertIdx : ℕ) : ℕ :=
  ctxIndex maxQpCount numRanks dstRank localExpertIdx

/-- The queue pair of the signal of `combine`. -/
def combineSignalCtx (maxQpCount numRanks dstRank localExpertIdx : ℕ) : ℕ :=
  ctxIndex maxQpCount numRanks dstRank localExpertIdx

/-! ### Messages -/

/-- The shape of a payload: `kHidden`, and `kUseFP8` of the dispatch. -/
structure Shape where
  hidden : ℕ
  useFp8 : Bool
  deriving DecidableEq, Repr

namespace Shape

variable (p : Shape)

/-- The hidden sizes that the launch functions accept. -/
def Supported : Prop := p.hidden ∈ [2048, 2560, 3072, 4096, 5120, 6144, 7168, 8192]

instance : Decidable p.Supported := inferInstanceAs (Decidable (_ ∈ _))

/-- `num_scales`. -/
def numScales : ℕ := p.hidden / 128

/-- `hidden_bytes` of `dispatch`. -/
def hiddenBytes : ℕ := p.hidden * (if p.useFp8 then 1 else 2)

/-- `num_bytes_per_msg` of `dispatch`: a 16-byte header, the payload and the scales. -/
def numBytesPerMsg : ℕ := 16 + if p.useFp8 then p.hidden + p.numScales * 4 else p.hidden * 2

/-- `num_bytes_per_slot` of `combine`. -/
def numBytesPerSlot : ℕ := p.hidden * 2

/-- The thread of the token warps that writes a 32-bit word of a staging row, if any does:
the token index, the vectors of the payload in turn, and the scales. The words of the header
after the first are not written. -/
def stagingThread (word : ℕ) : Option ℕ :=
  let numThreads := numTokenWarps * 32
  let wordsPerVec := if p.useFp8 then 2 else 4
  if word = 0 then some 0
  else if word < 4 then none
  else if word < 4 + p.hiddenBytes / 4 then some ((word - 4) / wordsPerVec % numThreads)
  else if word < p.numBytesPerMsg / 4 then
    some (16 * (word - 4 - p.hiddenBytes / 4) % numThreads)
  else none

end Shape

end EpDemo.Kernel
