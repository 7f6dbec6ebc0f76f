import EpDemo.Kernel.Address

/-!
# `EpDemo.Buffer.Layout`: how `BufferPair` cuts the communication buffer

`BufferPair` places two buffers one behind the other. Each has a send and a receive region for
signals, one `int` for an expert, and a send and a receive region for data. The constructor is
translated with the arithmetic of its types: the number of rows is an `int` product, and
everything else is a `size_t`.

Nothing here or in the source chooses between the two buffers: `buffer_idx` is set to zero and
never changes.
-/

set_option autoImplicit false

namespace EpDemo.Buffer

open EpDemo.Kernel

/-- The `size_t` with the low 64 bits of `z`. -/
def toSizeT (z : ℤ) : ℕ := (z % 2 ^ 64).toNat

/-- `BufferPair`. -/
structure BufferPair where
  totalBytes : ℕ
  buffers : ℕ → BufferLayout

/-- `signaling_buffer_bytes`. -/
def signalingBufferBytes (numExperts : ℕ) : ℕ := toSizeT (numExperts * 4)

/-- `send_recv_buffer_bytes`. -/
def sendRecvBufferBytes (numMaxDispatchTokensPerRank hidden numExperts : ℕ) : ℕ :=
  toSizeT (toInt32 (numExperts * numMaxDispatchTokensPerRank) * (2 * 16 + hidden * 2))

/-- `rdma_base_offset` of buffer `i`. -/
def rdmaBaseOffset (signaling sendRecv i : ℕ) : ℕ := toSizeT (2 * i * signaling + 2 * i * sendRecv)

/-- The constructor of `BufferPair`. -/
def BufferPair.new (rdmaBuffer : ℤ) (numMaxDispatchTokensPerRank hidden _numRanks numExperts : ℕ) :
    BufferPair :=
  let signaling := signalingBufferBytes numExperts
  let sendRecv := sendRecvBufferBytes numMaxDispatchTokensPerRank hidden numExperts
  { totalBytes := toSizeT (4 * signaling + 4 * sendRecv)
    buffers := fun i =>
      let base := rdmaBaseOffset signaling sendRecv i
      { rdmaSendSignalBuffer := rdmaBuffer + base
        rdmaRecvSignalBuffer := rdmaBuffer + toSizeT (base + signaling)
        rdmaSendDataBuffer := rdmaBuffer + toSizeT (base + 2 * signaling)
        rdmaRecvDataBuffer := rdmaBuffer + toSizeT (base + 2 * signaling + sendRecv) } }

/-- `get_ep_buffer_size_hint`. -/
def getEpBufferSizeHint (numMaxDispatchTokensPerRank hidden numRanks numExperts : ℕ) : ℕ :=
  (BufferPair.new 0 numMaxDispatchTokensPerRank hidden numRanks numExperts).totalBytes

/-! ### Regions -/

/-- The regions of one buffer. -/
inductive Region
  | sendSignal
  | recvSignal
  | sendData
  | recvData
  deriving DecidableEq, Repr

/-- Where a region starts. -/
def Region.start (layout : BufferLayout) : Region → ℤ
  | .sendSignal => layout.rdmaSendSignalBuffer
  | .recvSignal => layout.rdmaRecvSignalBuffer
  | .sendData => layout.rdmaSendDataBuffer
  | .recvData => layout.rdmaRecvDataBuffer

/-- The size of a region. -/
def Region.size (numMaxDispatchTokensPerRank hidden numExperts : ℕ) : Region → ℕ
  | .sendSignal | .recvSignal => signalingBufferBytes numExperts
  | .sendData | .recvData => sendRecvBufferBytes numMaxDispatchTokensPerRank hidden numExperts

end EpDemo.Buffer
