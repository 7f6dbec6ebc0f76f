import Mathlib.Data.Int.Notation
import Mathlib.Data.Nat.Notation
import Mathlib.Logic.Function.Basic

/-!
# `EpDemo.Buffer.NvlinkIpc`: which peers are reached over NVLink

`sync_nvlink_ipc_handles` opens the IPC handles of the ranks on the same node. It fills two arrays
that the kernels read: `nvlink_available`, which it builds anew in every call, and
`ipc_peer_ptrs`, which keeps what earlier calls put there.

What the CUDA calls answer is an argument of the call. A mapped pointer is the handle that it is a
mapping of.
-/

set_option autoImplicit false

namespace EpDemo.Buffer

/-- An entry of `ipc_peer_ptrs`. -/
inductive PeerPtr
  | null
  /-- `gdr_buffer` of the rank itself. -/
  | gdrBuffer
  /-- What `cudaIpcOpenMemHandle` gave for a handle. -/
  | mapping (handle : List (BitVec 32))
  deriving DecidableEq, Repr

/-- The answers of CUDA that the call distinguishes. -/
inductive CudaError
  | success
  | peerAccessAlreadyEnabled
  | other
  deriving DecidableEq, Repr

/-- The parts of `EpBuffer` that do not change. -/
structure IpcBuffer where
  rank : ℕ
  numRanks : ℕ
  deviceId : ℕ
  useFabricMem : Bool
  rank_lt : rank < numRanks

/-- The parts of `EpBuffer` that a call changes. -/
structure IpcState where
  nvlinkAvailable : ℕ → ℤ
  ipcPeerPtrsHost : ℕ → PeerPtr
  ipcPeerPtrs : ℕ → PeerPtr
  p2pIpcAllEnabled : Bool

/-- The arguments of one call and the answers of CUDA: to `cudaDeviceCanAccessPeer` and
`cudaDeviceEnablePeerAccess` by device, and to `cudaIpcOpenMemHandle` by rank. -/
structure IpcCall where
  remoteHandles : List (List (BitVec 32))
  activeRanksMask : ℕ → BitVec 32
  deviceCount : ℕ
  deviceCount_pos : 0 < deviceCount
  canAccessPeer : ℕ → ℕ → CudaError × ℤ
  enablePeerAccess : ℕ → CudaError
  openMemHandle : ℕ → CudaError

/-- `num_int32s`: the 64 bytes of a `cudaIpcMemHandle_t`. -/
def numInt32s : ℕ := (64 + 4 - 1) / 4

section

variable (ep : IpcBuffer) (call : IpcCall)

/-- `group_start`. -/
def groupStart : ℕ := ep.rank / call.deviceCount * call.deviceCount

/-- `group_end`. -/
def groupEnd : ℕ := min (groupStart ep call + call.deviceCount) ep.numRanks

/-- The device of a rank can be accessed. -/
def peerAccess (dstRank : ℕ) : Bool :=
  let dstDevice := dstRank % call.deviceCount
  let answer := call.canAccessPeer ep.deviceId dstDevice
  let peerErr := call.enablePeerAccess dstDevice
  (answer.1 == .success && answer.2 != 0) &&
    (peerErr == .success || peerErr == .peerAccessAlreadyEnabled)

/-- The arrays that a call builds: `nvlink_array` and `ipc_peer_ptrs_host`. -/
structure IpcArrays where
  nvlinkArray : ℕ → ℤ
  ipcPeerPtrsHost : ℕ → PeerPtr

/-- The body of the loop over the ranks of the node. -/
def openPeer (s : IpcArrays) (dstRank : ℕ) : IpcArrays :=
  if call.activeRanksMask dstRank = 0 then s
  else if dstRank = ep.rank then
    { s with ipcPeerPtrsHost := Function.update s.ipcPeerPtrsHost dstRank .gdrBuffer }
  else if peerAccess ep call dstRank then
    let s := { s with nvlinkArray := Function.update s.nvlinkArray dstRank 1 }
    match call.remoteHandles[dstRank]? with
    -- "missing IPC handle": continue.
    | none => s
    | some handleInts =>
      -- "invalid IPC handle size": continue.
      if handleInts.length < numInt32s then s
      else if call.openMemHandle dstRank = .success then
        { s with
          ipcPeerPtrsHost := Function.update s.ipcPeerPtrsHost dstRank
            (.mapping (handleInts.take numInt32s)) }
      else { s with nvlinkArray := Function.update s.nvlinkArray dstRank 0 }
  else s

/-- The loop over the ranks in fabric mode. -/
def fabricPeer (s : IpcArrays) (i : ℕ) : IpcArrays :=
  if call.activeRanksMask i = 0 then s
  else
    { nvlinkArray := Function.update s.nvlinkArray i 1
      ipcPeerPtrsHost := Function.update s.ipcPeerPtrsHost i
        (if i = ep.rank then .gdrBuffer else .null) }

/-- The arrays before the loop: only the rank itself is available. -/
def startArrays (ipcPeerPtrsHost : ℕ → PeerPtr) : IpcArrays where
  nvlinkArray := Function.update (fun _ => 0) ep.rank 1
  ipcPeerPtrsHost := ipcPeerPtrsHost

/-- The arrays after the loop of the mode. -/
def ipcArrays (ipcPeerPtrsHost : ℕ → PeerPtr) : IpcArrays :=
  if ep.useFabricMem then
    (List.range' 0 ep.numRanks).foldl (fabricPeer ep call) (startArrays ep ipcPeerPtrsHost)
  else
    (List.range' (groupStart ep call) (groupEnd ep call - groupStart ep call)).foldl
      (openPeer ep call) (startArrays ep ipcPeerPtrsHost)

/-- `p2p_ipc_all_enabled_`: outside fabric mode, every active rank is on the node and was opened. -/
def p2pIpcAllEnabled (s : IpcArrays) : Bool :=
  ep.useFabricMem ||
    (decide (∀ i < ep.numRanks, call.activeRanksMask i ≠ 0 →
      s.nvlinkArray i ≠ 0 ∧ s.ipcPeerPtrsHost i ≠ .null) &&
    (decide (ep.numRanks ≤ 1) || 0 / call.deviceCount == (ep.numRanks - 1) / call.deviceCount))

/-- `EpBuffer::sync_nvlink_ipc_handles`. -/
def syncNvlinkIpcHandles (s : IpcState) : IpcState :=
  let arrays := ipcArrays ep call s.ipcPeerPtrsHost
  { nvlinkAvailable := arrays.nvlinkArray
    ipcPeerPtrsHost := arrays.ipcPeerPtrsHost
    ipcPeerPtrs := arrays.ipcPeerPtrsHost
    p2pIpcAllEnabled := p2pIpcAllEnabled ep call arrays }

end

/-- What the constructor leaves. -/
def IpcState.start : IpcState where
  nvlinkAvailable _ := 0
  ipcPeerPtrsHost _ := .null
  ipcPeerPtrs _ := .null
  p2pIpcAllEnabled := false

/-- A sequence of calls. -/
def syncCalls (ep : IpcBuffer) (calls : List IpcCall) : IpcState :=
  calls.foldl (fun s call => syncNvlinkIpcHandles ep call s) .start

end EpDemo.Buffer
