import EpDemo.Buffer.NvlinkIpc
import EpDemo.Buffer.Sync
import EpDemo.Library.Loop
import EpDemo.Library.Transition
import EpDemo.Mlx5gda

/-!
# `EpDemo.Buffer.Lifecycle`: set-up, rebuild and tear-down of `EpBuffer`

The constructor of `EpBuffer` and `init_ibgda` acquire resources one after the other, and any of
the calls they make can fail. `update_local_qpns` destroys the queue pairs and makes new ones,
`sync_ib` and `sync_roce` bring them to RTS, and `sync_nvlink_ipc_handles` opens the memory of other
ranks. The destructor releases what it finds in the members.

What the driver, the device and the CUDA runtime answer is an argument of every call, as in
`EpDemo.Mlx5gda`. A call ends early with an `Exit`: the source returns at a failure, throws, ends
the process, or does something that has no defined behaviour. A caller can go on after the first
two. A member that holds a pointer to a resource holds its number in the ledger; the resources of
the queue pairs are in the ledger of the device.
-/

set_option autoImplicit false

namespace EpDemo.Lifecycle

open EpDemo.Library EpDemo.Memheap EpDemo.Mlx5gda
open EpDemo.Buffer (IpcBuffer IpcCall IpcState PeerPtr maxQpCount peerRank peerAccess groupStart
  groupEnd numInt32s ipcArrays p2pIpcAllEnabled)

/-- Why a call did not run to its end. -/
inductive Exit
  /-- It returned at a failure: with `-1`, or after `ibgda_disabled_` was set. -/
  | failed
  | threw
  /-- `exit(1)`. -/
  | exited
  /-- A read outside a vector or through a null pointer. -/
  | undefined
  deriving DecidableEq, Repr

/-- The resources of an `EpBuffer`, other than those of its queue pairs. -/
inductive Resource
  | gdrBuffer
  | fabricMemHandle
  | fabricAddress
  | fabricMapping
  | raddrs
  | rkeys
  | qpDevctxs
  | nvlinkAvailable
  | ipcPeerPtrsHost
  | ipcPeerPtrs
  | commStream
  | pd
  | mr
  | ctrlBuf
  | ctrlBufUmem
  | ctrlBufHeap
  | workspace
  | ipcMapping
  deriving DecidableEq, Repr

/-- `struct mlx5gda_qp_devctx`, as far as the host fills it in. `wq`, `cq` and `dbr` are offsets
into the control buffer. -/
structure QpDevctx where
  qpn : ℕ
  wqeidMask : ℕ
  wq : ℕ
  cq : ℕ
  dbr : ℕ
  bf : ℕ
  deriving DecidableEq, Repr

/-- What the device needs to know about a queue pair. -/
def QpDevctx.ofQp (qp : Qp) : QpDevctx where
  qpn := qp.qpn
  wqeidMask := qp.numWqebb - 1
  wq := qp.wqOffset
  cq := qp.sendCq.cqOffset
  dbr := qp.dbrOffset
  bf := qp.uar

/-- `EpBuffer`. A pointer that is null is `none`. `pdInitialised` is that `mlx5dv_init_obj` filled
in `mpd`. `mappings` are the numbers of the mappings in `ipc_peer_ptrs_host`. -/
structure EpBuffer where
  config : IpcBuffer
  device : Device
  ledger : Ledger Resource
  pointers : Resource → Option ℕ
  pdInitialised : Bool
  qps : List (Option Qp)
  qpDevctxs : ℕ → Option QpDevctx
  ibgdaDisabled : Bool
  ipc : IpcState
  mappings : ℕ → Option ℕ

/-- `CTRL_BUF_SIZE`. -/
def ctrlBufSize : ℕ := 1024 * 1024 * 1024

/-- The depth of every queue pair, in work-queue entries. -/
def qpDepth : ℤ := 16384

namespace EpBuffer

/-- The members before the constructor runs. -/
def blank (config : IpcBuffer) : EpBuffer where
  config := config
  device := .fresh 0
  ledger := .empty
  pointers _ := none
  pdInitialised := false
  qps := []
  qpDevctxs _ := none
  ibgdaDisabled := false
  ipc := .start
  mappings _ := none

/-- `USE_QP_COUNT`. -/
def useQpCount (ep : EpBuffer) : ℕ := Buffer.useQpCount maxQpCount ep.config.numRanks

/-- A resource is acquired, and its member points to it. -/
def acquire (ep : EpBuffer) (k : Resource) : EpBuffer :=
  { ep with
    ledger := ep.ledger.acquire k
    pointers := Function.update ep.pointers k (some ep.ledger.next) }

/-- What a member points to is released. A null pointer is left alone. -/
def release (ep : EpBuffer) (k : Resource) : EpBuffer :=
  match ep.pointers k with
  | none => ep
  | some id =>
    { ep with
      ledger := ep.ledger.release (k, id)
      pointers := Function.update ep.pointers k none }

/-! ### Queue pairs -/

/-- The answers while slot `i` of the queue pairs is set up. -/
structure SetupAnswers where
  create : QpAnswers
  rst2init : Bool
  synchronize : Bool
  memcpy : Bool

/-- Every step succeeds. -/
def SetupAnswers.success (linkLayer : LinkLayer) (cqn qpn : ℕ) : SetupAnswers where
  create := .success linkLayer cqn qpn
  rst2init := true
  synchronize := true
  memcpy := true

/-- What the loops of `init_ibgda` and `update_local_qpns` have in common: create a queue pair,
bring it to INIT, wait for the stream and copy its context to the device. The copy is not
checked. -/
def setUpQp (ep : EpBuffer) (i : ℕ) (ans : SetupAnswers) : EpBuffer × Except Exit Qp :=
  match mlx5gdaCreateRcQp ep.device qpDepth ans.create with
  | (d, none) => ({ ep with device := d }, .error .failed)
  | (d, some qp) =>
    match mlx5gdaModifyRcQpRst2init d (some qp) ans.rst2init with
    | (d, false) => ({ ep with device := d }, .error .failed)
    | (d, true) =>
      if !ans.synchronize then ({ ep with device := d }, .error .threw)
      else
        ({ ep with
            device := d
            qpDevctxs := if ans.memcpy then
              Function.update ep.qpDevctxs i (some (.ofQp qp)) else ep.qpDevctxs },
          .ok qp)

/-- One turn of the loop of `init_ibgda`. -/
def initSlot (setups : ℕ → SetupAnswers) (ep : EpBuffer) (i : ℕ) : EpBuffer × Option Exit :=
  match ep.setUpQp i (setups i) with
  | (ep, .ok qp) => ({ ep with qps := ep.qps ++ [some qp] }, none)
  | (ep, .error e) => (ep, some e)

/-- One turn of the first loop of `update_local_qpns`. -/
def destroySlot (ep : EpBuffer) (i : ℕ) : EpBuffer × Option Exit :=
  match ep.qps[i]? with
  | none => (ep, some .undefined)
  | some none => (ep, none)
  | some (some qp) =>
    ({ ep with device := mlx5gdaDestroyQp ep.device qp, qps := ep.qps.set i none }, none)

/-- One turn of the second loop of `update_local_qpns`. -/
def rebuildSlot (setups : ℕ → SetupAnswers) (ep : EpBuffer) (i : ℕ) : EpBuffer × Option Exit :=
  match ep.setUpQp i (setups i) with
  | (ep, .ok qp) => ({ ep with qps := ep.qps.set i (some qp) }, none)
  | (ep, .error .failed) => ({ ep with ibgdaDisabled := true }, some .failed)
  | (ep, .error e) => (ep, some e)

/-- The first loop of `update_local_qpns`. -/
def destroyQps (ep : EpBuffer) : EpBuffer × Option Exit :=
  forEach destroySlot (List.range' 0 ep.useQpCount) ep

/-- The second loop of `update_local_qpns`. -/
def rebuildQps (setups : ℕ → SetupAnswers) (ep : EpBuffer) : EpBuffer × Option Exit :=
  forEach (rebuildSlot setups) (List.range' 0 ep.useQpCount) ep

/-- `EpBuffer::update_local_qpns`. -/
def updateLocalQpns (ep : EpBuffer) (setups : ℕ → SetupAnswers) : EpBuffer × Option Exit :=
  andThen ep.destroyQps (rebuildQps setups)

/-! ### The constructor -/

/-- The answers during `init_ibgda`. `deviceFound` is that a device has the name that was asked
for, and `gidFound` that `findBestGidIndex` finds an entry that suits. -/
structure InitAnswers where
  deviceFound : Bool
  openDevice : Bool
  queryPort : Bool
  gidFound : Bool
  queryGid : Bool
  allocPd : Bool
  initObj : Bool
  regMr : Bool
  ctrlBuf : Bool
  umemReg : Bool
  heapCreate : Bool
  setups : ℕ → SetupAnswers

/-- Every step succeeds. The numbers of the queues are those of their slots. -/
def InitAnswers.success (linkLayer : LinkLayer) : InitAnswers where
  deviceFound := true
  openDevice := true
  queryPort := true
  gidFound := true
  queryGid := true
  allocPd := true
  initObj := true
  regMr := true
  ctrlBuf := true
  umemReg := true
  heapCreate := true
  setups i := .success linkLayer i i

/-- `EpBuffer::init_ibgda`, once the protection domain is there. Without `mlx5dv_init_obj` and
without the memory region it goes on. -/
def initMemory (ep : EpBuffer) (ans : InitAnswers) : EpBuffer × Option Exit :=
  let ep := { ep.acquire .pd with pdInitialised := ans.initObj }
  let ep := if ans.regMr then ep.acquire .mr else ep
  if !ans.ctrlBuf then (ep, some .threw)
  else
    let ep := ep.acquire .ctrlBuf
    if !ans.umemReg then (ep.release .mr, some .failed)
    else
      let ep := ep.acquire .ctrlBufUmem
      if !ans.heapCreate then (ep, some .failed)
      else
        let ep := ep.acquire .ctrlBufHeap
        let ep := { ep with device := { ep.device with heap := memheapCreate ctrlBufSize } }
        forEach (initSlot ans.setups) (List.range' 0 ep.useQpCount) ep

/-- `EpBuffer::init_ibgda`. It returns `-1` when it fails. -/
def initIbgda (ep : EpBuffer) (ans : InitAnswers) : EpBuffer × Option Exit :=
  if !ans.deviceFound then (ep, some .threw)
  else if !ans.openDevice then (ep, some .failed)
  else if !ans.queryPort then (ep, some .failed)
  else if !ans.gidFound then (ep, some .failed)
  else if !ans.queryGid then (ep, some .failed)
  else if !ans.allocPd then (ep, some .failed)
  else ep.initMemory ans

/-- A call under `CUDA_CHECK`. -/
inductive Checked
  | call (ok : Bool)
  /-- A call that acquires a resource when it succeeds. -/
  | acquire (k : Resource) (ok : Bool)

/-- `CUDA_CHECK`. -/
def cudaCheck (ep : EpBuffer) : Checked → EpBuffer × Option Exit
  | .call ok => (ep, if ok then none else some .threw)
  | .acquire k ok => if ok then (ep.acquire k, none) else (ep, some .threw)

/-- The answers while the buffer is allocated in fabric mode. -/
structure FabricAnswers where
  deviceGet : Bool
  granularity : Bool
  memCreate : Bool
  addressReserve : Bool
  memMap : Bool
  setAccess : Bool

/-- The allocation of the buffer in fabric mode. -/
def allocFabric (ep : EpBuffer) (ans : FabricAnswers) : EpBuffer × Option Exit :=
  if !ans.deviceGet then (ep, some .threw)
  else if !ans.granularity then (ep, some .threw)
  else if !ans.memCreate then (ep, some .threw)
  else
    let ep := ep.acquire .fabricMemHandle
    if !ans.addressReserve then (ep.release .fabricMemHandle, some .threw)
    else
      let ep := ep.acquire .fabricAddress
      if !ans.memMap then ((ep.release .fabricAddress).release .fabricMemHandle, some .threw)
      else
        let ep := ep.acquire .fabricMapping
        if !ans.setAccess then
          (((ep.release .fabricMapping).release .fabricAddress).release .fabricMemHandle,
            some .threw)
        else (ep, none)

/-- The answers during the constructor. -/
structure NewAnswers where
  getDevice : Bool
  getAttribute : Bool
  fabric : FabricAnswers
  gdrBuffer : Bool
  raddrs : Bool
  rkeys : Bool
  qpDevctxs : Bool
  nvlinkAvailable : Bool
  nvlinkMemset : Bool
  ipcPeerPtrsHost : Bool
  ipcPeerPtrs : Bool
  ipcMemset : Bool
  commStream : Bool
  init : InitAnswers
  workspace : Bool
  workspaceMemset : Bool

/-- Every step of fabric mode succeeds. -/
def FabricAnswers.success : FabricAnswers where
  deviceGet := true
  granularity := true
  memCreate := true
  addressReserve := true
  memMap := true
  setAccess := true

/-- Every step succeeds, apart from `init_ibgda`. -/
def NewAnswers.success (init : InitAnswers) : NewAnswers where
  getDevice := true
  getAttribute := true
  fabric := .success
  gdrBuffer := true
  raddrs := true
  rkeys := true
  qpDevctxs := true
  nvlinkAvailable := true
  nvlinkMemset := true
  ipcPeerPtrsHost := true
  ipcPeerPtrs := true
  ipcMemset := true
  commStream := true
  init := init
  workspace := true
  workspaceMemset := true

/-- The allocation of `gdr_buffer`. -/
def allocGdrBuffer (ep : EpBuffer) (ans : NewAnswers) : EpBuffer × Option Exit :=
  if ep.config.useFabricMem then ep.allocFabric ans.fabric
  else ep.cudaCheck (.acquire .gdrBuffer ans.gdrBuffer)

/-- The allocations between `gdr_buffer` and `init_ibgda`. -/
def allocArrays (ep : EpBuffer) (ans : NewAnswers) : EpBuffer × Option Exit :=
  forEach cudaCheck
    [.acquire .raddrs ans.raddrs, .acquire .rkeys ans.rkeys, .acquire .qpDevctxs ans.qpDevctxs,
      .acquire .nvlinkAvailable ans.nvlinkAvailable, .call ans.nvlinkMemset,
      .acquire .ipcPeerPtrsHost ans.ipcPeerPtrsHost, .acquire .ipcPeerPtrs ans.ipcPeerPtrs,
      .call ans.ipcMemset, .acquire .commStream ans.commStream] ep

/-- The call of `init_ibgda` in the constructor: a result other than zero disables IBGDA. -/
def tryIbgda (ep : EpBuffer) (ans : InitAnswers) : EpBuffer × Option Exit :=
  match ep.initIbgda ans with
  | (ep, some .failed) => ({ ep with ibgdaDisabled := true }, none)
  | r => r

/-- The allocation of the workspace. -/
def allocWorkspace (ep : EpBuffer) (ans : NewAnswers) : EpBuffer × Option Exit :=
  forEach cudaCheck [.acquire .workspace ans.workspace, .call ans.workspaceMemset] ep

/-- The constructor of `EpBuffer`. -/
def new (config : IpcBuffer) (ans : NewAnswers) : EpBuffer × Option Exit :=
  andThen (forEach cudaCheck [.call ans.getDevice, .call ans.getAttribute] (blank config)) fun ep =>
  andThen (ep.allocGdrBuffer ans) fun ep =>
  andThen (ep.allocArrays ans) fun ep =>
  andThen (ep.tryIbgda ans.init) fun ep =>
  ep.allocWorkspace ans

/-! ### Connecting the queue pairs -/

/-- The answers while slot `i` is connected. -/
structure SyncAnswers where
  createAh : Bool
  init2rtr : Bool
  rtr2rts : Bool

/-- The arguments that `sync_ib` and `sync_roce` have in common, and the answers. -/
structure SyncArgs where
  remoteAddrs : List (BitVec 64)
  remoteKeys : List (BitVec 32)
  remoteQpns : List (BitVec 32)
  activeRanksMask : List (BitVec 32)
  answers : ℕ → SyncAnswers

/-- The vectors that a queue pair is addressed with: LIDs by slot, or GIDs by rank. -/
inductive Remote
  | ib (lids : List (BitVec 32))
  | roce (subnetPrefixes interfaceIds : List (BitVec 64))

/-- The vectors have the elements that slot `i` and its peer are connected with. -/
def Remote.covers (remoteQpns : List (BitVec 32)) (i peer : ℕ) : Remote → Bool
  | .ib lids => (lids[i]?).isSome && (remoteQpns[i]?).isSome
  | .roce subnetPrefixes interfaceIds =>
    (subnetPrefixes[peer]?).isSome && (interfaceIds[peer]?).isSome && (remoteQpns[i]?).isSome

/-- `sync_roce` reads the LID of the queue pair, which `sync_ib` does not. -/
def Remote.readsQp : Remote → Bool
  | .ib _ => false
  | .roce _ _ => true

/-- One turn of the first loop of `sync_ib` and `sync_roce`. -/
def syncSlot (args : SyncArgs) (remote : Remote) (ep : EpBuffer) (i : ℕ) :
    EpBuffer × Option Exit :=
  let peer := peerRank ep.config.numRanks ep.useQpCount i
  match args.activeRanksMask[peer]?, ep.qps[i]? with
  | none, _ => (ep, some .undefined)
  | some active, qp? =>
    if active = 0 then (ep, none)
    else
      match qp? with
      | none => (ep, some .undefined)
      | some qp =>
        if !remote.covers args.remoteQpns i peer || (remote.readsQp && qp.isNone) then
          (ep, some .undefined)
        else
          let ans := args.answers i
          match mlx5gdaModifyRcQpInit2rtr ep.device qp ans.createAh ans.init2rtr with
          | (d, false) => ({ ep with device := d }, some .exited)
          | (d, true) =>
            match mlx5gdaModifyRcQpRtr2rts d qp ans.rtr2rts with
            | (d, false) => ({ ep with device := d }, some .exited)
            | (d, true) => ({ ep with device := d }, none)

/-- One turn of the second loop of `sync_ib` and `sync_roce`, which reads the memory region for
the rank itself. -/
def publishRank (args : SyncArgs) (ep : EpBuffer) (i : ℕ) : EpBuffer × Option Exit :=
  match args.activeRanksMask[i]? with
  | none => (ep, some .undefined)
  | some active =>
    if active = 0 then (ep, none)
    else if i = ep.config.rank then
      if ep.pointers .mr = none then (ep, some .undefined) else (ep, none)
    else if (args.remoteAddrs[i]?).isSome && (args.remoteKeys[i]?).isSome then (ep, none)
    else (ep, some .undefined)

/-- `EpBuffer::sync_ib` and `EpBuffer::sync_roce`. -/
def syncQps (ep : EpBuffer) (args : SyncArgs) (remote : Remote) : EpBuffer × Option Exit :=
  andThen (forEach (syncSlot args remote) (List.range' 0 ep.useQpCount) ep) fun ep =>
  forEach (publishRank args) (List.range' 0 ep.config.numRanks) ep

/-- `EpBuffer::sync_ib`. -/
def syncIb (ep : EpBuffer) (args : SyncArgs) (remoteLids : List (BitVec 32)) :
    EpBuffer × Option Exit :=
  ep.syncQps args (.ib remoteLids)

/-- `EpBuffer::sync_roce`. -/
def syncRoce (ep : EpBuffer) (args : SyncArgs) (subnetPrefixes interfaceIds : List (BitVec 64)) :
    EpBuffer × Option Exit :=
  ep.syncQps args (.roce subnetPrefixes interfaceIds)

/-! ### Memory of other ranks -/

/-- The answers of `sync_nvlink_ipc_handles` that are checked. -/
structure IpcAnswers where
  getDeviceCount : Bool
  memcpyAvailable : Bool
  memcpyPeerPtrs : Bool

/-- The call opens the memory of `dstRank`. -/
def opens (config : IpcBuffer) (call : IpcCall) (dstRank : ℕ) : Bool :=
  call.activeRanksMask dstRank != 0 && dstRank != config.rank && peerAccess config call dstRank &&
    ((call.remoteHandles[dstRank]?).any fun handleInts =>
      !decide (handleInts.length < numInt32s)) &&
    call.openMemHandle dstRank == .success

/-- The mapping of `dstRank` is acquired if the call opens it. -/
def openMapping (call : IpcCall) (ep : EpBuffer) (dstRank : ℕ) : EpBuffer :=
  if opens ep.config call dstRank then
    { ep with
      ledger := ep.ledger.acquire .ipcMapping
      mappings := Function.update ep.mappings dstRank (some ep.ledger.next) }
  else ep

/-- The mappings that a call acquires, in the order of the ranks. In fabric mode it opens none. -/
def openMappings (ep : EpBuffer) (call : IpcCall) : EpBuffer :=
  if ep.config.useFabricMem then ep
  else
    (List.range' (groupStart ep.config call)
      (groupEnd ep.config call - groupStart ep.config call)).foldl (openMapping call) ep

/-- `EpBuffer::sync_nvlink_ipc_handles`. -/
def syncNvlinkIpcHandles (ep : EpBuffer) (call : IpcCall) (ans : IpcAnswers) :
    EpBuffer × Option Exit :=
  if !ans.getDeviceCount then (ep, some .threw)
  else
    let arrays := ipcArrays ep.config call ep.ipc.ipcPeerPtrsHost
    let ep := ep.openMappings call
    let ipc := { ep.ipc with
      ipcPeerPtrsHost := arrays.ipcPeerPtrsHost
      p2pIpcAllEnabled := p2pIpcAllEnabled ep.config call arrays }
    if !ans.memcpyAvailable then ({ ep with ipc := ipc }, some .threw)
    else
      let ipc := { ipc with nvlinkAvailable := arrays.nvlinkArray }
      if !ans.memcpyPeerPtrs then ({ ep with ipc := ipc }, some .threw)
      else ({ ep with ipc := { ipc with ipcPeerPtrs := arrays.ipcPeerPtrsHost } }, none)

/-! ### The destructor -/

/-- The mapping of a rank is closed if there is one. -/
def closeMapping (ep : EpBuffer) (i : ℕ) : EpBuffer :=
  match ep.ipc.ipcPeerPtrsHost i, ep.mappings i with
  | .mapping _, some id =>
    { ep with
      ledger := ep.ledger.release (.ipcMapping, id)
      mappings := Function.update ep.mappings i none }
  | _, _ => ep

/-- The destructor of `EpBuffer`. -/
def destroy (ep : EpBuffer) : EpBuffer :=
  let ep := if ep.config.useFabricMem then
      [.fabricMapping, .fabricAddress, .fabricMemHandle].foldl release ep
    else ep.release .gdrBuffer
  let ep := [.raddrs, .rkeys, .qpDevctxs, .nvlinkAvailable, .ipcPeerPtrs].foldl release ep
  let ep := if ep.pointers .ipcPeerPtrsHost = none then ep
    else ((List.range' 0 ep.config.numRanks).foldl closeMapping ep).release .ipcPeerPtrsHost
  [.workspace, .commStream].foldl release ep

/-! ### Runs -/

/-- The public calls that change an `EpBuffer`. -/
inductive Call
  | updateLocalQpns (setups : ℕ → SetupAnswers)
  | syncIb (args : SyncArgs) (remoteLids : List (BitVec 32))
  | syncRoce (args : SyncArgs) (subnetPrefixes interfaceIds : List (BitVec 64))
  | syncNvlinkIpcHandles (call : IpcCall) (ans : IpcAnswers)

/-- A call on an `EpBuffer`. -/
def call (ep : EpBuffer) : Call → EpBuffer × Option Exit
  | .updateLocalQpns setups => ep.updateLocalQpns setups
  | .syncIb args remoteLids => ep.syncIb args remoteLids
  | .syncRoce args subnetPrefixes interfaceIds => ep.syncRoce args subnetPrefixes interfaceIds
  | .syncNvlinkIpcHandles call ans => ep.syncNvlinkIpcHandles call ans

/-- The caller goes on after a call that ends like this. -/
def Continues : Option Exit → Prop
  | none | some .failed | some .threw => True
  | some .exited | some .undefined => False

instance : (e : Option Exit) → Decidable (Continues e)
  | none | some .failed | some .threw => inferInstanceAs (Decidable True)
  | some .exited | some .undefined => inferInstanceAs (Decidable False)

/-- Calls on an `EpBuffer` after which the caller goes on. -/
def callMachine : Machine EpBuffer Call where
  enabled ep c := Continues (ep.call c).2
  decEnabled _ _ := inferInstance
  fire ep c := (ep.call c).1

/-- The lives of the `EpBuffer`s of a rank, from a constructor that returned. The answers that the
constructor gets meet `start`. -/
def lives (config : IpcBuffer) (start : NewAnswers → Prop) : TransitionSystem EpBuffer Call :=
  callMachine.system fun ep => ∃ ans, start ans ∧ new config ans = (ep, none)

end EpBuffer

end EpDemo.Lifecycle
