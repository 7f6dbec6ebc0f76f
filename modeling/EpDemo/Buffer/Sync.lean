import Mathlib.Data.Int.Notation
import Mathlib.Data.Nat.Notation
import Mathlib.Logic.Function.Basic

/-!
# `EpDemo.Buffer.Sync`: connecting the queue pairs of `EpBuffer`

Every rank owns `USE_QP_COUNT` reliable-connection queue pairs, `MAX_QP_COUNT / num_ranks`
of them for each peer. The ranks exchange a `RankInfo` each, build argument vectors from
what they received, and `sync_ib` or `sync_roce` connects slot by slot.

A read outside a vector is undefined behaviour in the source. It is `none` here, so a sync
call that returns `some` has read every vector inside its bounds. The device is taken to
accept the modify commands: a command that fails ends the process.
-/

set_option autoImplicit false

namespace EpDemo.Buffer

/-- `MAX_QP_COUNT`. -/
def maxQpCount : ℕ := 256

/-- `USE_QP_COUNT` as the constructor of `EpBuffer` sets it. -/
def useQpCount (maxQpCount numRanks : ℕ) : ℕ := maxQpCount / numRanks * numRanks

/-- The rank that `sync_ib` and `sync_roce` connect slot `i` to. -/
def peerRank (numRanks useQpCount i : ℕ) : ℕ := i * numRanks / useQpCount

/-- What a queue pair of the rank is identified by. -/
structure Qp where
  qpn : BitVec 32
  lid : BitVec 16
  deriving DecidableEq, Repr

/-- The address a queue pair sends to: a LID on InfiniBand, a GID on RoCE. -/
inductive Destination
  | ib (dlid : BitVec 16)
  | roce (subnetPrefix interfaceId : BitVec 64) (sgidIndex : ℤ)
  deriving DecidableEq, Repr

/-- The remote end that `mlx5gda_modify_rc_qp_init2rtr` gives to a queue pair. -/
structure Connection where
  remoteQpn : BitVec 32
  destination : Destination
  deriving DecidableEq, Repr

/-- The parts of `EpBuffer` that connection set-up reads and writes. `connections`, `raddrs`
and `rkeys` hold what was written to a slot, if anything was. -/
structure EpBuffer where
  rank : ℕ
  numRanks : ℕ
  useQpCount : ℕ
  qps : List Qp
  mrAddr : BitVec 64
  mrRkey : BitVec 32
  mrLkey : BitVec 32
  gid : BitVec 64 × BitVec 64
  gidIndex : ℤ
  ipcHandle : List (BitVec 32)
  isRoce : Bool
  ibgdaDisabled : Bool
  connections : ℕ → Option Connection
  raddrs : ℕ → Option (BitVec 64)
  rkeys : ℕ → Option (BitVec 32)

namespace EpBuffer

/-- `get_local_qpns`. -/
def getLocalQpns (ep : EpBuffer) : List (BitVec 32) := ep.qps.map Qp.qpn

/-- `get_local_lids`: the 16-bit LIDs as 32-bit integers. -/
def getLocalLids (ep : EpBuffer) : List (BitVec 32) := ep.qps.map fun qp => qp.lid.setWidth 32

/-- Slot `i` becomes connected. -/
def connect (ep : EpBuffer) (i : ℕ) (c : Connection) : EpBuffer :=
  { ep with connections := Function.update ep.connections i (some c) }

/-- One slot of `sync_ib` and `sync_roce`. `connection i peer` is the connection of slot `i`,
or `none` when one of the vectors it is read from is too short. -/
def connectSlot (activeRanksMask : List (BitVec 32)) (connection : ℕ → ℕ → Option Connection)
    (ep : EpBuffer) (i : ℕ) : Option EpBuffer := do
  let peer := peerRank ep.numRanks ep.useQpCount i
  let active ← activeRanksMask[peer]?
  if active = 0 then return ep
  let _ ← ep.qps[i]?
  let c ← connection i peer
  return ep.connect i c

/-- The loop of `sync_ib` and `sync_roce` over the slots. -/
def connectSlots (ep : EpBuffer) (activeRanksMask : List (BitVec 32))
    (connection : ℕ → ℕ → Option Connection) : Option EpBuffer :=
  (List.range ep.useQpCount).foldlM (connectSlot activeRanksMask connection) ep

/-- One rank of `sync_ib` and `sync_roce`: the address and key of an active rank. -/
def publishRank (remoteAddrs : List (BitVec 64)) (remoteKeys activeRanksMask : List (BitVec 32))
    (ep : EpBuffer) (i : ℕ) : Option EpBuffer := do
  let active ← activeRanksMask[i]?
  if active = 0 then return ep
  let raddr ← (if i = ep.rank then some ep.mrAddr else remoteAddrs[i]?)
  let rkey ← (if i = ep.rank then some ep.mrLkey else remoteKeys[i]?)
  return { ep with
    raddrs := Function.update ep.raddrs i (some raddr)
    rkeys := Function.update ep.rkeys i (some rkey) }

/-- The loop of `sync_ib` and `sync_roce` over the ranks. -/
def publishRanks (ep : EpBuffer) (remoteAddrs : List (BitVec 64))
    (remoteKeys activeRanksMask : List (BitVec 32)) : Option EpBuffer :=
  (List.range ep.numRanks).foldlM (publishRank remoteAddrs remoteKeys activeRanksMask) ep

/-- `EpBuffer::sync_ib`. -/
def syncIb (ep : EpBuffer) (remoteAddrs : List (BitVec 64))
    (remoteKeys remoteQpns remoteLids activeRanksMask : List (BitVec 32)) : Option EpBuffer := do
  let ep ← ep.connectSlots activeRanksMask fun i _ => do
    let lid ← remoteLids[i]?
    let qpn ← remoteQpns[i]?
    return ⟨qpn, .ib (lid.setWidth 16)⟩
  ep.publishRanks remoteAddrs remoteKeys activeRanksMask

/-- `EpBuffer::sync_roce`. -/
def syncRoce (ep : EpBuffer) (remoteAddrs : List (BitVec 64))
    (remoteKeys remoteQpns : List (BitVec 32)) (subnetPrefixes interfaceIds : List (BitVec 64))
    (activeRanksMask : List (BitVec 32)) : Option EpBuffer := do
  let ep ← ep.connectSlots activeRanksMask fun i peer => do
    let subnetPrefix ← subnetPrefixes[peer]?
    let interfaceId ← interfaceIds[peer]?
    let qpn ← remoteQpns[i]?
    return ⟨qpn, .roce subnetPrefix interfaceId ep.gidIndex⟩
  ep.publishRanks remoteAddrs remoteKeys activeRanksMask

end EpBuffer

/-! ### The callers -/

/-- `RankInfo`: what a rank tells the others about itself. -/
structure RankInfo where
  qpns : List (BitVec 32)
  lids : List (BitVec 32)
  mrAddr : BitVec 64
  mrRkey : BitVec 32
  gidSubnetPrefix : BitVec 64
  gidInterfaceId : BitVec 64
  ipcHandle : List (BitVec 32)
  isRoce : Bool

/-- `collect_rank_info`. -/
def collectRankInfo (ep : EpBuffer) : RankInfo where
  qpns := ep.getLocalQpns
  lids := ep.getLocalLids
  mrAddr := ep.mrAddr
  mrRkey := ep.mrRkey
  gidSubnetPrefix := ep.gid.1
  gidInterfaceId := ep.gid.2
  ipcHandle := ep.ipcHandle
  isRoce := ep.isRoce

/-- The first element of a vector, or zero when it is empty: the callers'
`v.empty() ? 0 : v[0]`. -/
def firstOrZero (v : List (BitVec 32)) : BitVec 32 := v.headD 0

/-- `test_sync_ib`: build the vectors of `sync_ib` from the exchanged infos and call it. -/
def testSyncIb (ep : EpBuffer) (allInfo : List RankInfo) (activeRanks : List (BitVec 32)) :
    Option EpBuffer :=
  if ep.ibgdaDisabled then some ep
  else
    ep.syncIb (allInfo.map RankInfo.mrAddr) (allInfo.map RankInfo.mrRkey)
      (allInfo.map fun info => firstOrZero info.qpns)
      (allInfo.map fun info => firstOrZero info.lids) activeRanks

/-- `test_sync_roce`: the same for `sync_roce`. -/
def testSyncRoce (ep : EpBuffer) (allInfo : List RankInfo) (activeRanks : List (BitVec 32)) :
    Option EpBuffer :=
  if ep.isRoce then
    ep.syncRoce (allInfo.map RankInfo.mrAddr) (allInfo.map RankInfo.mrRkey)
      (allInfo.map fun info => firstOrZero info.qpns)
      (allInfo.map RankInfo.gidSubnetPrefix) (allInfo.map RankInfo.gidInterfaceId) activeRanks
  else some ep

end EpDemo.Buffer
