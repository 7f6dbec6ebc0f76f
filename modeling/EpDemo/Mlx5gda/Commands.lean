import EpDemo.Library.Mailbox
import EpDemo.Mlx5gda.RingSizes

/-!
# `EpDemo.Mlx5gda.Commands`: the commands that create and modify a queue pair

`mlx5gda_create_cq`, `mlx5gda_create_rc_qp` and the three `mlx5gda_modify_rc_qp` functions fill a
command in, field by field, and give it to the device. The layouts are those of `mlx5_prm.h` and
`mlx5_ifc.h`, with the reserved fields under the offsets that the headers name them by. A context
(`cqc`, `qpc`, `ads`) is part of the layout of its command.

`DEVX_SET` and `DEVX_SET64` are macros of the driver's library, which is not part of the program:
`Devx` stands for them, and `Devx.Lawful` is what their documentation says.
-/

set_option autoImplicit false

namespace EpDemo.Mlx5gda

open EpDemo.Library

/-! ### Layouts -/

/-- The fields of `mlx5_ifc_cqc_bits`. -/
inductive CqcField
  | status | asNotify | initiatorSrcDct | dbrUmemValid | cqeSz | cc | scqeBreakModerationEn | oi
  | cqPeriodMode | cqeCompEn | miniCqeResFormat | st | cqeCompLayout | dbrUmemId | pageOffset
  | miniCqeResFormatExt | cqTimestampFormat | logCqSize | uarPage | cqPeriod | cqMaxCount | cEqn
  | logPageSize | lastNotifiedIndex | lastSolicitIndex | consumerCounter | producerCounter
  | localPartitionId | processId | dbrAddr | reservedAt (start : ℕ)
  deriving DecidableEq, Repr

/-- `mlx5_ifc_cqc_bits`. -/
def cqcBits : Layout CqcField :=
  [(.status, 0x4), (.asNotify, 0x1), (.initiatorSrcDct, 0x1), (.dbrUmemValid, 0x1),
    (.reservedAt 0x7, 0x1), (.cqeSz, 0x3), (.cc, 0x1), (.reservedAt 0xc, 0x1),
    (.scqeBreakModerationEn, 0x1), (.oi, 0x1), (.cqPeriodMode, 0x2), (.cqeCompEn, 0x1),
    (.miniCqeResFormat, 0x2), (.st, 0x4), (.reservedAt 0x18, 0x1), (.cqeCompLayout, 0x7),
    (.dbrUmemId, 0x20), (.reservedAt 0x40, 0x14), (.pageOffset, 0x6), (.reservedAt 0x5a, 0x2),
    (.miniCqeResFormatExt, 0x2), (.cqTimestampFormat, 0x2), (.reservedAt 0x60, 0x3),
    (.logCqSize, 0x5), (.uarPage, 0x18), (.reservedAt 0x80, 0x4), (.cqPeriod, 0xc),
    (.cqMaxCount, 0x10), (.reservedAt 0xa0, 0x18), (.cEqn, 0x8), (.reservedAt 0xc0, 0x3),
    (.logPageSize, 0x5), (.reservedAt 0xc8, 0x18), (.reservedAt 0xe0, 0x20),
    (.reservedAt 0x100, 0x8), (.lastNotifiedIndex, 0x18), (.reservedAt 0x120, 0x8),
    (.lastSolicitIndex, 0x18), (.reservedAt 0x140, 0x8), (.consumerCounter, 0x18),
    (.reservedAt 0x160, 0x8), (.producerCounter, 0x18), (.localPartitionId, 0xc),
    (.processId, 0x14), (.reservedAt 0x1a0, 0x20), (.dbrAddr, 0x40)]

/-- The fields of `mlx5_ifc_create_cq_in_bits`, with those of its context. -/
inductive CreateCqInField
  | opcode | uid | opMod | cqContext (f : CqcField) | cqUmemOffset | cqUmemId | cqUmemValid
  | reservedAt (start : ℕ)
  deriving DecidableEq, Repr

/-- The fields before `cq_context` in `mlx5_ifc_create_cq_in_bits`. -/
def createCqInBitsHead : Layout CreateCqInField :=
  [(.opcode, 0x10), (.uid, 0x10), (.reservedAt 0x20, 0x10), (.opMod, 0x10),
    (.reservedAt 0x40, 0x40)]

/-- `mlx5_ifc_create_cq_in_bits`. -/
def createCqInBits : Layout CreateCqInField :=
  createCqInBitsHead ++ (Layout.embed .cqContext cqcBits ++
    [(.cqUmemOffset, 0x40), (.cqUmemId, 0x20), (.cqUmemValid, 0x1), (.reservedAt 0x2e1, 0x1f),
     (.reservedAt 0x300, 0x580)])

/-- The fields of `mlx5_ifc_ads_bits`, an address path. -/
inductive AdsField
  | fl | freeAr | pkeyIndex | grh | mlid | rlid | ackTimeout | srcAddrIndex | statRate | hopLimit
  | tclass | flowLabel | rgidRip | fDscp | fEcn | fEthPrio | ecn | dscp | udpSport | deiCfi
  | ethPrio | sl | vhcaPortNum | rmac4732 | rmac310 | reservedAt (start : ℕ)
  deriving DecidableEq, Repr

/-- `mlx5_ifc_ads_bits`. -/
def adsBits : Layout AdsField :=
  [(.fl, 0x1), (.freeAr, 0x1), (.reservedAt 0x2, 0xe), (.pkeyIndex, 0x10),
    (.reservedAt 0x20, 0x8), (.grh, 0x1), (.mlid, 0x7), (.rlid, 0x10), (.ackTimeout, 0x5),
    (.reservedAt 0x45, 0x3), (.srcAddrIndex, 0x8), (.reservedAt 0x50, 0x4), (.statRate, 0x4),
    (.hopLimit, 0x8), (.reservedAt 0x60, 0x4), (.tclass, 0x8), (.flowLabel, 0x14),
    (.rgidRip, 16 * 0x8), (.reservedAt 0x100, 0x4), (.fDscp, 0x1), (.fEcn, 0x1),
    (.reservedAt 0x106, 0x1), (.fEthPrio, 0x1), (.ecn, 0x2), (.dscp, 0x6), (.udpSport, 0x10),
    (.deiCfi, 0x1), (.ethPrio, 0x3), (.sl, 0x4), (.vhcaPortNum, 0x8), (.rmac4732, 0x10),
    (.rmac310, 0x20)]

/-- The fields of `mlx5_ifc_qpc_bits`, with those of its two address paths. -/
inductive QpcField
  | state | lagTxPortAffinity | st | isolateVlTc | pmState | reqE2eCreditMode | offloadType
  | endPaddingMode | wqSignature | blockLbMc | atomicLikeWriteEn | latencySensitive | drainSigerr
  | pd | mtu | logMsgMax | logRqSize | logRqStride | noSq | logSqSize | tsFormat | dataInOrder
  | rlky | ulpStatelessOffloadMode | counterSetId | uarPage | userIndex | logPageSize | remoteQpn
  | primaryAddressPath (f : AdsField) | secondaryAddressPath (f : AdsField) | logAckReqFreq
  | logSraMax | retryCount | rnrRetry | fre | curRnrRetry | curRetryCount | nextSendPsn | cqnSnd
  | dethSqpn | lastAckedPsn | ssn | logRraMax | atomicMode | rre | rwe | rae | pageOffset
  | cdSlaveReceive | cdSlaveSend | cdMaster | minRnrNak | nextRcvPsn | xrcd | cqnRcv | dbrAddr
  | qKey | rqType | srqnRmpnXrqn | rmsn | hwSqWqebbCounter | swSqWqebbCounter | hwRqCounter
  | swRqCounter | cgs | csReq | csRes | dcAccessKey | dbrUmemValid | dbrUmemId
  | reservedAt (start : ℕ)
  deriving DecidableEq, Repr

/-- The fields before the address paths in `mlx5_ifc_qpc_bits`. -/
def qpcBitsHead : Layout QpcField :=
  [(.state, 0x4), (.lagTxPortAffinity, 0x4), (.st, 0x8), (.reservedAt 0x10, 0x2),
    (.isolateVlTc, 0x1), (.pmState, 0x2), (.reservedAt 0x15, 0x1), (.reqE2eCreditMode, 0x2),
    (.offloadType, 0x4), (.endPaddingMode, 0x2), (.reservedAt 0x1e, 0x2), (.wqSignature, 0x1),
    (.blockLbMc, 0x1), (.atomicLikeWriteEn, 0x1), (.latencySensitive, 0x1),
    (.reservedAt 0x24, 0x1), (.drainSigerr, 0x1), (.reservedAt 0x26, 0x2), (.pd, 0x18),
    (.mtu, 0x3), (.logMsgMax, 0x5), (.reservedAt 0x48, 0x1), (.logRqSize, 0x4),
    (.logRqStride, 0x3), (.noSq, 0x1), (.logSqSize, 0x4), (.reservedAt 0x55, 0x3),
    (.tsFormat, 0x2), (.dataInOrder, 0x1), (.rlky, 0x1), (.ulpStatelessOffloadMode, 0x4),
    (.counterSetId, 0x8), (.uarPage, 0x18), (.reservedAt 0x80, 0x8), (.userIndex, 0x18),
    (.reservedAt 0xa0, 0x3), (.logPageSize, 0x5), (.remoteQpn, 0x18)]

/-- The fields after them. -/
def qpcBitsTail : Layout QpcField :=
  [(.logAckReqFreq, 0x4), (.reservedAt 0x384, 0x4), (.logSraMax, 0x3), (.reservedAt 0x38b, 0x2),
    (.retryCount, 0x3), (.rnrRetry, 0x3), (.reservedAt 0x393, 0x1), (.fre, 0x1),
    (.curRnrRetry, 0x3), (.curRetryCount, 0x3), (.reservedAt 0x39b, 0x5),
    (.reservedAt 0x3a0, 0x20), (.reservedAt 0x3c0, 0x8), (.nextSendPsn, 0x18),
    (.reservedAt 0x3e0, 0x8), (.cqnSnd, 0x18), (.reservedAt 0x400, 0x8), (.dethSqpn, 0x18),
    (.reservedAt 0x420, 0x20), (.reservedAt 0x440, 0x8), (.lastAckedPsn, 0x18),
    (.reservedAt 0x460, 0x8), (.ssn, 0x18), (.reservedAt 0x480, 0x8), (.logRraMax, 0x3),
    (.reservedAt 0x48b, 0x1), (.atomicMode, 0x4), (.rre, 0x1), (.rwe, 0x1), (.rae, 0x1),
    (.reservedAt 0x493, 0x1), (.pageOffset, 0x6), (.reservedAt 0x49a, 0x3),
    (.cdSlaveReceive, 0x1), (.cdSlaveSend, 0x1), (.cdMaster, 0x1), (.reservedAt 0x4a0, 0x3),
    (.minRnrNak, 0x5), (.nextRcvPsn, 0x18), (.reservedAt 0x4c0, 0x8), (.xrcd, 0x18),
    (.reservedAt 0x4e0, 0x8), (.cqnRcv, 0x18), (.dbrAddr, 0x40), (.qKey, 0x20),
    (.reservedAt 0x560, 0x5), (.rqType, 0x3), (.srqnRmpnXrqn, 0x18), (.reservedAt 0x580, 0x8),
    (.rmsn, 0x18), (.hwSqWqebbCounter, 0x10), (.swSqWqebbCounter, 0x10), (.hwRqCounter, 0x20),
    (.swRqCounter, 0x20), (.reservedAt 0x600, 0x20), (.reservedAt 0x620, 0xf), (.cgs, 0x1),
    (.csReq, 0x8), (.csRes, 0x8), (.dcAccessKey, 0x40), (.reservedAt 0x680, 0x3),
    (.dbrUmemValid, 0x1), (.reservedAt 0x684, 0x9c), (.dbrUmemId, 0x20)]

/-- `mlx5_ifc_qpc_bits`. -/
def qpcBits : Layout QpcField :=
  qpcBitsHead ++ (Layout.embed .primaryAddressPath adsBits ++
    (Layout.embed .secondaryAddressPath adsBits ++ qpcBitsTail))

/-- The fields of `mlx5_ifc_create_qp_in_bits`, less the page addresses at its end, which have no
bits. -/
inductive CreateQpInField
  | opcode | uid | opMod | optParamMask | qpc (f : QpcField) | wqUmemOffset | wqUmemId
  | wqUmemValid | reservedAt (start : ℕ)
  deriving DecidableEq, Repr

/-- The fields before `qpc` in `mlx5_ifc_create_qp_in_bits`. -/
def createQpInBitsHead : Layout CreateQpInField :=
  [(.opcode, 0x10), (.uid, 0x10), (.reservedAt 0x20, 0x10), (.opMod, 0x10),
    (.reservedAt 0x40, 0x40), (.optParamMask, 0x20), (.reservedAt 0xa0, 0x20)]

/-- `mlx5_ifc_create_qp_in_bits`. -/
def createQpInBits : Layout CreateQpInField :=
  createQpInBitsHead ++ (Layout.embed .qpc qpcBits ++
    [(.wqUmemOffset, 0x40), (.wqUmemId, 0x20), (.wqUmemValid, 0x1), (.reservedAt 0x861, 0x1f)])

/-- The fields of the three commands that modify a queue pair. -/
inductive ModifyQpInField
  | opcode | uid | opMod | qpn | optParamMask | qpc (f : QpcField) | reservedAt (start : ℕ)
  deriving DecidableEq, Repr

/-- The fields before `qpc` in `mlx5_ifc_rst2init_qp_in_bits`. -/
def rst2initQpInBitsHead : Layout ModifyQpInField :=
  [(.opcode, 0x10), (.uid, 0x10), (.reservedAt 0x20, 0x10), (.opMod, 0x10),
    (.reservedAt 0x40, 0x8), (.qpn, 0x18), (.reservedAt 0x60, 0x20), (.optParamMask, 0x20),
    (.reservedAt 0xa0, 0x20)]

/-- `mlx5_ifc_rst2init_qp_in_bits`. -/
def rst2initQpInBits : Layout ModifyQpInField :=
  rst2initQpInBitsHead ++ (Layout.embed .qpc qpcBits ++
    [(.reservedAt 0x800, 0x80)])

/-- `mlx5_ifc_init2rtr_qp_in_bits` has the same fields. -/
def init2rtrQpInBits : Layout ModifyQpInField := rst2initQpInBits

/-- `mlx5_ifc_rtr2rts_qp_in_bits` has them too. -/
def rtr2rtsQpInBits : Layout ModifyQpInField := rst2initQpInBits

-- The headers name a reserved field by its offset.
example : createCqInBits.offset (.reservedAt 0x2e1) = 0x2e1 := by decide +kernel
example : createQpInBits.offset (.reservedAt 0x861) = 0x861 := by decide +kernel
example : rst2initQpInBits.offset (.reservedAt 0x800) = 0x800 := by decide +kernel

/-! ### Macros -/

/-- `DEVX_SET` and `DEVX_SET64`: a field in the block that starts at bit `p`, by its offset in
the block. -/
structure Devx where
  set : Mailbox → (p offset width : ℕ) → BitVec 32 → Mailbox
  set64 : Mailbox → (p offset : ℕ) → BitVec 64 → Mailbox

/-- What the macros do, where they are documented to work: a field that does not cross the border of
a 32-bit word, and a 64-bit field that is aligned. The low bits of the value are stored and nothing
else changes. -/
structure Devx.Lawful (D : Devx) : Prop where
  set : ∀ (m : Mailbox) (p offset width : ℕ) (value : BitVec 32), p % 8 = 0 →
    offset % 32 + width ≤ 32 → D.set m p offset width value = m.store (p + offset) width value.toNat
  set64 : ∀ (m : Mailbox) (p offset : ℕ) (value : BitVec 64), p % 8 = 0 → offset % 64 = 0 →
    D.set64 m p offset value = m.store (p + offset) 64 value.toNat

section

variable {F : Type} [DecidableEq F] (D : Devx)

/-- `DEVX_SET(typ, p, fld, value)`. -/
def devxSet (typ : Layout F) (p : ℕ) (fld : F) (value : BitVec 32) (m : Mailbox) : Mailbox :=
  D.set m p (typ.offset fld) (typ.width fld) value

/-- `DEVX_SET64(typ, p, fld, value)`. -/
def devxSet64 (typ : Layout F) (p : ℕ) (fld : F) (value : BitVec 64) (m : Mailbox) : Mailbox :=
  D.set64 m p (typ.offset fld) value

/-- `memcpy(DEVX_ADDR_OF(typ, p, fld), bytes, sizeof(bytes))`. -/
def memcpyAddrOf (typ : Layout F) (p : ℕ) (fld : F) (bytes : List (BitVec 8)) (m : Mailbox) :
    Mailbox :=
  m.copy (p + typ.offset fld) bytes

end

/-! ### Constants -/

/-- `MLX5_CMD_OP_CREATE_CQ`. -/
def mlx5CmdOpCreateCq : BitVec 32 := 0x400

/-- `MLX5_CMD_OP_CREATE_QP`. -/
def mlx5CmdOpCreateQp : BitVec 32 := 0x500

/-- `MLX5_CMD_OP_RST2INIT_QP`, `MLX5_CMD_OP_INIT2RTR_QP` and `MLX5_CMD_OP_RTR2RTS_QP`. -/
def mlx5CmdOp : Command → BitVec 32
  | .rst2init => 0x502
  | .init2rtr => 0x503
  | .rtr2rts => 0x504

/-- `MLX5_CQE_SIZE_64B`. -/
def mlx5CqeSize64b : BitVec 32 := 0

/-- `MLX5_QPC_ST_RC`. -/
def mlx5QpcStRc : BitVec 32 := 0

/-- `MLX5_QPC_PM_STATE_MIGRATED`. -/
def mlx5QpcPmStateMigrated : BitVec 32 := 3

/-- `MLX5_RQ_TYPE_ZERO_SIZE_RQ`. -/
def mlx5RqTypeZeroSizeRq : BitVec 32 := 3

/-! ### The commands -/

/-- What `mlx5gda_create_cq` puts into its command. -/
structure CreateCq where
  umemId : BitVec 32
  cqOffset : BitVec 64
  numCqe : BitVec 32
  pageId : BitVec 32
  eqn : BitVec 32
  dbrOffset : BitVec 64
  deriving DecidableEq, Repr

/-- `cmd_in` of `mlx5gda_create_cq`. -/
def CreateCq.cmdIn (D : Devx) (a : CreateCq) : Mailbox :=
  let cqContext := createCqInBitsHead.size
  Mailbox.zero
  |> devxSet D createCqInBits 0 .opcode mlx5CmdOpCreateCq
  |> devxSet D createCqInBits 0 .cqUmemId a.umemId
  |> devxSet D createCqInBits 0 .cqUmemValid 1
  |> devxSet64 D createCqInBits 0 .cqUmemOffset a.cqOffset
  |> devxSet D cqcBits cqContext .dbrUmemValid 1
  |> devxSet D cqcBits cqContext .cqeSz mlx5CqeSize64b
  |> devxSet D cqcBits cqContext .cc 1
  |> devxSet D cqcBits cqContext .oi 1
  |> devxSet D cqcBits cqContext .dbrUmemId a.umemId
  |> devxSet D cqcBits cqContext .logCqSize (BitVec.ofNat 32 (logCqSize a.numCqe))
  |> devxSet D cqcBits cqContext .uarPage a.pageId
  |> devxSet D cqcBits cqContext .cEqn a.eqn
  |> devxSet64 D cqcBits cqContext .dbrAddr a.dbrOffset

/-- What `mlx5gda_create_rc_qp` puts into its command. -/
structure CreateQp where
  umemId : BitVec 32
  wqOffset : BitVec 64
  pdn : BitVec 32
  pageId : BitVec 32
  cqn : BitVec 32
  numWqebb : BitVec 32
  dbrOffset : BitVec 64
  deriving DecidableEq, Repr

/-- `cmd_in` of `mlx5gda_create_rc_qp`. -/
def CreateQp.cmdIn (D : Devx) (a : CreateQp) : Mailbox :=
  let qpContext := createQpInBitsHead.size
  Mailbox.zero
  |> devxSet D createQpInBits 0 .opcode mlx5CmdOpCreateQp
  |> devxSet D createQpInBits 0 .wqUmemId a.umemId
  |> devxSet64 D createQpInBits 0 .wqUmemOffset a.wqOffset
  |> devxSet D createQpInBits 0 .wqUmemValid 1
  |> devxSet D qpcBits qpContext .st mlx5QpcStRc
  |> devxSet D qpcBits qpContext .pmState mlx5QpcPmStateMigrated
  |> devxSet D qpcBits qpContext .pd a.pdn
  |> devxSet D qpcBits qpContext .uarPage a.pageId
  |> devxSet D qpcBits qpContext .rqType mlx5RqTypeZeroSizeRq
  |> devxSet D qpcBits qpContext .cqnSnd a.cqn
  |> devxSet D qpcBits qpContext .logSqSize (BitVec.ofNat 32 (logSqSize a.numWqebb))
  |> devxSet D qpcBits qpContext .logRqSize 0
  |> devxSet D qpcBits qpContext .dbrUmemValid 1
  |> devxSet64 D qpcBits qpContext .dbrAddr a.dbrOffset
  |> devxSet D qpcBits qpContext .dbrUmemId a.umemId
  |> devxSet D qpcBits qpContext .userIndex 0
  |> devxSet D qpcBits qpContext .pageOffset 0

/-- `ibv_ah_attr`, as far as it is read, and what the driver resolves it to (`mlx5_wqe_av`). -/
structure AhAttr where
  sl : BitVec 8
  dlid : BitVec 16
  sgidIndex : BitVec 8
  rmac : Fin 6 → BitVec 8
  rgid : Fin 16 → BitVec 8

/-- What the functions that modify a queue pair put into their commands. -/
inductive ModifyQp
  | rst2init (portNum : BitVec 8) (linkLayer : LinkLayer) (pkeyIndex : BitVec 16)
  | init2rtr (linkLayer : LinkLayer) (ahAttr : AhAttr) (remoteQpn mtu : BitVec 32)
  | rtr2rts

/-- The command of a function. -/
def ModifyQp.command : ModifyQp → Command
  | .rst2init .. => .rst2init
  | .init2rtr .. => .init2rtr
  | .rtr2rts => .rtr2rts

/-- The layout of its command. -/
def ModifyQp.bits : ModifyQp → Layout ModifyQpInField
  | .rst2init .. => rst2initQpInBits
  | .init2rtr .. => init2rtrQpInBits
  | .rtr2rts => rtr2rtsQpInBits

/-- The first two fields. All three functions set them with the layout of `rst2init_qp_in`. -/
def modifyQpHead (D : Devx) (command : Command) (qpn : BitVec 32) : Mailbox :=
  Mailbox.zero
  |> devxSet D rst2initQpInBits 0 .opcode (mlx5CmdOp command)
  |> devxSet D rst2initQpInBits 0 .qpn qpn

/-- The address path of `mlx5gda_modify_rc_qp_init2rtr`. -/
def setAddressPath (D : Devx) (qpc : ℕ) (ahAttr : AhAttr) : LinkLayer → Mailbox → Mailbox
  | .infiniband, m => m
    |> devxSet D qpcBits qpc (.primaryAddressPath .sl) (ahAttr.sl.setWidth 32)
    |> devxSet D qpcBits qpc (.primaryAddressPath .rlid) (ahAttr.dlid.setWidth 32)
  | .ethernet, m => m
    |> memcpyAddrOf qpcBits qpc (.primaryAddressPath .rmac4732) (List.ofFn ahAttr.rmac)
    |> devxSet D qpcBits qpc (.primaryAddressPath .hopLimit) 255
    |> devxSet D qpcBits qpc (.primaryAddressPath .srcAddrIndex) (ahAttr.sgidIndex.setWidth 32)
    |> devxSet D qpcBits qpc (.primaryAddressPath .udpSport) (ahAttr.dlid.setWidth 32)
    |> memcpyAddrOf qpcBits qpc (.primaryAddressPath .rgidRip) (List.ofFn ahAttr.rgid)
  | .unspecified, m => m

/-- `cmd_in` of `mlx5gda_modify_rc_qp_rst2init`, `mlx5gda_modify_rc_qp_init2rtr` and
`mlx5gda_modify_rc_qp_rtr2rts`. -/
def ModifyQp.cmdIn (D : Devx) (qpn : BitVec 32) : ModifyQp → Mailbox
  | .rst2init portNum linkLayer pkeyIndex =>
    let qpc := rst2initQpInBitsHead.size
    let cmdIn := modifyQpHead D .rst2init qpn
      |> devxSet D qpcBits qpc .rwe 1
      |> devxSet D qpcBits qpc .rre 1
      |> devxSet D qpcBits qpc .rae 1
      |> devxSet D qpcBits qpc .atomicMode 3
      |> devxSet D qpcBits qpc (.primaryAddressPath .vhcaPortNum) (portNum.setWidth 32)
    let cmdIn := if linkLayer = .infiniband then
        devxSet D qpcBits qpc (.primaryAddressPath .pkeyIndex) (pkeyIndex.setWidth 32) cmdIn
      else cmdIn
    devxSet D qpcBits qpc .pmState mlx5QpcPmStateMigrated cmdIn
  | .init2rtr linkLayer ahAttr remoteQpn mtu =>
    let qpc := rst2initQpInBitsHead.size
    let cmdIn := modifyQpHead D .init2rtr qpn
      |> devxSet D qpcBits qpc .mtu mtu
      |> devxSet D qpcBits qpc .logMsgMax 30
      |> devxSet D qpcBits qpc .remoteQpn remoteQpn
      |> devxSet D qpcBits qpc .minRnrNak 7
      |> devxSet D qpcBits qpc .logRraMax 1
    setAddressPath D qpc ahAttr linkLayer cmdIn
  | .rtr2rts =>
    let qpc := rst2initQpInBitsHead.size
    modifyQpHead D .rtr2rts qpn
    |> devxSet D qpcBits qpc .logAckReqFreq 0
    |> devxSet D qpcBits qpc .logSraMax 1
    |> devxSet D qpcBits qpc .nextSendPsn 0
    |> devxSet D qpcBits qpc .retryCount 7
    |> devxSet D qpcBits qpc .rnrRetry 7
    |> devxSet D qpcBits qpc (.primaryAddressPath .ackTimeout) 20

end EpDemo.Mlx5gda
