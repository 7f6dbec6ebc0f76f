import EpDemo.Library.Bytes
import Mathlib.Data.Int.Notation

/-!
# `EpDemo.Kernel.Wqe`: the work queue entries that the kernels write

A slot of the work queue is 64 bytes, and an entry is made of segments of 16 bytes. The processor is
little-endian and the network card big-endian, so a field is swapped before it is stored, by
`device_byteswap` or by the caller. The layouts of the segments and the opcodes are those of
`mlx5dv.h`: `Offset` says where a field lies in its segment.

The second part is what the network card reads in a slot.
-/

set_option autoImplicit false

namespace EpDemo.Kernel

open EpDemo.Library

/-! ### Byte permutation -/

/-- The byte that a selector of `__byte_perm` names: one of the eight bytes of `x` and `y`, or its
sign. -/
def permByte (x y : BitVec 32) (selector : ℕ) : BitVec 8 :=
  let b := byte (y ++ x) (selector % 8)
  if selector % 16 < 8 then b else if b.msb then 255 else 0

/-- `__byte_perm`: the four hexadecimal digits of `s` are the selectors. -/
def bytePerm (x y : BitVec 32) (s : ℕ) : BitVec 32 :=
  permByte x y (s / 0x1000) ++ permByte x y (s / 0x100) ++ permByte x y (s / 0x10) ++ permByte x y s

/-- `device_byteswap(uint16_t)`. -/
def deviceByteswap16 (x : BitVec 16) : BitVec 16 :=
  (bytePerm (x.setWidth 32) (x.setWidth 32) 0x2301).setWidth 16

/-- `device_byteswap(uint32_t)`. -/
def deviceByteswap32 (x : BitVec 32) : BitVec 32 := bytePerm x x 0x0123

/-- `device_byteswap(uint64_t)`. -/
def deviceByteswap64 (x : BitVec 64) : BitVec 64 :=
  let hi := (x >>> 32).setWidth 32
  let lo := x.setWidth 32
  let hi := bytePerm hi hi 0x0123
  let lo := bytePerm lo lo 0x0123
  lo.setWidth 64 <<< 32 ||| hi.setWidth 64

/-! ### Entries -/

/-- `MLX5_WQE_CTRL_CQ_UPDATE`. -/
def mlx5WqeCtrlCqUpdate : BitVec 8 := 8

/-- `MLX5_OPCODE_RDMA_WRITE`. -/
def mlx5OpcodeRdmaWrite : BitVec 32 := 0x08

/-- `MLX5_OPCODE_ATOMIC_MASKED_FA`. -/
def mlx5OpcodeAtomicMaskedFa : BitVec 32 := 0x15

namespace Offset

/-! Where the segments of an entry and the fields of a segment start. -/

/-- The control segment. -/
def ctrl : ℕ := 0
/-- The segment of the remote address. -/
def raddr : ℕ := 16
/-- The data segment of a write. -/
def writeData : ℕ := 32
/-- The segment of an atomic addition. -/
def atomic : ℕ := 32
/-- The data segment of an atomic addition. -/
def atomicData : ℕ := 48

/-- `opmod_idx_opcode`. -/
def opmodIdxOpcode : ℕ := ctrl
/-- `qpn_ds`. -/
def qpnDs : ℕ := ctrl + 4
/-- `signature`. -/
def signature : ℕ := ctrl + 8
/-- `fm_ce_se`. -/
def fmCeSe : ℕ := ctrl + 11
/-- `imm`. -/
def imm : ℕ := ctrl + 12

/-- `raddr`. -/
def remoteAddr : ℕ := raddr
/-- `rkey`. -/
def rkey : ℕ := raddr + 8
/-- `reserved`. -/
def reserved : ℕ := raddr + 12

/-- `add_data`. -/
def addData : ℕ := atomic
/-- `field_boundary`. -/
def fieldBoundary : ℕ := atomic + 4
/-- `compare`. -/
def compare : ℕ := atomic + 8

end Offset

/-- `raddr_seg`, which both writers fill in. -/
def writeRaddrSeg (slot : Bytes) (raddr : BitVec 64) (rkey : BitVec 32) : Bytes :=
  let slot := storeLE slot Offset.remoteAddr 8 (deviceByteswap64 raddr)
  let slot := storeLE slot Offset.rkey 4 rkey
  storeLE slot Offset.reserved 4 (0 : BitVec 32)

/-- `data_seg`, which both writers fill in, at its offset in the entry. -/
def writeDataSeg (slot : Bytes) (data : ℕ) (bytes lkey : BitVec 32) (laddr : BitVec 64) : Bytes :=
  let slot := storeLE slot data 4 (deviceByteswap32 bytes)
  let slot := storeLE slot (data + 4) 4 lkey
  storeLE slot (data + 8) 8 (deviceByteswap64 laddr)

/-- `ctrl_seg`, which both writers fill in. -/
def writeCtrlSeg (slot : Bytes) (qpnDs opmodIdxOpcode : BitVec 32) : Bytes :=
  let slot := storeLE slot Offset.ctrl 16 (0 : BitVec 128)
  let slot := storeLE slot Offset.qpnDs 4 (deviceByteswap32 qpnDs)
  let slot := storeLE slot Offset.fmCeSe 1 mlx5WqeCtrlCqUpdate
  storeLE slot Offset.opmodIdxOpcode 4 (deviceByteswap32 opmodIdxOpcode)

/-- What `__mlx5gda_device_write_rdma_write_wqe` stores into a slot. -/
def writeRdmaWriteWqe (slot : Bytes) (qpn : BitVec 32) (wqHead : BitVec 16) (laddr : BitVec 64)
    (lkey : BitVec 32) (raddr : BitVec 64) (rkey bytes : BitVec 32) : Bytes :=
  let slot := writeCtrlSeg slot (qpn <<< 8 ||| 3)
    (wqHead.setWidth 32 <<< 8 ||| mlx5OpcodeRdmaWrite)
  let slot := writeRaddrSeg slot raddr rkey
  writeDataSeg slot Offset.writeData bytes lkey laddr

/-- What `__mlx5gda_device_write_rdma_atomic_add_wqe` stores into a slot. -/
def writeRdmaAtomicAddWqe (slot : Bytes) (qpn : BitVec 32) (wqHead : BitVec 16) (value : BitVec 32)
    (laddr : BitVec 64) (lkey : BitVec 32) (raddr : BitVec 64) (rkey : BitVec 32) : Bytes :=
  let slot := writeCtrlSeg slot (qpn <<< 8 ||| 4)
    (mlx5OpcodeAtomicMaskedFa ||| wqHead.setWidth 32 <<< 8 ||| 0x08000000)
  let slot := writeRaddrSeg slot raddr rkey
  let slot := storeLE slot Offset.addData 4 (deviceByteswap32 value)
  let slot := storeLE slot Offset.fieldBoundary 4 (0 : BitVec 32)
  let slot := storeLE slot Offset.compare 8 (0 : BitVec 64)
  writeDataSeg slot Offset.atomicData 4 lkey laddr

/-! ### What the network card reads -/

/-- The control segment. -/
structure CtrlSeg where
  opmod : BitVec 8
  wqeIndex : BitVec 16
  opcode : BitVec 8
  qpn : BitVec 24
  ds : BitVec 8
  signature : BitVec 8
  fmCeSe : BitVec 8
  imm : BitVec 32
  deriving DecidableEq, Repr

/-- The segment of the remote address. -/
structure RaddrSeg where
  raddr : BitVec 64
  rkey : BitVec 32
  reserved : BitVec 32
  deriving DecidableEq, Repr

/-- The segment of a masked 32-bit fetch-and-add. -/
structure AtomicAddSeg where
  addData : ℤ
  fieldBoundary : BitVec 32
  compare : BitVec 64
  deriving DecidableEq, Repr

/-- The segment of the local data. -/
structure DataSeg where
  byteCount : BitVec 32
  lkey : BitVec 32
  addr : BitVec 64
  deriving DecidableEq, Repr

/-- The control segment of a slot. -/
def readCtrlSeg (slot : Bytes) : CtrlSeg :=
  let opmodIdxOpcode : BitVec 32 := readBE slot Offset.opmodIdxOpcode 4
  let qpnDs : BitVec 32 := readBE slot Offset.qpnDs 4
  { opmod := opmodIdxOpcode.extractLsb' 24 8
    wqeIndex := opmodIdxOpcode.extractLsb' 8 16
    opcode := opmodIdxOpcode.extractLsb' 0 8
    qpn := qpnDs.extractLsb' 8 24
    ds := qpnDs.extractLsb' 0 8
    signature := readBE slot Offset.signature 1
    fmCeSe := readBE slot Offset.fmCeSe 1
    imm := readBE slot Offset.imm 4 }

/-- The remote address of a slot. -/
def readRaddrSeg (slot : Bytes) : RaddrSeg where
  raddr := readBE slot Offset.remoteAddr 8
  rkey := readBE slot Offset.rkey 4
  reserved := readBE slot Offset.reserved 4

/-- The atomic operation of a slot. -/
def readAtomicAddSeg (slot : Bytes) : AtomicAddSeg where
  addData := (show BitVec 32 from readBE slot Offset.addData 4).toInt
  fieldBoundary := readBE slot Offset.fieldBoundary 4
  compare := readBE slot Offset.compare 8

/-- The local data of a slot, at its offset in the entry. -/
def readDataSeg (slot : Bytes) (data : ℕ) : DataSeg where
  byteCount := readBE slot data 4
  lkey := readBE slot (data + 4) 4
  addr := readBE slot (data + 8) 8

end EpDemo.Kernel
