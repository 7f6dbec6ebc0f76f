import EpDemo.Kernel.Wqe

/-!
# `EpDemo.Proofs.Kernel.Wqe`: the network card reads what the kernels wrote

The three byte permutations reverse the bytes of a word (`byte_deviceByteswap32` and its siblings),
so a field that was swapped once before it was stored is read as it was. Every segment writer is
followed by the reading of its own segment, and the readings of the other segments depend on other
bytes (`readCtrlSeg_congr`, `readRaddrSeg_congr`, `readAtomicAddSeg_congr`).
-/

set_option autoImplicit false

namespace EpDemo.Kernel

open EpDemo.Library

/-! ### Byte permutation -/

/-- A selector below four names a byte of the first word. -/
theorem permByte_eq (x y : BitVec 32) {s k : ℕ} (hs : s % 16 = k) (hk : k < 4) :
    permByte x y s = byte x k := by
  have hlow : s % 8 = k := by omega
  show (if s % 16 < 8 then byte (y ++ x) (s % 8)
    else if (byte (y ++ x) (s % 8)).msb then 255 else 0) = byte x k
  rw [if_pos (by omega), hlow]
  exact byte_append_of_lt y x (by omega)

/-- `0x0123` reverses the bytes. -/
theorem bytePerm_reverse (x y : BitVec 32) :
    bytePerm x y 0x0123 = byte x 0 ++ byte x 1 ++ byte x 2 ++ byte x 3 := by
  have h₀ : permByte x y (0x0123 / 0x1000) = byte x 0 := permByte_eq x y (by decide) (by decide)
  have h₁ : permByte x y (0x0123 / 0x100) = byte x 1 := permByte_eq x y (by decide) (by decide)
  have h₂ : permByte x y (0x0123 / 0x10) = byte x 2 := permByte_eq x y (by decide) (by decide)
  have h₃ : permByte x y 0x0123 = byte x 3 := permByte_eq x y (by decide) (by decide)
  rw [bytePerm, h₀, h₁, h₂, h₃]

/-- A byte has one byte. -/
theorem byte_self (b : BitVec 8) : byte b 0 = b := BitVec.extractLsb'_eq_self

/-- The swap of 32 bits turns the four bytes around. -/
theorem byte_deviceByteswap32 (x : BitVec 32) {i : ℕ} (hi : i < 4) :
    byte (deviceByteswap32 x) i = byte x (3 - i) := by
  rw [deviceByteswap32, bytePerm_reverse]
  match i, hi with
  | 0, _ => exact byte_append_zero _ _
  | 1, _ => exact (byte_append_succ _ _ 0).trans (byte_append_zero _ _)
  | 2, _ =>
    exact (byte_append_succ _ _ 1).trans ((byte_append_succ _ _ 0).trans (byte_append_zero _ _))
  | 3, _ =>
    exact (byte_append_succ _ _ 2).trans ((byte_append_succ _ _ 1).trans
      ((byte_append_succ _ _ 0).trans (byte_self _)))

/-- The high half and the low half of a word. -/
theorem shiftLeft_or_eq_append (hi lo : BitVec 32) :
    hi.setWidth 64 <<< 32 ||| lo.setWidth 64 = hi ++ lo := by
  apply BitVec.eq_of_getLsbD_eq
  intro j hj
  rw [BitVec.getLsbD_or, BitVec.getLsbD_shiftLeft, BitVec.getLsbD_setWidth,
    BitVec.getLsbD_setWidth, BitVec.getLsbD_append]
  by_cases hlow : j < 32
  · simp [hlow, hj]
  · have hout : lo.getLsbD j = false := BitVec.getLsbD_of_ge lo j (by omega)
    have hin : j - 32 < 64 := by omega
    simp [hlow, hj, hout, hin]

/-- The bytes of the high half come after those of the low half. -/
theorem byte_append_of_le (x y : BitVec 32) {i : ℕ} (h : 4 ≤ i) :
    byte (x ++ y) i = byte x (i - 4) := by
  have hle : 32 ≤ 8 * i := by omega
  have hsub : 8 * i - 32 = 8 * (i - 4) := by omega
  rw [byte, BitVec.extractLsb'_append_eq_of_le hle, hsub]
  rfl

/-- The swap of 64 bits turns the eight bytes around. -/
theorem byte_deviceByteswap64 (x : BitVec 64) {i : ℕ} (hi : i < 8) :
    byte (deviceByteswap64 x) i = byte x (7 - i) := by
  -- Each half is swapped on its own, and the halves change places.
  have hhigh : ∀ k < 4, byte ((x >>> 32).setWidth 32) k = byte x (4 + k) := by
    intro k hk
    apply BitVec.eq_of_getLsbD_eq
    intro j hj
    have hin : 8 * k + j < 32 := by omega
    rw [getLsbD_byte, getLsbD_byte, BitVec.getLsbD_setWidth, BitVec.getLsbD_ushiftRight]
    simp only [hj, hin, decide_true, Bool.true_and]
    congr 1
    omega
  have hlow : ∀ k < 4, byte (x.setWidth 32) k = byte x k :=
    fun k hk => byte_setWidth x (by omega)
  show byte (((deviceByteswap32 (x.setWidth 32)).setWidth 64 <<< 32) |||
    (deviceByteswap32 ((x >>> 32).setWidth 32)).setWidth 64) i = _
  rw [shiftLeft_or_eq_append]
  -- The low bytes come from the high half, and the other way round.
  by_cases hhalf : i < 4
  · rw [byte_append_of_lt _ _ (by omega), byte_deviceByteswap32 _ hhalf, hhigh _ (by omega)]
    congr 1
    omega
  · rw [byte_append_of_le _ _ (by omega), byte_deviceByteswap32 _ (by omega), hlow _ (by omega)]
    congr 1
    omega

/-! ### Fields -/

section

variable {slot slot' : Bytes}

/-- A field that was swapped once. -/
theorem readBE_byteswap32 (addr : ℕ) (x : BitVec 32) :
    readBE (storeLE slot addr 4 (deviceByteswap32 x)) addr 4 = x :=
  readBE_storeLE fun _ hi => byte_deviceByteswap32 x hi

/-- A field of eight bytes that was swapped once. -/
theorem readBE_byteswap64 (addr : ℕ) (x : BitVec 64) :
    readBE (storeLE slot addr 8 (deviceByteswap64 x)) addr 8 = x :=
  readBE_storeLE fun _ hi => byte_deviceByteswap64 x hi

/-- Zero has bytes of zero. -/
theorem byte_zero {w : ℕ} (i : ℕ) : byte (0 : BitVec w) i = 0 := by
  apply BitVec.eq_of_getLsbD_eq
  intro j _
  rw [getLsbD_byte]
  simp

/-- A field of zeros. -/
theorem readBE_of_zero {addr n : ℕ} (h : ∀ i < n, slot (addr + i) = 0) :
    readBE slot addr n = 0 := by
  refine eq_of_byte_eq fun i hi => ?_
  rw [byte_readBE slot addr hi, h _ (by omega), byte_zero]

/-- A field that was cleared reads as zero. -/
theorem readBE_storeLE_zero {w : ℕ} (addr n : ℕ) :
    readBE (storeLE slot addr n (0 : BitVec w)) addr n = 0 :=
  readBE_of_zero fun i hi => (storeLE_of_mem hi).trans (byte_zero i)

end

/-! ### Segments -/

section

variable {slot slot' : Bytes}

/-- The control segment is read from the first 16 bytes. -/
theorem readCtrlSeg_congr (h : ∀ a < 16, slot a = slot' a) :
    readCtrlSeg slot = readCtrlSeg slot' := by
  have hread : ∀ addr n, addr + n ≤ 16 → readBE slot addr n = readBE slot' addr n :=
    fun addr n hle => readBE_congr fun i hi => h _ (by omega)
  simp only [readCtrlSeg, hread _ _ (show Offset.opmodIdxOpcode + 4 ≤ 16 by decide),
    hread _ _ (show Offset.qpnDs + 4 ≤ 16 by decide),
    hread _ _ (show Offset.signature + 1 ≤ 16 by decide),
    hread _ _ (show Offset.fmCeSe + 1 ≤ 16 by decide),
    hread _ _ (show Offset.imm + 4 ≤ 16 by decide)]

/-- The segment of the remote address is read from the 16 bytes behind it. -/
theorem readRaddrSeg_congr (h : ∀ a, 16 ≤ a → a < 32 → slot a = slot' a) :
    readRaddrSeg slot = readRaddrSeg slot' := by
  have hread : ∀ addr n, 16 ≤ addr → addr + n ≤ 32 → readBE slot addr n = readBE slot' addr n :=
    fun addr n hge hle => readBE_congr fun i hi => h _ (by omega) (by omega)
  simp only [readRaddrSeg, hread Offset.remoteAddr 8 (by decide) (by decide),
    hread Offset.rkey 4 (by decide) (by decide), hread Offset.reserved 4 (by decide) (by decide)]

/-- The segment of the addition is read from the 16 bytes behind these. -/
theorem readAtomicAddSeg_congr (h : ∀ a, 32 ≤ a → a < 48 → slot a = slot' a) :
    readAtomicAddSeg slot = readAtomicAddSeg slot' := by
  have hread : ∀ addr n, 32 ≤ addr → addr + n ≤ 48 → readBE slot addr n = readBE slot' addr n :=
    fun addr n hge hle => readBE_congr fun i hi => h _ (by omega) (by omega)
  simp only [readAtomicAddSeg, hread Offset.addData 4 (by decide) (by decide),
    hread Offset.fieldBoundary 4 (by decide) (by decide),
    hread Offset.compare 8 (by decide) (by decide)]

/-- The segment of the remote address changes its own bytes only. -/
theorem writeRaddrSeg_of_notMem {raddr : BitVec 64} {rkey : BitVec 32} {a : ℕ}
    (h : a < 16 ∨ 32 ≤ a) : writeRaddrSeg slot raddr rkey a = slot a := by
  have hout : ∀ addr n, 16 ≤ addr → addr + n ≤ 32 → a < addr ∨ addr + n ≤ a := by
    intro addr n hge hle
    omega
  rw [writeRaddrSeg, storeLE_of_notMem (hout Offset.reserved 4 (by decide) (by decide)),
    storeLE_of_notMem (hout Offset.rkey 4 (by decide) (by decide)),
    storeLE_of_notMem (hout Offset.remoteAddr 8 (by decide) (by decide))]

/-- The segment of the local data changes its own bytes only. -/
theorem writeDataSeg_of_notMem {data : ℕ} {bytes lkey : BitVec 32} {laddr : BitVec 64} {a : ℕ}
    (h : a < data ∨ data + 16 ≤ a) : writeDataSeg slot data bytes lkey laddr a = slot a := by
  rw [writeDataSeg, storeLE_of_notMem (by omega), storeLE_of_notMem (by omega),
    storeLE_of_notMem (by omega)]

/-! ### Words of the control segment -/

/-- A field below a shifted one. -/
theorem shiftLeft_or_eq_append_byte {w : ℕ} (hi : BitVec w) (lo : BitVec 8) :
    hi.setWidth (w + 8) <<< 8 ||| lo.setWidth (w + 8) = hi ++ lo := by
  apply BitVec.eq_of_getLsbD_eq
  intro j hj
  rw [BitVec.getLsbD_or, BitVec.getLsbD_shiftLeft, BitVec.getLsbD_setWidth,
    BitVec.getLsbD_setWidth, BitVec.getLsbD_append]
  by_cases hlow : j < 8
  · simp [hlow, hj]
  · have hout : lo.getLsbD j = false := BitVec.getLsbD_of_ge lo j (by omega)
    have hin : j - 8 < w + 8 := by omega
    simp [hlow, hj, hout, hin]

/-- The top byte of the shifted field is lost. -/
theorem shiftLeft_eight_or (hi : BitVec 32) (lo : BitVec 8) :
    hi <<< 8 ||| lo.setWidth 32 = hi.setWidth 24 ++ lo := by
  have htop : hi <<< 8 = (hi.setWidth 24).setWidth 32 <<< 8 := by
    apply BitVec.eq_of_getLsbD_eq
    intro j hj
    rw [BitVec.getLsbD_shiftLeft, BitVec.getLsbD_shiftLeft, BitVec.getLsbD_setWidth,
      BitVec.getLsbD_setWidth]
    by_cases hlow : j < 8
    · simp [hlow]
    · have hin : j - 8 < 24 := by omega
      have hout : j - 8 < 32 := by omega
      simp [hlow, hj, hin, hout]
  rw [htop]
  exact shiftLeft_or_eq_append_byte (hi.setWidth 24) lo

/-- Three fields next to each other. -/
theorem shiftLeft_or_eq_append_three (hi : BitVec 8) (mid : BitVec 16) (lo : BitVec 8) :
    hi.setWidth 32 <<< 24 ||| mid.setWidth 32 <<< 8 ||| lo.setWidth 32 = hi ++ mid ++ lo := by
  -- First the two upper fields, and then the lowest byte.
  have hmid : hi.setWidth 32 <<< 24 ||| mid.setWidth 32 <<< 8
      = (hi ++ mid : BitVec 24).setWidth 32 <<< 8 := by
    apply BitVec.eq_of_getLsbD_eq
    intro j hj
    rw [BitVec.getLsbD_or, BitVec.getLsbD_shiftLeft, BitVec.getLsbD_setWidth,
      BitVec.getLsbD_shiftLeft, BitVec.getLsbD_setWidth, BitVec.getLsbD_shiftLeft,
      BitVec.getLsbD_setWidth, BitVec.getLsbD_append]
    -- A bit belongs to one of the three fields.
    by_cases hlow : j < 8
    · have hlow' : j < 24 := by omega
      simp [hlow, hlow']
    · by_cases hmiddle : j < 24
      · have hin : j - 8 < 16 := by omega
        have hout : j - 8 < 32 := by omega
        simp [hlow, hmiddle, hj, hin, hout]
      · have hin : ¬ j - 8 < 16 := by omega
        have hout : mid.getLsbD (j - 8) = false := BitVec.getLsbD_of_ge mid _ (by omega)
        have hbits : j - 24 < 32 ∧ j - 8 < 32 ∧ j - 8 - 16 = j - 24 := by omega
        simp [hlow, hmiddle, hj, hin, hout, hbits]
  rw [hmid]
  exact shiftLeft_or_eq_append_byte (hi ++ mid : BitVec 24) lo

/-- The control segment is read back: its two words are split into their fields. -/
theorem readCtrlSeg_writeCtrlSeg (qpn : BitVec 24) (ds opmod : BitVec 8) (wqeIndex : BitVec 16)
    (opcode : BitVec 8) :
    readCtrlSeg (writeCtrlSeg slot (qpn ++ ds) (opmod ++ wqeIndex ++ opcode))
      = { opmod := opmod, wqeIndex := wqeIndex, opcode := opcode, qpn := qpn, ds := ds
          signature := 0, fmCeSe := mlx5WqeCtrlCqUpdate, imm := 0 } := by
  have hopmod : readBE (writeCtrlSeg slot (qpn ++ ds) (opmod ++ wqeIndex ++ opcode))
      Offset.opmodIdxOpcode 4 = (opmod ++ wqeIndex ++ opcode : BitVec 32) :=
    readBE_byteswap32 _ _
  have hqpn : readBE (writeCtrlSeg slot (qpn ++ ds) (opmod ++ wqeIndex ++ opcode)) Offset.qpnDs 4
      = (qpn ++ ds : BitVec 32) := by
    rw [writeCtrlSeg, readBE_storeLE_of_disjoint (by decide),
      readBE_storeLE_of_disjoint (by decide)]
    exact readBE_byteswap32 _ _
  -- what no later store touches keeps the zeros of the first one
  have hzero : ∀ addr n, addr + n ≤ 16 → 8 ≤ addr → (addr + n ≤ 11 ∨ 12 ≤ addr) →
      readBE (writeCtrlSeg slot (qpn ++ ds) (opmod ++ wqeIndex ++ opcode)) addr n = 0 := by
    intro addr n hle hge hflag
    rw [writeCtrlSeg,
      readBE_storeLE_of_disjoint (by right; show 0 + 4 ≤ addr; omega),
      readBE_storeLE_of_disjoint (by
        cases hflag with
        | inl h => left; exact h
        | inr h => right; exact h),
      readBE_storeLE_of_disjoint (by right; exact hge)]
    refine readBE_of_zero fun i hi => ?_
    have h : storeLE slot 0 16 (0 : BitVec 128) (0 + (addr + i)) =
        byte (0 : BitVec 128) (addr + i) :=
      storeLE_of_mem (by omega)
    rw [Nat.zero_add] at h
    exact h.trans (byte_zero _)
  have hflag : readBE (writeCtrlSeg slot (qpn ++ ds) (opmod ++ wqeIndex ++ opcode)) Offset.fmCeSe 1
      = mlx5WqeCtrlCqUpdate := by
    rw [writeCtrlSeg, readBE_storeLE_of_disjoint (by decide)]
    refine readBE_storeLE fun i hi => ?_
    rw [Nat.sub_self, Nat.zero_sub, Nat.lt_one_iff.mp hi]
  rw [readCtrlSeg, hopmod, hqpn, hflag,
    hzero Offset.signature 1 (by decide) (by decide) (by decide),
    hzero Offset.imm 4 (by decide) (by decide) (by decide)]
  have hopmod' : (opmod ++ wqeIndex ++ opcode).extractLsb' 24 8 = opmod := by
    rw [BitVec.extractLsb'_append_eq_of_le (by decide)]
    exact BitVec.extractLsb'_append_eq_left
  have hindex' : (opmod ++ wqeIndex ++ opcode).extractLsb' 8 16 = wqeIndex := by
    rw [BitVec.extractLsb'_append_eq_of_le (by decide)]
    exact BitVec.extractLsb'_append_eq_right
  have hopcode' : (opmod ++ wqeIndex ++ opcode).extractLsb' 0 8 = opcode :=
    BitVec.extractLsb'_append_eq_right
  have hqpn' : (qpn ++ ds).extractLsb' 8 24 = qpn := BitVec.extractLsb'_append_eq_left
  have hds' : (qpn ++ ds).extractLsb' 0 8 = ds := BitVec.extractLsb'_append_eq_right
  simp only [hopmod', hindex', hopcode', hqpn', hds']

/-! ### The other segments -/

/-- The address and the key are read back, for a key that was swapped. -/
theorem readRaddrSeg_writeRaddrSeg (raddr : BitVec 64) (rkey : BitVec 32) :
    readRaddrSeg (writeRaddrSeg slot raddr (deviceByteswap32 rkey))
      = { raddr := raddr, rkey := rkey, reserved := 0 } := by
  have hraddr : readBE (writeRaddrSeg slot raddr (deviceByteswap32 rkey)) Offset.remoteAddr 8
      = raddr := by
    rw [writeRaddrSeg, readBE_storeLE_of_disjoint (by decide),
      readBE_storeLE_of_disjoint (by decide)]
    exact readBE_byteswap64 _ _
  have hrkey : readBE (writeRaddrSeg slot raddr (deviceByteswap32 rkey)) Offset.rkey 4 = rkey := by
    rw [writeRaddrSeg, readBE_storeLE_of_disjoint (by decide)]
    exact readBE_byteswap32 _ _
  have hreserved :
      readBE (writeRaddrSeg slot raddr (deviceByteswap32 rkey)) Offset.reserved 4 = 0 :=
    readBE_storeLE_zero _ _
  rw [readRaddrSeg, hraddr, hrkey, hreserved]

/-- The data segment is read back, wherever it stands in the entry. -/
theorem readDataSeg_writeDataSeg (data : ℕ) (bytes lkey : BitVec 32) (laddr : BitVec 64) :
    readDataSeg (writeDataSeg slot data bytes (deviceByteswap32 lkey) laddr) data
      = { byteCount := bytes, lkey := lkey, addr := laddr } := by
  have hbytes : readBE (writeDataSeg slot data bytes (deviceByteswap32 lkey) laddr) data 4
      = bytes := by
    rw [writeDataSeg, readBE_storeLE_of_disjoint (by omega), readBE_storeLE_of_disjoint (by omega)]
    exact readBE_byteswap32 _ _
  have hlkey : readBE (writeDataSeg slot data bytes (deviceByteswap32 lkey) laddr) (data + 4) 4
      = lkey := by
    rw [writeDataSeg, readBE_storeLE_of_disjoint (by omega)]
    exact readBE_byteswap32 _ _
  have hladdr : readBE (writeDataSeg slot data bytes (deviceByteswap32 lkey) laddr) (data + 8) 8
      = laddr :=
    readBE_byteswap64 _ _
  rw [readDataSeg, hbytes, hlkey, hladdr]

/-- What the segment of the atomic operation holds after its three stores. -/
theorem readAtomicAddSeg_stores (value : BitVec 32) :
    readAtomicAddSeg (storeLE (storeLE (storeLE slot Offset.addData 4 (deviceByteswap32 value))
        Offset.fieldBoundary 4 (0 : BitVec 32)) Offset.compare 8 (0 : BitVec 64))
      = { addData := value.toInt, fieldBoundary := 0, compare := 0 } := by
  rw [readAtomicAddSeg, readBE_storeLE_of_disjoint (by decide),
    readBE_storeLE_of_disjoint (by decide), readBE_byteswap32,
    readBE_storeLE_of_disjoint (by decide), readBE_storeLE_zero, readBE_storeLE_zero]

end

/-! ### Entries -/

section

variable (slot : Bytes) (qpn : BitVec 24) (wqHead : BitVec 16) (value bytes lkey rkey : BitVec 32)
  (laddr raddr : BitVec 64)

/-- An entry of a write, as the kernels pass its keys. -/
def rdmaWriteWqe : Bytes :=
  writeRdmaWriteWqe slot (qpn.setWidth 32) wqHead laddr (deviceByteswap32 lkey) raddr
    (deviceByteswap32 rkey) bytes

/-- An entry of an atomic addition, as the kernels pass its keys. -/
def rdmaAtomicAddWqe : Bytes :=
  writeRdmaAtomicAddWqe slot (qpn.setWidth 32) wqHead value laddr (deviceByteswap32 lkey) raddr
    (deviceByteswap32 rkey)

/-- The control segment of a write, for keys of any form. The number of the queue pair loses what
does not fit into its field. -/
theorem readCtrlSeg_writeRdmaWriteWqe (qpn lkey rkey : BitVec 32) :
    readCtrlSeg (writeRdmaWriteWqe slot qpn wqHead laddr lkey raddr rkey bytes)
      = { opmod := 0, wqeIndex := wqHead, opcode := 8, qpn := qpn.setWidth 24, ds := 3
          signature := 0, fmCeSe := 8, imm := 0 } := by
  have hqpn : qpn <<< 8 ||| 3 = qpn.setWidth 24 ++ (3 : BitVec 8) := shiftLeft_eight_or qpn 3
  have hopmod : wqHead.setWidth 32 <<< 8 ||| mlx5OpcodeRdmaWrite
      = (0 : BitVec 8) ++ wqHead ++ (8 : BitVec 8) := by
    rw [← shiftLeft_or_eq_append_three 0 wqHead 8]
    exact congrArg (· ||| _) (BitVec.zero_or).symm
  have hframe : ∀ a < 16, writeRdmaWriteWqe slot qpn wqHead laddr lkey raddr rkey bytes a
      = writeCtrlSeg slot (qpn.setWidth 24 ++ (3 : BitVec 8))
          ((0 : BitVec 8) ++ wqHead ++ (8 : BitVec 8)) a := by
    intro a ha
    rw [writeRdmaWriteWqe, hqpn, hopmod,
      writeDataSeg_of_notMem (by left; exact Nat.lt_of_lt_of_le ha (by decide)),
      writeRaddrSeg_of_notMem (by left; exact ha)]
  rw [readCtrlSeg_congr hframe, readCtrlSeg_writeCtrlSeg]
  rfl

/-- The control segment of an atomic addition. -/
theorem readCtrlSeg_writeRdmaAtomicAddWqe (qpn lkey rkey : BitVec 32) :
    readCtrlSeg (writeRdmaAtomicAddWqe slot qpn wqHead value laddr lkey raddr rkey)
      = { opmod := 8, wqeIndex := wqHead, opcode := 0x15, qpn := qpn.setWidth 24, ds := 4
          signature := 0, fmCeSe := 8, imm := 0 } := by
  have hqpn : qpn <<< 8 ||| 4 = qpn.setWidth 24 ++ (4 : BitVec 8) := shiftLeft_eight_or qpn 4
  have hopmod : mlx5OpcodeAtomicMaskedFa ||| wqHead.setWidth 32 <<< 8 ||| 0x08000000
      = (8 : BitVec 8) ++ wqHead ++ (0x15 : BitVec 8) := by
    rw [← shiftLeft_or_eq_append_three 8 wqHead 0x15, BitVec.or_comm,
      BitVec.or_comm mlx5OpcodeAtomicMaskedFa, ← BitVec.or_assoc]
    rfl
  -- The control segment comes first, and later stores go behind it.
  have hframe : ∀ a < 16, writeRdmaAtomicAddWqe slot qpn wqHead value laddr lkey raddr rkey a
      = writeCtrlSeg slot (qpn.setWidth 24 ++ (4 : BitVec 8))
          ((8 : BitVec 8) ++ wqHead ++ (0x15 : BitVec 8)) a := by
    intro a ha
    rw [writeRdmaAtomicAddWqe, hqpn, hopmod,
      writeDataSeg_of_notMem (by left; exact Nat.lt_of_lt_of_le ha (by decide)),
      storeLE_of_notMem (by left; exact Nat.lt_of_lt_of_le ha (by decide)),
      storeLE_of_notMem (by left; exact Nat.lt_of_lt_of_le ha (by decide)),
      storeLE_of_notMem (by left; exact Nat.lt_of_lt_of_le ha (by decide)),
      writeRaddrSeg_of_notMem (by left; exact ha)]
  rw [readCtrlSeg_congr hframe, readCtrlSeg_writeCtrlSeg]
  rfl

/-- The number of a queue pair fits into its field. -/
theorem setWidth_setWidth_qpn : (qpn.setWidth 32).setWidth 24 = qpn := by
  rw [BitVec.setWidth_setWidth_of_le qpn (by decide), BitVec.setWidth_eq]

/-- The control segment of a write: opcode, index, number of the queue pair, three units. -/
theorem readCtrlSeg_rdmaWriteWqe :
    readCtrlSeg (rdmaWriteWqe slot qpn wqHead bytes lkey rkey laddr raddr)
      = { opmod := 0, wqeIndex := wqHead, opcode := 8, qpn := qpn, ds := 3
          signature := 0, fmCeSe := 8, imm := 0 } := by
  rw [rdmaWriteWqe, readCtrlSeg_writeRdmaWriteWqe, setWidth_setWidth_qpn]

/-- The control segment of an addition: opcode, index, number of the queue pair, four units. -/
theorem readCtrlSeg_rdmaAtomicAddWqe :
    readCtrlSeg (rdmaAtomicAddWqe slot qpn wqHead value lkey rkey laddr raddr)
      = { opmod := 8, wqeIndex := wqHead, opcode := 0x15, qpn := qpn, ds := 4
          signature := 0, fmCeSe := 8, imm := 0 } := by
  rw [rdmaAtomicAddWqe, readCtrlSeg_writeRdmaAtomicAddWqe, setWidth_setWidth_qpn]

/-- A write keeps its remote address when the data segment is stored behind it. -/
theorem readRaddrSeg_rdmaWriteWqe :
    readRaddrSeg (rdmaWriteWqe slot qpn wqHead bytes lkey rkey laddr raddr)
      = { raddr := raddr, rkey := rkey, reserved := 0 } := by
  have hframe : ∀ a, 16 ≤ a → a < 32 →
      rdmaWriteWqe slot qpn wqHead bytes lkey rkey laddr raddr a
        = writeRaddrSeg (writeCtrlSeg slot (qpn.setWidth 32 <<< 8 ||| 3)
            (wqHead.setWidth 32 <<< 8 ||| mlx5OpcodeRdmaWrite)) raddr (deviceByteswap32 rkey) a :=
    fun a _ ha => writeDataSeg_of_notMem (by left; exact ha)
  rw [readRaddrSeg_congr hframe, readRaddrSeg_writeRaddrSeg]

/-- An addition keeps its remote address when the two segments are stored behind it. -/
theorem readRaddrSeg_rdmaAtomicAddWqe :
    readRaddrSeg (rdmaAtomicAddWqe slot qpn wqHead value lkey rkey laddr raddr)
      = { raddr := raddr, rkey := rkey, reserved := 0 } := by
  have hframe : ∀ a, 16 ≤ a → a < 32 →
      rdmaAtomicAddWqe slot qpn wqHead value lkey rkey laddr raddr a
        = writeRaddrSeg (writeCtrlSeg slot (qpn.setWidth 32 <<< 8 ||| 4)
            (mlx5OpcodeAtomicMaskedFa ||| wqHead.setWidth 32 <<< 8 ||| 0x08000000))
            raddr (deviceByteswap32 rkey) a := by
    intro a _ ha
    rw [rdmaAtomicAddWqe, writeRdmaAtomicAddWqe,
      writeDataSeg_of_notMem (by left; exact Nat.lt_of_lt_of_le ha (by decide)),
      storeLE_of_notMem (by left; exact Nat.lt_of_lt_of_le ha (by decide)),
      storeLE_of_notMem (by left; exact Nat.lt_of_lt_of_le ha (by decide)),
      storeLE_of_notMem (by left; exact ha)]
  rw [readRaddrSeg_congr hframe, readRaddrSeg_writeRaddrSeg]

/-- The addend of an addition, with no boundary between fields. -/
theorem readAtomicAddSeg_rdmaAtomicAddWqe :
    readAtomicAddSeg (rdmaAtomicAddWqe slot qpn wqHead value lkey rkey laddr raddr)
      = { addData := value.toInt, fieldBoundary := 0, compare := 0 } := by
  have hframe : ∀ a, 32 ≤ a → a < 48 →
      rdmaAtomicAddWqe slot qpn wqHead value lkey rkey laddr raddr a
        = storeLE (storeLE (storeLE (writeRaddrSeg (writeCtrlSeg slot (qpn.setWidth 32 <<< 8 ||| 4)
              (mlx5OpcodeAtomicMaskedFa ||| wqHead.setWidth 32 <<< 8 ||| 0x08000000))
              raddr (deviceByteswap32 rkey)) Offset.addData 4 (deviceByteswap32 value))
            Offset.fieldBoundary 4 (0 : BitVec 32)) Offset.compare 8 (0 : BitVec 64) a :=
    fun a _ ha => writeDataSeg_of_notMem (by left; exact ha)
  rw [readAtomicAddSeg_congr hframe, readAtomicAddSeg_stores]

/-- Both entries are read back field by field, whatever the slot held before: each field of the four
segments is the argument that it stands for, or the constant of the operation, and nothing else. -/
theorem wqe_decodable :
    (readCtrlSeg (rdmaWriteWqe slot qpn wqHead bytes lkey rkey laddr raddr)
        = { opmod := 0, wqeIndex := wqHead, opcode := 8, qpn := qpn, ds := 3
            signature := 0, fmCeSe := 8, imm := 0 }
      ∧ readRaddrSeg (rdmaWriteWqe slot qpn wqHead bytes lkey rkey laddr raddr)
        = { raddr := raddr, rkey := rkey, reserved := 0 }
      ∧ readDataSeg (rdmaWriteWqe slot qpn wqHead bytes lkey rkey laddr raddr) Offset.writeData
        = { byteCount := bytes, lkey := lkey, addr := laddr })
    ∧ (readCtrlSeg (rdmaAtomicAddWqe slot qpn wqHead value lkey rkey laddr raddr)
        = { opmod := 8, wqeIndex := wqHead, opcode := 0x15, qpn := qpn, ds := 4
            signature := 0, fmCeSe := 8, imm := 0 }
      ∧ readRaddrSeg (rdmaAtomicAddWqe slot qpn wqHead value lkey rkey laddr raddr)
        = { raddr := raddr, rkey := rkey, reserved := 0 }
      ∧ readAtomicAddSeg (rdmaAtomicAddWqe slot qpn wqHead value lkey rkey laddr raddr)
        = { addData := value.toInt, fieldBoundary := 0, compare := 0 }
      ∧ readDataSeg (rdmaAtomicAddWqe slot qpn wqHead value lkey rkey laddr raddr) Offset.atomicData
        = { byteCount := 4, lkey := lkey, addr := laddr }) := by
  constructor
  · exact ⟨readCtrlSeg_rdmaWriteWqe .., readRaddrSeg_rdmaWriteWqe ..,
      readDataSeg_writeDataSeg ..⟩
  · exact ⟨readCtrlSeg_rdmaAtomicAddWqe .., readRaddrSeg_rdmaAtomicAddWqe ..,
      readAtomicAddSeg_rdmaAtomicAddWqe .., readDataSeg_writeDataSeg ..⟩

end

end EpDemo.Kernel
