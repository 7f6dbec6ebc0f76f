import EpDemo.Proofs.System.Containment
import EpDemo.System.VectorAccess

/-!
# `EpDemo.Proofs.System.Alignment`: which buffers have aligned rows

Every supported row is a whole number of vectors (`dvd_numBytesPerMsg`, `dvd_numBytesPerSlot`), and
the move to another rank keeps the offset. So every access of a buffer is aligned if and only if its
data regions are (`vectorAligned_iff`). They start after the signal regions of this buffer and of
those before it, each 4 bytes for an expert, and `BufferPair` does not round these up: the data of
the first buffer is `8 * num_experts` bytes after an aligned address, that of the second one `16 *
num_experts` (`dvd_sendData_iff`). Neither depends on whether the arithmetic of the constructor
overflows.
-/

set_option autoImplicit false

namespace EpDemo.System.Config

open EpDemo.Buffer EpDemo.Kernel

variable {A : Type} {c : Config A}

/-! ### Rows -/

/-- A supported hidden size is a whole number of 512 elements. -/
theorem exists_hidden_eq {p : Shape} (h : p.Supported) : ∃ n, 0 < n ∧ p.hidden = 512 * n := by
  have hall : ∀ x ∈ [2048, 2560, 3072, 4096, 5120, 6144, 7168, 8192], 512 ∣ x ∧ 0 < x := by decide
  obtain ⟨⟨n, hn⟩, hpos⟩ := hall p.hidden h
  exact ⟨n, by omega, hn⟩

/-- A message of a supported shape has a multiple of 16 bytes. -/
theorem dvd_numBytesPerMsg {p : Shape} (h : p.Supported) : 16 ∣ p.numBytesPerMsg := by
  obtain ⟨n, -, hn⟩ := exists_hidden_eq h
  have hscales : p.numScales = 4 * n := by
    unfold Shape.numScales
    omega
  unfold Shape.numBytesPerMsg
  cases p.useFp8 with
  | true =>
    simp only [if_true]
    omega
  | false =>
    simp only [Bool.false_eq_true, if_false]
    omega

/-- So has a slot. -/
theorem dvd_numBytesPerSlot {p : Shape} (h : p.Supported) : 16 ∣ p.numBytesPerSlot := by
  obtain ⟨n, -, hn⟩ := exists_hidden_eq h
  unfold Shape.numBytesPerSlot
  omega

/-- A payload has a first vector. -/
theorem hiddenInt4_pos (h : c.shape.Supported) : 0 < c.hiddenInt4 := by
  obtain ⟨n, hpos, hn⟩ := exists_hidden_eq h
  unfold hiddenInt4 Shape.hiddenBytes sizeofInt4
  cases c.shape.useFp8 with
  | true =>
    simp only [if_true]
    omega
  | false =>
    simp only [Bool.false_eq_true, if_false]
    omega

/-! ### Regions -/

/-- The low bits of a `size_t` are those of the number. -/
theorem toSizeT_emod (z : ℤ) : (toSizeT z : ℤ) % 16 = z % 16 := by
  have hnonneg : 0 ≤ z % 2 ^ 64 := Int.emod_nonneg z (by decide)
  rw [toSizeT, Int.toNat_of_nonneg hnonneg]
  exact Int.emod_emod_of_dvd z (by decide)

/-- The size of the signalling buffer modulo 16. -/
theorem signalingBufferBytes_emod (E : ℕ) : (signalingBufferBytes E : ℤ) % 16 = E * 4 % 16 :=
  toSizeT_emod _

/-- A data region is a whole number of vectors. -/
theorem sendRecvBufferBytes_emod (M E : ℕ) {p : Shape} (h : p.Supported) :
    (sendRecvBufferBytes M p.hidden E : ℤ) % 16 = 0 := by
  obtain ⟨n, -, hn⟩ := exists_hidden_eq h
  rw [sendRecvBufferBytes, toSizeT_emod]
  have hrow : (2 * 16 + p.hidden * 2 : ℤ) = 16 * (2 + 64 * n) := by
    rw [hn]
    push_cast
    ring
  rw [hrow, Int.mul_left_comm]
  exact Int.mul_emod_right 16 _

section

variable {M H R E b : ℕ}

/-- The data of buffer `b` starts after `2 * (b + 1)` signal regions and whole rows. -/
theorem dataStart_emod (hb : b < 2) (hdata : (sendRecvBufferBytes M H E : ℤ) % 16 = 0) :
    ((BufferPair.new 0 M H R E).buffers b).rdmaSendDataBuffer % 16 = 8 * ((b + 1) * E) % 16 ∧
      ((BufferPair.new 0 M H R E).buffers b).rdmaRecvDataBuffer % 16 = 8 * ((b + 1) * E) % 16 := by
  have hsignal := signalingBufferBytes_emod E
  have hbase : (rdmaBaseOffset (signalingBufferBytes E) (sendRecvBufferBytes M H E) b : ℤ) % 16
      = 8 * (b * E) % 16 := by
    rw [rdmaBaseOffset, toSizeT_emod]
    obtain rfl | rfl : b = 0 ∨ b = 1 := by omega
    · omega
    · omega
  show (0 + (toSizeT (_ + 2 * _) : ℤ)) % 16 = _ ∧ (0 + (toSizeT (_ + 2 * _ + _) : ℤ)) % 16 = _
  rw [Int.zero_add, Int.zero_add, toSizeT_emod, toSizeT_emod]
  rw [show (8 * (((b : ℤ) + 1) * E)) = 8 * (b * E) + 8 * E by ring]
  omega

end

/-! ### Accesses -/

/-- The slots of `dispatch` are 16-byte aligned in their region. -/
theorem dvd_messageOffset (h : c.shape.Supported) (le s : ℕ) (slot : ℤ) :
    (16 : ℤ) ∣ c.messageOffset le s slot := by
  have hmsg : (16 : ℤ) ∣ c.shape.numBytesPerMsg := by exact_mod_cast dvd_numBytesPerMsg h
  rw [messageOffset_eq]
  exact Dvd.dvd.mul_left hmsg _

/-- So are the slots of `combine`. -/
theorem dvd_slotOffset (h : c.shape.Supported) (e : ℕ) (token : ℤ) :
    (16 : ℤ) ∣ c.slotOffset e token := by
  have hslot : (16 : ℤ) ∣ c.shape.numBytesPerSlot := by exact_mod_cast dvd_numBytesPerSlot h
  exact Dvd.dvd.mul_left hslot _

/-- Every access is a whole number of vectors after the start of a data region. -/
theorem vectorPtr_offset_emod (hsupp : c.shape.Supported) (hmap : c.fabric.Mapped) (b r : ℕ)
    (a : VectorAccess) :
    (c.vectorPtr b r a).offset % 16 = (c.fabric.buffers b).rdmaSendDataBuffer % 16 ∨
      (c.vectorPtr b r a).offset % 16 = (c.fabric.buffers b).rdmaRecvDataBuffer % 16 := by
  -- The sizes of a message and of a slot are multiples of 16, and so is every step of a loop.
  have hmsg : (16 : ℤ) ∣ c.shape.numBytesPerMsg := by exact_mod_cast dvd_numBytesPerMsg hsupp
  have hslot : (16 : ℤ) ∣ c.shape.numBytesPerSlot := by exact_mod_cast dvd_numBytesPerSlot hsupp
  have hvec : ∀ i : ℕ, (16 : ℤ) ∣ sizeofInt4 * i := fun i => Dvd.dvd.mul_right (dvd_refl _) _
  have hafter : ∀ i : ℕ, (16 : ℤ) ∣ sizeofInt4 + sizeofInt4 * i :=
    fun i => Int.dvd_add (dvd_refl _) (hvec i)
  have hsum : ∀ start row v : ℤ, 16 ∣ row → 16 ∣ v → (0 + (start + row) + v) % 16 = start % 16 := by
    intro start row v hrow hv
    omega
  -- What is left of the address is the start of its region.
  cases a with
  | stagePayload t i => exact .inl (hsum _ _ _ (Dvd.dvd.mul_left hmsg _) (hafter i))
  | messageLoad t d i => exact .inl (hsum _ _ _ (Dvd.dvd.mul_left hmsg _) (hvec i))
  | messageStore d le slot i =>
    rw [vectorPtr, Fabric.target_recvData hmap]
    exact .inr (hsum _ _ _ (dvd_messageOffset hsupp le r slot) (hvec i))
  | payloadLoad le s i k => exact .inr (hsum _ _ _ (dvd_messageOffset hsupp le s i) (hafter k))
  | slotStore d le srcIdx k =>
    rw [vectorPtr, Fabric.target_recvData hmap]
    exact .inr (hsum _ _ _ (dvd_slotOffset hsupp _ srcIdx) (hvec k))
  | slotStage d le t k => exact .inl (hsum _ _ _ (Dvd.dvd.mul_left hslot _) (hvec k))
  | slotLoad e t i => exact .inr (hsum _ _ _ (dvd_slotOffset hsupp e t) (hvec i))

/-- The buffers are those of the `BufferPair` for the sizes of the system, for a supported payload,
and the peers are mapped at their buffers. The sizes may overflow. -/
structure Paired (c : Config A) : Prop where
  supported : c.shape.Supported
  buffers : ∀ b < 2, c.fabric.buffers b = (BufferPair.new 0 c.numMaxDispatchTokensPerRank
    c.shape.hidden c.numRanks c.numExperts).buffers b
  mapped : c.fabric.Mapped

/-- The accesses into one buffer are aligned if and only if it is the second one or the number of
experts is even. -/
theorem Paired.vectorAligned_buffer_iff (h : c.Paired) {base : ℕ → ℤ} (hbase : ∀ r, 256 ∣ base r)
    {b : ℕ} (hb : b < 2) : c.VectorAligned base b ↔ b = 1 ∨ 2 ∣ c.numExperts := by
  obtain ⟨hsend, hrecv⟩ := dataStart_emod (R := c.numRanks) hb
    (sendRecvBufferBytes_emod c.numMaxDispatchTokensPerRank c.numExperts h.supported)
  rw [← h.buffers b hb] at hsend hrecv
  constructor
  · intro haligned
    -- The first vector of the first message.
    have hfirst := haligned 0 (.payloadLoad 0 0 0 0) (hiddenInt4_pos h.supported)
    have hrow := dvd_messageOffset h.supported 0 0 0
    have hoff : (c.vectorPtr b 0 (.payloadLoad 0 0 0 0)).offset
        = 0 + ((c.fabric.buffers b).rdmaRecvDataBuffer + c.messageOffset 0 0 0) + 16 := rfl
    have haddr : (16 : ℤ) ∣ base 0 + (c.vectorPtr b 0 (.payloadLoad 0 0 0 0)).offset := hfirst
    rw [hoff] at haddr
    have hb0 := hbase 0
    match b, hb with
    | 0, _ => right; omega
    | 1, _ => left; rfl
  · intro hcond r a _
    have hstart : (8 * (((b : ℤ) + 1) * c.numExperts)) % 16 = 0 := by
      match b, hb, hcond with
      | 0, _, .inr heven => omega
      | 1, _, _ => omega
    show (16 : ℤ) ∣ base (c.vectorPtr b r a).rank + (c.vectorPtr b r a).offset
    have hb0 := hbase (c.vectorPtr b r a).rank
    cases vectorPtr_offset_emod h.supported h.mapped b r a with
    | inl hoff => omega
    | inr hoff => omega

/-- The accesses into both buffers are aligned if and only if the number of experts is even. -/
theorem vectorAligned_iff (h : c.Paired) (base : ℕ → ℤ) (hbase : ∀ r, 256 ∣ base r) :
    (∀ b < 2, c.VectorAligned base b) ↔ 2 ∣ c.numExperts := by
  constructor
  · intro haligned
    cases (h.vectorAligned_buffer_iff hbase (by decide)).mp (haligned 0 (by decide)) with
    | inl hone => exact absurd hone (by decide)
    | inr heven => exact heven
  · exact fun heven b hb => (h.vectorAligned_buffer_iff hbase hb).mpr (.inr heven)

/-- The two ranks have ten experts, and all their vector accesses are aligned. -/
theorem vectorAligned_iff_twoRanks :
    (∀ b < 2, (twoRanksLaidOut true).VectorAligned (fun r => 256 * r) b) ↔ 2 ∣ 10 :=
  vectorAligned_iff
    { supported := by decide
      buffers := fun _ _ => rfl
      mapped := fun _ _ => ⟨rfl, rfl⟩ }
    (fun r => 256 * r) (fun r => Dvd.intro (r : ℤ) rfl)

/-- One rank with nine experts. -/
def nineExperts : Config ℕ :=
  { twoRanksLaidOut false with
    numRanks := 1
    numExperts := 9
    fabric :=
      { (twoRanksLaidOut false).fabric with buffers := (BufferPair.new 0 1 2048 1 9).buffers } }

/-- The first vector of the first message of nine experts is at byte `8 + 16 * k`. -/
theorem not_vectorAligned_nineExperts :
    nineExperts.Paired ∧ ¬∀ b < 2, nineExperts.VectorAligned (fun _ => 0) b := by
  constructor
  · exact { supported := by decide, buffers := fun _ _ => rfl, mapped := fun _ _ => ⟨rfl, rfl⟩ }
  · intro haligned
    have hfirst := haligned 0 (by decide) 0 (.payloadLoad 0 0 0 0)
      (show 0 < nineExperts.hiddenInt4 by decide)
    exact absurd hfirst (by decide)

end EpDemo.System.Config
