import EpDemo.Buffer.Layout
import EpDemo.Library.Ranges
import Mathlib.Tactic.Ring

/-!
# `EpDemo.Proofs.Buffer.Layout`: the regions of a `BufferPair` tile its memory

Without overflow the sizes and the starts of the eight regions are what one reads in the source
(`start_new`). They follow each other without a gap, so they are disjoint and their union is the
whole of the memory (`tiles_new`).
-/

set_option autoImplicit false

namespace EpDemo.Buffer

open EpDemo.Kernel EpDemo.Library

variable {M H R E : ℕ}

/-- The C arithmetic of `BufferPair` does not overflow: the number of rows is an `int`, and the
number of bytes a `size_t`. -/
structure NoOverflow (M H E : ℕ) : Prop where
  rows : E * M < 2 ^ 31
  bytes : 4 * (E * 4) + 4 * (E * M * (2 * 16 + H * 2)) < 2 ^ 64

/-- A number below `2 ^ 64` is the same as a `size_t`. -/
theorem toSizeT_natCast {n : ℕ} (h : n < 2 ^ 64) : toSizeT n = n := by
  have hmod : (n : ℤ) % 2 ^ 64 = n := Int.emod_eq_of_lt (Int.natCast_nonneg n) (by exact_mod_cast h)
  rw [toSizeT, hmod, Int.toNat_natCast]

/-- A number below `2 ^ 31` is the same as an `int`. -/
theorem toInt32_natCast_of_lt {n : ℕ} (h : n < 2 ^ 31) : toInt32 n = n :=
  Int.bmod_eq_of_le (by omega) (by omega)

/-- The signalling buffer has four bytes for each expert. -/
theorem signalingBufferBytes_eq (h : NoOverflow M H E) : signalingBufferBytes E = E * 4 := by
  have hbytes := h.bytes
  exact_mod_cast toSizeT_natCast (n := E * 4) (by omega)

/-- A send or receive buffer has a message for each expert and each token slot. -/
theorem sendRecvBufferBytes_eq (h : NoOverflow M H E) :
    sendRecvBufferBytes M H E = E * M * (2 * 16 + H * 2) := by
  have hbytes := h.bytes
  have hrows : toInt32 ((E : ℤ) * M) = (E * M : ℕ) := by
    exact_mod_cast toInt32_natCast_of_lt h.rows
  rw [sendRecvBufferBytes, hrows]
  exact_mod_cast toSizeT_natCast (n := E * M * (2 * 16 + H * 2)) (by omega)

/-- The two buffers have four signalling and four message regions together. -/
theorem totalBytes_eq (h : NoOverflow M H E) (base : ℤ) :
    (BufferPair.new base M H R E).totalBytes =
      4 * (E * 4) + 4 * (E * M * (2 * 16 + H * 2)) := by
  show toSizeT (4 * signalingBufferBytes E + 4 * sendRecvBufferBytes M H E) = _
  rw [signalingBufferBytes_eq h, sendRecvBufferBytes_eq h]
  exact_mod_cast toSizeT_natCast h.bytes

/-- The bytes of region `k` of buffer `i`. -/
def regionBytes (p : BufferPair) (M H E : ℕ) (i : Fin 2) (k : Region) : Set ℤ :=
  bytes (k.start (p.buffers i)) (k.size M H E)

/-- The number of bytes before a region in its buffer. -/
def Region.before (signaling sendRecv : ℕ) : Region → ℕ
  | .sendSignal => 0
  | .recvSignal => signaling
  | .sendData => 2 * signaling
  | .recvData => 2 * signaling + sendRecv

/-- Where the regions start. -/
theorem start_new (h : NoOverflow M H E) (base : ℤ) (i : Fin 2) (k : Region) :
    k.start ((BufferPair.new base M H R E).buffers i) =
      base + (i * (2 * (E * 4) + 2 * (E * M * (2 * 16 + H * 2))) +
        k.before (E * 4) (E * M * (2 * 16 + H * 2)) : ℕ) := by
  have hbytes := h.bytes
  -- The offset of the second buffer is the size of the first, and it does not overflow.
  have hbase : rdmaBaseOffset (E * 4) (E * M * (2 * 16 + H * 2)) i =
      i * (2 * (E * 4) + 2 * (E * M * (2 * 16 + H * 2))) := by
    have hcast : (2 * (i : ℕ) * (E * 4 : ℕ) + 2 * (i : ℕ) * (E * M * (2 * 16 + H * 2) : ℕ) : ℤ) =
        (i * (2 * (E * 4) + 2 * (E * M * (2 * 16 + H * 2))) : ℕ) := by
      push_cast
      ring
    rw [rdmaBaseOffset, hcast]
    refine toSizeT_natCast ?_
    have hi := Nat.mul_le_mul_right (2 * (E * 4) + 2 * (E * M * (2 * 16 + H * 2)))
      (Nat.le_of_lt_succ i.isLt)
    omega
  -- Both buffers lie below the total.
  have hlast : (i : ℕ) * (2 * (E * 4) + 2 * (E * M * (2 * 16 + H * 2))) ≤
      2 * (E * 4) + 2 * (E * M * (2 * 16 + H * 2)) := by
    have hi := Nat.mul_le_mul_right (2 * (E * 4) + 2 * (E * M * (2 * 16 + H * 2)))
      (Nat.le_of_lt_succ i.isLt)
    omega
  simp only [BufferPair.new, signalingBufferBytes_eq h, sendRecvBufferBytes_eq h, hbase]
  generalize (i : ℕ) * (2 * (E * 4) + 2 * (E * M * (2 * 16 + H * 2))) = start at hlast ⊢
  generalize E * M * (2 * 16 + H * 2) = sendRecv at hbytes hlast ⊢
  -- Each region starts where the sizes before it end.
  cases k with
  | sendSignal => rfl
  | recvSignal =>
    show base + (toSizeT (start + (E * 4 : ℕ)) : ℤ) = _
    have heq := toSizeT_natCast (n := start + E * 4) (by omega)
    rw [Nat.cast_add] at heq
    rw [heq]
    rfl
  | sendData =>
    show base + (toSizeT (start + 2 * (E * 4 : ℕ)) : ℤ) = _
    have heq := toSizeT_natCast (n := start + 2 * (E * 4)) (by omega)
    rw [Nat.cast_add, Nat.cast_mul 2, Nat.cast_ofNat] at heq
    rw [heq]
    rfl
  | recvData =>
    show base + (toSizeT (start + 2 * (E * 4 : ℕ) + sendRecv) : ℤ) = _
    have heq := toSizeT_natCast (n := start + 2 * (E * 4) + sendRecv) (by omega)
    rw [Nat.cast_add, Nat.cast_add, Nat.cast_mul 2, Nat.cast_ofNat] at heq
    rw [heq, Nat.add_assoc]
    rfl

/-- The regions are disjoint, and together they are all of the memory. -/
structure Tiles (base : ℤ) (M H R E : ℕ) : Prop where
  disjoint : ∀ i k i' k', (i, k) ≠ (i', k') →
    Disjoint (regionBytes (BufferPair.new base M H R E) M H E i k)
      (regionBytes (BufferPair.new base M H R E) M H E i' k')
  cover : ∀ x, (∃ i k, x ∈ regionBytes (BufferPair.new base M H R E) M H E i k) ↔
    x ∈ bytes base (BufferPair.new base M H R E).totalBytes
  hint : (BufferPair.new base M H R E).totalBytes = getEpBufferSizeHint M H R E

/-- The size of a region. -/
theorem size_eq (h : NoOverflow M H E) (k : Region) :
    k.size M H E = match k with
      | .sendSignal | .recvSignal => E * 4
      | .sendData | .recvData => E * M * (2 * 16 + H * 2) := by
  cases k <;> simp only [Region.size, signalingBufferBytes_eq h, sendRecvBufferBytes_eq h]

/-- The bytes of a region in a buffer that starts at `start`. -/
def Region.Has (signaling sendRecv : ℕ) (start : ℤ) (k : Region) (x : ℤ) : Prop :=
  start + k.before signaling sendRecv ≤ x ∧ x < start + k.before signaling sendRecv +
    match k with
    | .sendSignal | .recvSignal => signaling
    | .sendData | .recvData => sendRecv

/-- The regions of a buffer follow each other without a gap. -/
theorem exists_region (signaling sendRecv : ℕ) {start x : ℤ} (hlo : start ≤ x)
    (hhi : x < start + (2 * signaling + 2 * sendRecv)) :
    ∃ k : Region, k.Has signaling sendRecv start x := by
  by_cases hsend : x < start + signaling
  · exact ⟨.sendSignal, by simp only [Region.Has, Region.before]; omega⟩
  · by_cases hrecv : x < start + 2 * signaling
    · exact ⟨.recvSignal, by simp only [Region.Has, Region.before]; omega⟩
    · by_cases hdata : x < start + 2 * signaling + sendRecv
      · exact ⟨.sendData, by simp only [Region.Has, Region.before]; omega⟩
      · exact ⟨.recvData, by simp only [Region.Has, Region.before]; omega⟩

/-- A byte of a buffer belongs to one region. -/
theorem region_unique {signaling sendRecv : ℕ} {start x : ℤ} {k k' : Region}
    (h : k.Has signaling sendRecv start x) (h' : k'.Has signaling sendRecv start x) : k = k' := by
  cases k <;> cases k' <;> simp only [Region.Has, Region.before, reduceCtorEq] at h h' ⊢ <;> omega

/-- A byte of a region belongs to the buffer. -/
theorem Region.Has.mem {signaling sendRecv : ℕ} {start x : ℤ} {k : Region}
    (h : k.Has signaling sendRecv start x) :
    start ≤ x ∧ x < start + (2 * signaling + 2 * sendRecv) := by
  cases k <;> simp only [Region.Has, Region.before] at h <;> omega

/-- The regions of a new `BufferPair` tile it, one behind the other. -/
theorem tiles_new (h : NoOverflow M H E) (base : ℤ) : Tiles base M H R E := by
  have hmem : ∀ (i : Fin 2) (k : Region) (x : ℤ),
      x ∈ regionBytes (BufferPair.new base M H R E) M H E i k ↔
        k.Has (E * 4) (E * M * (2 * 16 + H * 2))
          (base + (i * (2 * (E * 4) + 2 * (E * M * (2 * 16 + H * 2))) : ℕ)) x := by
    intro i k x
    rw [regionBytes, mem_bytes, start_new h, size_eq h, Region.Has.eq_def]
    cases k <;> simp only [Nat.cast_add, Int.add_assoc]
  have htotal := totalBytes_eq (R := R) h base
  generalize E * M * (2 * 16 + H * 2) = sendRecv at hmem htotal
  generalize E * 4 = signaling at hmem htotal
  constructor
  · intro i k i' k' hne
    refine Set.disjoint_left.mpr fun x hx hx' => hne ?_
    rw [hmem] at hx hx'
    have hin := hx.mem
    have hin' := hx'.mem
    -- A byte of both is a byte of one buffer.
    have hi : i = i' := by
      refine Fin.ext ?_
      by_contra hdiff
      obtain hz | hz : (i : ℕ) = 0 ∧ (i' : ℕ) = 1 ∨ (i : ℕ) = 1 ∧ (i' : ℕ) = 0 := by omega
      · rw [hz.1] at hin
        rw [hz.2] at hin'
        omega
      · rw [hz.1] at hin
        rw [hz.2] at hin'
        omega
    subst hi
    rw [region_unique hx hx']
  · intro x
    rw [mem_bytes, htotal]
    constructor
    · rintro ⟨i, k, hx⟩
      have hin := ((hmem i k x).mp hx).mem
      obtain hz | hz : (i : ℕ) = 0 ∨ (i : ℕ) = 1 := by omega
      · rw [hz] at hin
        omega
      · rw [hz] at hin
        omega
    · intro hx
      by_cases hfirst : x < base + (2 * signaling + 2 * sendRecv)
      · obtain ⟨k, hk⟩ := exists_region signaling sendRecv hx.1 hfirst
        exact ⟨0, k, (hmem 0 k x).mpr (by simpa using hk)⟩
      · have hlo : base + (2 * signaling + 2 * sendRecv) ≤ x := by omega
        obtain ⟨k, hk⟩ := exists_region signaling sendRecv hlo (by omega)
        exact ⟨1, k, (hmem 1 k x).mpr (by simpa using hk)⟩
  · rfl

end EpDemo.Buffer
