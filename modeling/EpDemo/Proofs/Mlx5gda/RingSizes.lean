import EpDemo.Buffer.Lifecycle
import EpDemo.Mlx5gda.RingSizes
import EpDemo.Proofs.Mlx5gda.Create
import Mathlib.Order.Bounds.Basic

/-!
# `EpDemo.Proofs.Mlx5gda.RingSizes`: one exponent for every ring

A positive `int` is at most `2 ^ 31 - 1`, so the loop of `round_up_pow2` stops at a power of two
that fits into 32 bits (`doubleUntil_spec`), and it is the least one that is large enough. Its
exponent is what counting the trailing zeros gives, and what the logarithm gives (`SizesAgree`). A
larger `uint32_t` would double past `2 ^ 31` to zero and stay there (`roundUpPow2Uint32_spins`).

The logarithms are handed to the device in fields of a few bits. What it reads there is the subject
of `EpDemo.Proofs.Mlx5gda.Commands`.

`EpDemo.Mlx5gda` computes the same size without the wrap (`roundUpPow2_eq`).
-/

set_option autoImplicit false

namespace EpDemo.Mlx5gda

open EpDemo.Library EpDemo.Memheap

/-! ### Rounding up -/

/-- The exponent of the least power of two that is not below `n`. -/
def exponent (n : BitVec 32) : ℕ := Nat.clog 2 n.toNat

/-- A size of at most `2 ^ 31` has an exponent of at most 31. -/
theorem exponent_le {n : BitVec 32} (hn : n.toNat ≤ 2 ^ 31) : exponent n ≤ 31 := by
  by_contra h
  have hlt : 2 ^ 31 < n.toNat := (Nat.lt_clog_iff_pow_lt (by decide)).mp (by
    show 31 < exponent n
    omega)
  omega

/-- A power of two of 32 bits. -/
theorem toNat_ofNat_two_pow {k : ℕ} (hk : k ≤ 31) : (BitVec.ofNat 32 (2 ^ k)).toNat = 2 ^ k := by
  rw [BitVec.toNat_ofNat]
  exact Nat.mod_eq_of_lt (Nat.pow_lt_pow_right (by decide) (by omega))

/-- Doubling a power of two. -/
theorem shiftLeft_two_pow (k : ℕ) :
    BitVec.ofNat 32 (2 ^ k) <<< 1 = BitVec.ofNat 32 (2 ^ (k + 1)) := by
  apply BitVec.eq_of_toNat_eq
  rw [BitVec.toNat_shiftLeft, BitVec.toNat_ofNat, BitVec.toNat_ofNat, Nat.shiftLeft_eq, pow_one,
    Nat.mod_mul_mod, ← pow_succ]

/-- The loop comes from any smaller power of two to the least one that is large enough. -/
theorem doubleUntil_spec {n : BitVec 32} (hn : n.toNat ≤ 2 ^ 31) (fuel : ℕ) :
    ∀ k, k ≤ exponent n → exponent n < k + fuel →
      doubleUntil n fuel (BitVec.ofNat 32 (2 ^ k)) = some (BitVec.ofNat 32 (2 ^ exponent n)) := by
  induction fuel with
  | zero =>
    intro k hk hfuel
    omega
  | succ fuel ih =>
    intro k hk hfuel
    have hle := exponent_le hn
    have hless : BitVec.ofNat 32 (2 ^ k) < n ↔ k < exponent n := by
      rw [BitVec.lt_def, toNat_ofNat_two_pow (by omega)]
      exact (Nat.lt_clog_iff_pow_lt (by decide)).symm
    rw [doubleUntil]
    by_cases hlt : k < exponent n
    · rw [if_pos (hless.mpr hlt), shiftLeft_two_pow]
      exact ih (k + 1) hlt (by omega)
    · have hend : k = exponent n := by omega
      rw [if_neg (fun h => hlt (hless.mp h)), hend]

/-- Above `2 ^ 31` the doubling wraps to zero, and the loop does not end. -/
theorem doubleUntil_spins {n : BitVec 32} (hn : 2 ^ 31 < n.toNat) (fuel : ℕ) :
    ∀ pow2 : BitVec 32, (pow2 = 0 ∨ ∃ k, k ≤ 31 ∧ pow2 = BitVec.ofNat 32 (2 ^ k)) →
      doubleUntil n fuel pow2 = none := by
  -- By induction on the fuel. The loop variable is 0 or a power of two below n.
  induction fuel with
  | zero => exact fun _ _ => rfl
  | succ fuel ih =>
    intro pow2 hpow
    rw [doubleUntil]
    rcases hpow with rfl | ⟨k, hk, rfl⟩
    · -- At 0 the shift gives 0 again.
      have hlt : (0 : BitVec 32) < n := by
        rw [BitVec.lt_def]
        show 0 < n.toNat
        omega
      rw [if_pos hlt]
      exact ih _ (Or.inl rfl)
    · have hlt : BitVec.ofNat 32 (2 ^ k) < n := by
        rw [BitVec.lt_def, toNat_ofNat_two_pow hk]
        exact lt_of_le_of_lt (Nat.pow_le_pow_right (by decide) hk) hn
      rw [if_pos hlt, shiftLeft_two_pow]
      -- The power of two with exponent 31 is shifted out of the 32 bits.
      by_cases hlast : k = 31
      · subst hlast
        exact ih _ (Or.inl rfl)
      · exact ih _ (Or.inr ⟨k + 1, by omega, rfl⟩)

/-- A `uint32_t` above `2 ^ 31` has no least power of two in 32 bits. -/
theorem roundUpPow2Uint32_spins {n : BitVec 32} (hn : 2 ^ 31 < n.toNat) (fuel : ℕ) :
    roundUpPow2Uint32 fuel n = none := by
  have hnot : ¬n ≤ 1 := by
    rw [BitVec.le_def]
    show ¬n.toNat ≤ 1
    omega
  rw [roundUpPow2Uint32, if_neg hnot]
  exact doubleUntil_spins hn fuel 1 (Or.inr ⟨0, by decide, rfl⟩)

/-- `round_up_pow2` ends within 32 turns for every value that comes from a positive `int`. -/
theorem ibgdaRoundUpPow2Or0_eq {n : BitVec 32} (hpos : n ≠ 0) (hn : n.toNat ≤ 2 ^ 31) {fuel : ℕ}
    (hfuel : 32 ≤ fuel) : ibgdaRoundUpPow2Or0 fuel n = some (BitVec.ofNat 32 (2 ^ exponent n)) := by
  have hle := exponent_le hn
  rw [ibgdaRoundUpPow2Or0, if_neg hpos, roundUpPow2Uint32]
  by_cases hone : n ≤ 1
  · have hnat : n.toNat ≤ 1 := hone
    have hzero : exponent n = 0 := Nat.clog_of_right_le_one hnat 2
    rw [if_pos hone, hzero]
    rfl
  · rw [if_neg hone]
    exact doubleUntil_spec hn fuel 0 (Nat.zero_le _) (by omega)

/-- The size without the wrap. -/
theorem roundUpPow2_eq {n : ℕ} (hn : n ≤ 2 ^ 31) : roundUpPow2 n = 2 ^ Nat.clog 2 n := by
  rw [roundUpPow2]
  by_cases hone : n ≤ 1
  · rw [if_pos hone, Nat.clog_of_right_le_one hone 2]
    rfl
  · rw [if_neg hone, List.range_eq_range']
    have hle : Nat.clog 2 n ≤ 31 := by
      by_contra h
      have hlt : 2 ^ 31 < n := (Nat.lt_clog_iff_pow_lt (by decide)).mp (by omega)
      omega
    -- Turn `i` leaves the exponent `i`, until the exponent of `n` is reached.
    have hstart : 1 = 2 ^ min 0 (Nat.clog 2 n) := by rw [Nat.zero_min, pow_zero]
    refine (foldl_range'_invariant (f := fun pow2 _ => if pow2 < n then 2 * pow2 else pow2)
      (I := fun i pow2 => pow2 = 2 ^ min i (Nat.clog 2 n)) (a := 0) (n := 32) (s := 1) hstart
      ?_).trans ?_
    · intro i pow2 _ _ hpow
      have hless : pow2 < n ↔ i < Nat.clog 2 n := by
        rw [hpow, ← Nat.lt_clog_iff_pow_lt (by decide)]
        omega
      by_cases hi : i < Nat.clog 2 n
      · rw [if_pos (hless.mpr hi), hpow, min_eq_left (by omega), min_eq_left (by omega), pow_succ,
          Nat.mul_comm]
      · rw [if_neg (fun h => hi (hless.mp h)), hpow, min_eq_right (by omega),
          min_eq_right (by omega)]
    · rw [min_eq_right (by omega)]

/-! ### Logarithms and the mask -/

/-- Counting trailing zeros finds the exponent of a power of two. -/
theorem logCqSize_two_pow {k : ℕ} (hk : k ≤ 31) : logCqSize (BitVec.ofNat 32 (2 ^ k)) = k := by
  have hbit : ∀ i, (BitVec.ofNat 32 (2 ^ k)).getLsbD i = true → k = i := by
    intro i hi
    rw [BitVec.getLsbD_ofNat, Nat.testBit_two_pow] at hi
    exact of_decide_eq_true (Bool.and_eq_true_iff.mp hi).2
  have hne : BitVec.ofNat 32 (2 ^ k) ≠ 0 := by
    intro hzero
    have hnat := toNat_ofNat_two_pow hk
    rw [hzero] at hnat
    exact (Nat.two_pow_pos k).ne hnat
  exact (hbit _ (BitVec.getLsbD_true_ctz_of_ne_zero hne)).symm

/-- So does the logarithm. -/
theorem logSqSize_two_pow {k : ℕ} (hk : k ≤ 31) : logSqSize (BitVec.ofNat 32 (2 ^ k)) = k := by
  rw [logSqSize, toNat_ofNat_two_pow hk, ibgdaIlog2Or0, if_neg (Nat.two_pow_pos k).ne', ibgdaIlog2,
    Nat.clog_pow 2 k (by decide)]

/-- The mask takes the remainder. -/
theorem and_wqeidMask {k : ℕ} (hk : k ≤ 31) (x : BitVec 32) :
    x &&& wqeidMask (BitVec.ofNat 32 (2 ^ k)) = x % BitVec.ofNat 32 (2 ^ k) := by
  have hpos : 0 < 2 ^ k := Nat.two_pow_pos k
  have hlt : 2 ^ k < 2 ^ 32 := Nat.pow_lt_pow_right (by decide) (by omega)
  have hmask : (wqeidMask (BitVec.ofNat 32 (2 ^ k))).toNat = 2 ^ k - 1 := by
    rw [wqeidMask, BitVec.toNat_sub, toNat_ofNat_two_pow hk]
    show (2 ^ 32 - 1 + 2 ^ k) % 2 ^ 32 = 2 ^ k - 1
    omega
  apply BitVec.eq_of_toNat_eq
  rw [BitVec.toNat_and, hmask, BitVec.toNat_umod, toNat_ofNat_two_pow hk,
    Nat.and_two_pow_sub_one_eq_mod]

/-- `size` is the size of a ring for `n` entries: `round_up_pow2` ends with it, it is the least
power of two that is not below `n`, both logarithms are its exponent, and its mask takes the
remainder. -/
structure SizesAgree (n size : BitVec 32) : Prop where
  computed : ∀ fuel, 32 ≤ fuel → ibgdaRoundUpPow2Or0 fuel n = some size
  least : IsLeast {p | n.toNat ≤ p ∧ ∃ k, p = 2 ^ k} size.toNat
  logCqSize : 2 ^ logCqSize size = size.toNat
  logSqSize : 2 ^ logSqSize size = size.toNat
  mask : ∀ x, x &&& wqeidMask size = x % size

/-- A positive `int` does not reach the top bit. -/
theorem toNat_lt_of_pos {n : BitVec 32} (hpos : 0 < n.toInt) : n.toNat < 2 ^ 31 := by
  have hcases := BitVec.toInt_eq_toNat_cond n
  have hnat := n.isLt
  split at hcases <;> omega

/-- A positive `int` has such a size. -/
theorem sizesAgree {n : BitVec 32} (hpos : 0 < n.toInt) :
    SizesAgree n (BitVec.ofNat 32 (2 ^ exponent n)) := by
  have hlt := toNat_lt_of_pos hpos
  have hne : n ≠ 0 := by
    intro hzero
    rw [hzero] at hpos
    exact absurd hpos (by decide)
  have hle := exponent_le hlt.le
  refine ⟨fun fuel hfuel => ibgdaRoundUpPow2Or0_eq hne hlt.le hfuel, ?_, ?_, ?_, and_wqeidMask hle⟩
  · rw [toNat_ofNat_two_pow hle]
    refine ⟨⟨Nat.le_pow_clog (by decide) n.toNat, exponent n, rfl⟩, fun p hp => ?_⟩
    obtain ⟨hnp, k, rfl⟩ := hp
    -- A smaller exponent would not be large enough.
    exact Nat.pow_le_pow_right (by decide) (Nat.clog_le_of_le_pow hnp)
  · rw [logCqSize_two_pow hle, toNat_ofNat_two_pow hle]
  · rw [logSqSize_two_pow hle, toNat_ofNat_two_pow hle]

/-! ### The queues -/

/-- What an accepted completion queue has. -/
theorem cqe_eq {d d' : Device} {cqe : ℤ} {ans : CqAnswers} {cq : Cq}
    (h : mlx5gdaCreateCq d cqe ans = (d', some cq)) : 0 < cqe ∧ cq.cqe = roundUpPow2 cqe.toNat := by
  unfold mlx5gdaCreateCq at h
  split at h
  · cases h
  · refine ⟨by omega, ?_⟩
    dsimp only at h
    split_ifs at h <;>
      simp only [Prod.mk.injEq, reduceCtorEq, and_false, Option.some.injEq] at h
    rw [← h.2]

/-- What an accepted queue pair has. -/
theorem numWqebb_eq {d d' : Device} {wqe : ℤ} {ans : QpAnswers} {qp : Qp}
    (h : mlx5gdaCreateRcQp d wqe ans = (d', some qp)) :
    0 < wqe ∧ qp.numWqebb = roundUpPow2 wqe.toNat ∧ qp.sendCq.cqe = roundUpPow2 wqe.toNat := by
  unfold mlx5gdaCreateRcQp at h
  split at h
  · cases h
  refine ⟨by omega, ?_⟩
  dsimp only at h
  rcases hcq : mlx5gdaCreateCq d wqe ans.cq with ⟨d₁, _ | cq⟩
  · rw [hcq] at h
    split_ifs at h <;> simp only [Prod.mk.injEq, reduceCtorEq, and_false] at h
  rcases huar : createUar d₁ ans.allocUar ans.hostRegister with ⟨d₂, _ | uar⟩
  · simp only [hcq, huar] at h
    split_ifs at h <;> simp only [Prod.mk.injEq, reduceCtorEq, and_false] at h
  simp only [hcq, huar] at h
  split_ifs at h <;>
    simp only [Prod.mk.injEq, reduceCtorEq, and_false, Option.some.injEq] at h
  rw [← h.2]
  exact ⟨rfl, (cqe_eq hcq).2⟩

/-- The size in the model and the size in 32 bits. -/
theorem toNat_size {n : BitVec 32} (hpos : 0 < n.toInt) :
    roundUpPow2 n.toInt.toNat = (BitVec.ofNat 32 (2 ^ exponent n)).toNat := by
  have hlt := toNat_lt_of_pos hpos
  have hint : n.toInt.toNat = n.toNat := by
    rw [BitVec.toInt_eq_toNat_of_lt (by omega)]
    exact Int.toNat_natCast _
  rw [hint, roundUpPow2_eq hlt.le, toNat_ofNat_two_pow (exponent_le hlt.le)]
  rfl

/-- The size of a completion queue that `mlx5gda_create_cq` accepted. -/
theorem cq_sizesAgree {d d' : Device} {cqe : BitVec 32} {ans : CqAnswers} {cq : Cq}
    (h : mlx5gdaCreateCq d cqe.toInt ans = (d', some cq)) :
    ∃ size, SizesAgree cqe size ∧ cq.cqe = size.toNat := by
  obtain ⟨hpos, hsize⟩ := cqe_eq h
  exact ⟨_, sizesAgree hpos, hsize.trans (toNat_size hpos)⟩

/-- The size of a queue pair that `mlx5gda_create_rc_qp` accepted: its completion queue has the
same, and the kernels are given its mask. -/
theorem qp_sizesAgree {d d' : Device} {wqe : BitVec 32} {ans : QpAnswers} {qp : Qp}
    (h : mlx5gdaCreateRcQp d wqe.toInt ans = (d', some qp)) :
    ∃ size, SizesAgree wqe size ∧ qp.numWqebb = size.toNat ∧ qp.sendCq.cqe = size.toNat ∧
      (Lifecycle.QpDevctx.ofQp qp).wqeidMask = (wqeidMask size).toNat := by
  obtain ⟨hpos, hsize, hcqe⟩ := numWqebb_eq h
  have hagree := sizesAgree hpos
  refine ⟨_, hagree, hsize.trans (toNat_size hpos), hcqe.trans (toNat_size hpos), ?_⟩
  -- The mask of the context is one less than the size, which is not zero.
  show qp.numWqebb - 1 = (wqeidMask (BitVec.ofNat 32 (2 ^ exponent wqe))).toNat
  rw [hsize, toNat_size hpos]
  obtain ⟨k, hk⟩ := hagree.least.1.2
  have hpow : 0 < 2 ^ k := Nat.two_pow_pos k
  have hlt := (BitVec.ofNat 32 (2 ^ exponent wqe)).isLt
  rw [wqeidMask, BitVec.toNat_sub]
  show _ = (2 ^ 32 - 1 + _) % 2 ^ 32
  omega

end EpDemo.Mlx5gda
