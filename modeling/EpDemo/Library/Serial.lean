import Mathlib.Algebra.Group.Nat.Defs
import Mathlib.Data.Int.Notation
import Mathlib.Data.Nat.Notation

/-!
# `EpDemo.Library.Serial`: counters that are compared by their signed difference

A counter of `w` bits counts numbers that do not fit into it. Code that asks whether the counter `t`
has passed the number `e` looks at the sign of `t - e`. `toInt_sub_nonpos_iff` says what the answer
is worth when `t` is behind `e`: it is right while the distance, which may be of any size, is at
most half of the range modulo the range. `toInt_sub_nonpos_of_near` is the case that needs no
remainder.
-/

set_option autoImplicit false

namespace EpDemo.Library

/-- The difference of two counters, the first of which is behind. -/
theorem toNat_ofNat_sub_ofNat {w t e : ℕ} (h : t ≤ e) :
    (BitVec.ofNat w t - BitVec.ofNat w e).toNat = (2 ^ w - (e - t) % 2 ^ w) % 2 ^ w := by
  obtain ⟨k, rfl⟩ : ∃ k, e = t + k := ⟨e - t, by omega⟩
  have hpos : 0 < 2 ^ w := Nat.two_pow_pos w
  have hk : k % 2 ^ w < 2 ^ w := Nat.mod_lt k hpos
  have ht : t % 2 ^ w < 2 ^ w := Nat.mod_lt t hpos
  rw [BitVec.toNat_sub, BitVec.toNat_ofNat, BitVec.toNat_ofNat, Nat.add_sub_cancel_left,
    Nat.add_mod t]
  by_cases hwrap : t % 2 ^ w + k % 2 ^ w < 2 ^ w
  · rw [Nat.mod_eq_of_lt hwrap]
    congr 1
    omega
  · have hlt : t % 2 ^ w + k % 2 ^ w - 2 ^ w < 2 ^ w := by omega
    have hround : 2 ^ w - (t % 2 ^ w + k % 2 ^ w - 2 ^ w) + t % 2 ^ w
        = 2 ^ w - k % 2 ^ w + 2 ^ w := by omega
    have hsum : (t % 2 ^ w + k % 2 ^ w) % 2 ^ w = t % 2 ^ w + k % 2 ^ w - 2 ^ w := by
      rw [Nat.mod_eq_sub_mod (by omega), Nat.mod_eq_of_lt hlt]
    rw [hsum, hround, Nat.add_mod_right]

/-- The sign of the difference of two counters, the first of which is behind. -/
theorem toInt_sub_nonpos_iff {w t e : ℕ} (hw : 0 < w) (h : t ≤ e) :
    (BitVec.ofNat w t - BitVec.ofNat w e).toInt ≤ 0 ↔ (e - t) % 2 ^ w ≤ 2 ^ (w - 1) := by
  have hhalf : 2 ^ w = 2 * 2 ^ (w - 1) := by
    rw [← Nat.pow_succ']
    congr 1
    omega
  have hlt : (e - t) % 2 ^ w < 2 ^ w := Nat.mod_lt _ (Nat.two_pow_pos w)
  rw [BitVec.toInt_eq_toNat_cond, toNat_ofNat_sub_ofNat h]
  generalize (e - t) % 2 ^ w = d at hlt
  by_cases hzero : d = 0
  · subst hzero
    rw [Nat.sub_zero, Nat.mod_self, if_pos (by omega)]
    simp only [Nat.zero_le, Int.natCast_zero, Int.le_refl]
  · rw [Nat.mod_eq_of_lt (by omega : 2 ^ w - d < 2 ^ w)]
    by_cases hfar : 2 * (2 ^ w - d) < 2 ^ w
    · rw [if_pos hfar]
      omega
    · rw [if_neg hfar]
      omega

/-- The first counter is at most half of the range behind. -/
theorem toInt_sub_nonpos_of_near {w t e : ℕ} (hw : 0 < w) (h : t ≤ e)
    (hnear : e ≤ t + 2 ^ (w - 1)) : (BitVec.ofNat w t - BitVec.ofNat w e).toInt ≤ 0 :=
  (toInt_sub_nonpos_iff hw h).mpr (Nat.le_trans (Nat.mod_le _ _) (by omega))

end EpDemo.Library
