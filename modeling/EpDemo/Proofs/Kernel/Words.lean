import EpDemo.Kernel.Launch

/-!
# `EpDemo.Proofs.Kernel.Words`: `int` arithmetic and packed words

A word that only sees `atomicAdd` holds the wrapped exact sum of what was added
(`toInt32_add`), and two exact values closer than `2 ^ 32` that wrap to the same `int` are
equal (`eq_of_toInt32_eq`).
-/

set_option autoImplicit false

namespace EpDemo.Kernel

/-- An exact value in the range of `int` is its own `int`. -/
theorem toInt32_of_range {z : ℤ} (hlo : -2 ^ 31 ≤ z) (hhi : z < 2 ^ 31) : toInt32 z = z :=
  Int.bmod_eq_of_le_mul_two (by omega) (by omega)

/-- A number below `2 ^ 31` is the same as an `int`. -/
theorem toInt32_natCast {n : ℕ} (h : n < 2 ^ 31) : toInt32 n = n :=
  toInt32_of_range (by omega) (by omega)

/-- Adding to a wrapped value wraps the exact sum. -/
@[simp] theorem toInt32_add (x y : ℤ) : toInt32 (toInt32 x + y) = toInt32 (x + y) :=
  Int.bmod_add_bmod

/-- `int` arithmetic only identifies values that are `2 ^ 32` apart. -/
theorem eq_of_toInt32_eq {x y : ℤ} (h : toInt32 x = y) (hlo : x - y < 2 ^ 32)
    (hhi : y - x < 2 ^ 32) : x = y := by
  have hdvd : (2 ^ 32 : ℤ) ∣ y - x := h ▸ Int.dvd_bmod_sub_self (x := x) (m := 2 ^ 32)
  obtain ⟨k, hk⟩ := hdvd
  omega

/-- An `int` is below `2 ^ 31`. -/
theorem toInt32_lt (z : ℤ) : toInt32 z < 2 ^ 31 := by
  have := Int.bmod_lt (x := z) (m := 2 ^ 32) (by decide)
  simpa [toInt32] using this

/-- An `int` is at least `-2 ^ 31`. -/
theorem le_toInt32 (z : ℤ) : -2 ^ 31 ≤ toInt32 z := by
  have := Int.le_bmod (x := z) (m := 2 ^ 32) (by decide)
  simpa [toInt32] using this

/-! ### `atomicAdd` -/

/-- The word that is added to. -/
@[simp] theorem atomicAdd_self (a : ℕ → ℤ) (i : ℕ) (v : ℤ) :
    atomicAdd a i v i = toInt32 (a i + v) :=
  Function.update_self ..

/-- Other words stay as they are. -/
theorem atomicAdd_of_ne {a : ℕ → ℤ} {i j : ℕ} (h : j ≠ i) (v : ℤ) : atomicAdd a i v j = a j :=
  Function.update_of_ne h ..

/-! ### `pack2` -/

/-- `unpack2` gives back the two values that `pack2` put together. -/
theorem unpack2_pack2 {x y : ℤ} (hx : toInt32 x = x) (hy : toInt32 y = y) :
    unpack2 (pack2 x y) = (x, y) := by
  have hlo : (pack2 x y).extractLsb' 0 32 = BitVec.ofInt 32 x :=
    BitVec.extractLsb'_append_eq_right (a := BitVec.ofInt 32 y) (b := BitVec.ofInt 32 x)
  have hhi : (pack2 x y).extractLsb' 32 32 = BitVec.ofInt 32 y :=
    BitVec.extractLsb'_append_eq_left (a := BitVec.ofInt 32 y) (b := BitVec.ofInt 32 x)
  rw [unpack2, hlo, hhi, BitVec.toInt_ofInt, BitVec.toInt_ofInt]
  exact Prod.ext hx hy

end EpDemo.Kernel
