import Mathlib.Data.Int.ConditionallyCompleteOrder
import Mathlib.Data.Int.Interval
import Mathlib.Order.CompletePartialOrder
import Mathlib.Order.Interval.Set.Disjoint
import Mathlib.Tactic.Linarith

/-!
# `EpDemo.Library.Ranges`: byte ranges and the rows of an array

A byte range is the half-open interval of its addresses. An array is a range that is cut into
rows of one size: a row lies in its array (`row_subset`), and different rows have no byte in
common (`row_disjoint`). An index with several digits names a row when the digits determine the
number of the row, which `digits_inj` gives for one digit at a time.
-/

set_option autoImplicit false

namespace EpDemo.Library

/-- The `n` bytes from `p`. -/
def bytes (p : ℤ) (n : ℕ) : Set ℤ := Set.Ico p (p + n)

/-- The bytes of a range, as two inequalities. -/
theorem mem_bytes {p x : ℤ} {n : ℕ} : x ∈ bytes p n ↔ p ≤ x ∧ x < p + n := Iff.rfl

/-- A range that starts and ends inside another one is part of it. -/
theorem bytes_subset {p q : ℤ} {m n : ℕ} (hlo : q ≤ p) (hhi : p + m ≤ q + n) :
    bytes p m ⊆ bytes q n :=
  Set.Ico_subset_Ico hlo hhi

/-- A range that ends before another one starts has no byte in common with it. -/
theorem bytes_disjoint_of_le {p q : ℤ} {m n : ℕ} (h : p + m ≤ q) :
    Disjoint (bytes p m) (bytes q n) := by
  refine Set.disjoint_left.mpr fun x hx hy => ?_
  rw [mem_bytes] at hx hy
  omega

/-- A row lies in its array. -/
theorem row_subset {p i : ℤ} {n rows size : ℕ} (hlo : 0 ≤ i) (hhi : i < rows)
    (hsize : rows * n ≤ size) : bytes (p + i * n) n ⊆ bytes p size := by
  have hstart : 0 ≤ i * n := Int.mul_nonneg hlo (Int.natCast_nonneg n)
  have hend : (i + 1) * n ≤ (rows : ℤ) * n :=
    Int.mul_le_mul_of_nonneg_right (by omega) (Int.natCast_nonneg n)
  have hsize : (rows : ℤ) * n ≤ size := by exact_mod_cast hsize
  rw [Int.add_mul, Int.one_mul] at hend
  exact bytes_subset (by omega) (by omega)

/-- Different rows have no byte in common. -/
theorem row_disjoint {p i j : ℤ} {n : ℕ} (hne : i ≠ j) :
    Disjoint (bytes (p + i * n) n) (bytes (p + j * n) n) := by
  -- The row with the smaller number ends where the next one starts.
  have key : ∀ a b : ℤ, a < b → p + a * n + n ≤ p + b * n := by
    intro a b hab
    have hmul : (a + 1) * n ≤ b * n :=
      Int.mul_le_mul_of_nonneg_right (by omega) (Int.natCast_nonneg n)
    rw [Int.add_mul, Int.one_mul] at hmul
    omega
  cases Int.lt_or_gt_of_ne hne with
  | inl hlt => exact bytes_disjoint_of_le (key i j hlt)
  | inr hgt => exact (bytes_disjoint_of_le (key j i hgt)).symm

/-- A number with a last digit below `n` determines this digit and the rest. -/
theorem digits_inj {x y a b n : ℤ} (ha : 0 ≤ a) (han : a < n) (hb : 0 ≤ b) (hbn : b < n)
    (h : x * n + a = y * n + b) : x = y ∧ a = b := by
  have hn : 0 ≤ n := by omega
  have hxy : x = y := by
    by_contra hne
    cases Int.lt_or_gt_of_ne hne with
    | inl hlt =>
      have hmul := Int.mul_le_mul_of_nonneg_right (Int.add_one_le_of_lt hlt) hn
      rw [Int.add_mul, Int.one_mul] at hmul
      omega
    | inr hgt =>
      have hmul := Int.mul_le_mul_of_nonneg_right (Int.add_one_le_of_lt hgt) hn
      rw [Int.add_mul, Int.one_mul] at hmul
      omega
  subst hxy
  exact ⟨rfl, by omega⟩

/-- A number with a last digit below `n` and a rest below `k` is below `k * n`. -/
theorem digits_lt {x a : ℤ} {n k : ℕ} (hx : x < k) (han : a < n) : x * n + a < (k * n : ℕ) := by
  have hmul : (x + 1) * n ≤ (k : ℤ) * n :=
    Int.mul_le_mul_of_nonneg_right (by omega) (Int.natCast_nonneg n)
  rw [Int.add_mul, Int.one_mul] at hmul
  push_cast
  omega

end EpDemo.Library
