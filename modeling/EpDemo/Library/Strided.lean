import Mathlib.Data.List.Nodup
import Mathlib.Data.Nat.ModEq

/-!
# `EpDemo.Library.Strided`: loops with a stride and a bounded counter

`strided bound stride limit i` are the turns of `for (; i < limit; i += stride)` when the counter
is a signed machine integer below `bound`. A sum that leaves the range has no defined result, and
then the loop has none: the answer is `none`.

The turns are the numbers from `i` to `limit` with the remainder of `i` (`strided_spec`), as long as
the counter can step over each of them (`strided_eq_none`).
-/

set_option autoImplicit false

namespace EpDemo.Library

/-- A sum of two counters. -/
def addBelow (bound a b : ℕ) : Option ℕ := if a + b < bound then some (a + b) else none

/-- The turns of `for (; i < limit; i += stride)`. -/
def strided (bound stride limit i : ℕ) : Option (List ℕ) :=
  if h : i < limit ∧ 0 < stride then
    match addBelow bound i stride with
    | some _ => (strided bound stride limit (i + stride)).map (i :: ·)
    | none => none
  else some []
termination_by limit - i

section

variable {bound stride limit : ℕ}

/-- One turn. -/
theorem strided_of_lt {i : ℕ} (hstride : 0 < stride) (hi : i < limit) (hb : i + stride < bound) :
    strided bound stride limit i = (strided bound stride limit (i + stride)).map (i :: ·) := by
  rw [strided, dif_pos ⟨hi, hstride⟩, addBelow, if_pos hb]

/-- The loop ends. -/
theorem strided_of_le {i : ℕ} (hi : limit ≤ i) : strided bound stride limit i = some [] := by
  rw [strided, dif_neg (fun h => absurd h.1 (by omega))]

/-- A number with the remainder of `i` that is not `i` is at least a stride away. -/
theorem add_le_of_mod_eq {i k : ℕ} (hlt : i < k) (hmod : k % stride = i % stride) :
    i + stride ≤ k := by
  have hdvd : stride ∣ k - i := (Nat.modEq_iff_dvd' hlt.le).mp hmod.symm
  have hle := Nat.le_of_dvd (by omega) hdvd
  omega

/-- The turns of a loop whose counter stays in range. -/
theorem strided_spec (hstride : 0 < stride) {i : ℕ}
    (hb : ∀ k, i ≤ k → k < limit → k % stride = i % stride → k + stride < bound) :
    ∃ turns, strided bound stride limit i = some turns ∧ turns.Nodup ∧
      ∀ k, k ∈ turns ↔ i ≤ k ∧ k < limit ∧ k % stride = i % stride := by
  -- Induction on what is left of the range.
  induction hn : limit - i using Nat.strongRecOn generalizing i with
  | ind n ih =>
    by_cases hi : i < limit
    · have hnext : (i + stride) % stride = i % stride := Nat.add_mod_right i stride
      obtain ⟨turns, heq, hnodup, hmem⟩ := ih (limit - (i + stride)) (by omega)
        (fun k hk hlt hmod => hb k (by omega) hlt (hmod.trans hnext)) rfl
      refine ⟨i :: turns, ?_, ?_, fun k => ?_⟩
      · rw [strided_of_lt hstride hi (hb i le_rfl hi rfl), heq]
        rfl
      · -- Later turns are later numbers.
        refine List.nodup_cons.mpr ⟨fun h => ?_, hnodup⟩
        have hlater := ((hmem i).mp h).1
        omega
      · rw [List.mem_cons, hmem, hnext]
        constructor
        · intro hk
          rcases hk with rfl | ⟨hle, hlt, hmod⟩
          · exact ⟨le_rfl, hi, rfl⟩
          · exact ⟨by omega, hlt, hmod⟩
        · intro ⟨hle, hlt, hmod⟩
          by_cases hki : k = i
          · exact Or.inl hki
          · exact Or.inr ⟨add_le_of_mod_eq (by omega) hmod, hlt, hmod⟩
    · refine ⟨[], strided_of_le (by omega), List.nodup_nil, fun k => ?_⟩
      simp only [List.not_mem_nil, false_iff]
      omega

/-- A loop that comes to a number which the counter cannot step over has no defined result. -/
theorem strided_eq_none {i k : ℕ} (hstride : 0 < stride) (hik : i ≤ k) (hk : k < limit)
    (hmod : k % stride = i % stride) (hb : bound ≤ k + stride) :
    strided bound stride limit i = none := by
  induction hn : k - i using Nat.strongRecOn generalizing i with
  | ind n ih =>
    by_cases hstep : i + stride < bound
    · -- `k` is still ahead.
      have hne : i ≠ k := by omega
      have hle := add_le_of_mod_eq (by omega : i < k) hmod
      rw [strided_of_lt hstride (by omega) hstep,
        ih (k - (i + stride)) (by omega) hle (hmod.trans (Nat.add_mod_right i stride).symm) rfl]
      rfl
    · rw [strided, dif_pos ⟨by omega, hstride⟩, addBelow, if_neg hstep]

/-- What every turn of a strided loop has after the turn before it, all numbers below the limit
have. -/
theorem forall_of_stride {p : ℕ → Prop} (hstride : 0 < stride)
    (hstep : ∀ i < limit, (stride ≤ i → p (i - stride)) → p i) : ∀ i < limit, p i := by
  intro i
  induction i using Nat.strongRecOn with
  | ind i ih => exact fun hi => hstep i hi fun hle => ih (i - stride) (by omega) (by omega)

end

end EpDemo.Library
