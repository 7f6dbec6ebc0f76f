import EpDemo.Kernel.Launch
import Mathlib.Algebra.BigOperators.Group.Finset.Basic
import Mathlib.Algebra.BigOperators.Intervals
import Mathlib.Data.Finset.Prod
import Mathlib.Data.List.Range
import Mathlib.Tactic.Ring

/-!
# `EpDemo.Proofs.Kernel.SentCount`: the count of the counting warp

The token warps send by token and entry, and the counting warp counts with 32 lanes over the
flat table and adds the lanes up in a butterfly. Both shapes of loop see the same entries:
`numTokensSent_eq_card_tasks`.
-/

set_option autoImplicit false

namespace EpDemo.Kernel

open Finset

/-! ### The lanes of a warp -/

/-- Lane 0 holds the sum of all lanes after the butterfly. -/
theorem warpReduceSum_zero (value : ℕ → ℕ) :
    warpReduceSum value 0 = ∑ lane ∈ range 32, value lane := by
  simp only [warpReduceSum, shflXorAdd, sum_range_succ, sum_range_zero, Nat.zero_xor, Nat.zero_add,
    Nat.reduceXor]
  ring

/-- A lane visits every 32nd index, from its own number on. -/
theorem mem_laneIndices {n lane i : ℕ} (hlane : lane < 32) :
    i ∈ Launch.laneIndices n lane ↔ i < n ∧ i % 32 = lane := by
  rw [Launch.laneIndices, List.mem_range']
  constructor
  · rintro ⟨k, hk, rfl⟩
    omega
  · rintro ⟨hi, rfl⟩
    exact ⟨i / 32, by omega, by omega⟩

namespace Launch

variable (l : Launch)

/-- What a lane counts. -/
theorem expertCount_eq {e lane : ℕ} (hlane : lane < 32) :
    l.expertCount e lane =
      ((range (l.numTokens * l.numTopk)).filter fun i => l.topk i = e ∧ i % 32 = lane).card := by
  have hnodup :
      ((laneIndices (l.numTokens * l.numTopk) lane).filter fun i => l.topk i == e).Nodup :=
    (List.nodup_range' 32).filter _
  rw [expertCount, List.countP_eq_length_filter, ← List.toFinset_card_of_nodup hnodup]
  congr 1
  ext i
  simp only [List.mem_toFinset, List.mem_filter, mem_laneIndices hlane, beq_iff_eq, mem_filter,
    mem_range]
  tauto

/-- The count of the counting warp is the number of entries of the flat table. -/
theorem numTokensSent_eq_flat (e : ℕ) :
    l.numTokensSent e =
      ((range (l.numTokens * l.numTopk)).filter fun i => l.topk i = e).card := by
  have hmaps : Set.MapsTo (fun i => i % 32)
      ((range (l.numTokens * l.numTopk)).filter fun i => l.topk i = e : Finset ℕ)
      (range 32 : Finset ℕ) := fun i _ => by
    simp only [coe_range, Set.mem_Iio]
    exact Nat.mod_lt i (by decide)
  rw [numTokensSent, warpReduceSum_zero, card_eq_sum_card_fiberwise hmaps]
  refine sum_congr rfl fun lane hlane => ?_
  rw [expertCount_eq l (mem_range.mp hlane), filter_filter]

/-- The tokens and token warps that send to expert `e`. -/
def tasks (e : ℕ) : Finset (ℕ × ℕ) :=
  (range l.numTokens ×ˢ range numTokenWarps).filter fun p => l.dstExpertIdx p.1 p.2 = e

/-- The sends to an expert: a token and a warp whose choice it is. -/
@[simp] theorem mem_tasks {e t w : ℕ} :
    (t, w) ∈ l.tasks e ↔ (t < l.numTokens ∧ w < numTokenWarps) ∧ l.dstExpertIdx t w = e := by
  simp [tasks]

/-- A warp with a destination reads an entry of the token's row. -/
theorem lt_numTopk_of_dst {t w : ℕ} (h : 0 ≤ l.dstExpertIdx t w) : w < l.numTopk := by
  by_contra hw
  simp [dstExpertIdx, hw] at h

/-- The choice of a warp stands in the flat table, in the row of the token. -/
theorem dstExpertIdx_of_lt {t w : ℕ} (h : w < l.numTopk) :
    l.dstExpertIdx t w = l.topk (t * l.numTopk + w) := by
  rw [dstExpertIdx, if_pos h]

/-- The count of the counting warp is the number of sends of the token warps. -/
theorem numTokensSent_eq_card_tasks (hK : l.numTopk ≤ numTokenWarps) (e : ℕ) :
    l.numTokensSent e = (l.tasks e).card := by
  rw [numTokensSent_eq_flat]
  symm
  -- The entry of a token and a warp in the flat table.
  refine card_bij (fun p _ => p.1 * l.numTopk + p.2) ?_ ?_ ?_
  · -- It lies in the table.
    rintro ⟨t, w⟩ hp
    obtain ⟨⟨ht, -⟩, he⟩ := l.mem_tasks.mp hp
    have hw := l.lt_numTopk_of_dst (he ▸ Int.natCast_nonneg e)
    rw [l.dstExpertIdx_of_lt hw] at he
    refine mem_filter.mpr ⟨mem_range.mpr ?_, he⟩
    calc t * l.numTopk + w < t * l.numTopk + l.numTopk := by omega
      _ = (t + 1) * l.numTopk := by ring
      _ ≤ l.numTokens * l.numTopk := Nat.mul_le_mul_right _ ht
  · -- It determines the row and the column.
    rintro ⟨t, w⟩ hp ⟨t', w'⟩ hp' heq
    have hw := l.lt_numTopk_of_dst ((l.mem_tasks.mp hp).2 ▸ Int.natCast_nonneg e)
    have hw' := l.lt_numTopk_of_dst ((l.mem_tasks.mp hp').2 ▸ Int.natCast_nonneg e)
    have hdiv := congrArg (· / l.numTopk) heq
    have hmod := congrArg (· % l.numTopk) heq
    simp only [Nat.mul_add_mod', Nat.mod_eq_of_lt hw, Nat.mod_eq_of_lt hw'] at hmod
    simp only [Nat.mul_comm _ l.numTopk, Nat.mul_add_div (show 0 < l.numTopk by omega),
      Nat.div_eq_of_lt hw, Nat.div_eq_of_lt hw', Nat.add_zero] at hdiv
    exact Prod.ext hdiv hmod
  · -- Every entry lies in some row and column.
    intro i hi
    obtain ⟨hi, he⟩ := mem_filter.mp hi
    rw [mem_range] at hi
    have hK₀ : 0 < l.numTopk := by
      by_contra h
      simp [show l.numTopk = 0 by omega] at hi
    have hw := Nat.mod_lt i hK₀
    have hrow : i / l.numTopk * l.numTopk + i % l.numTopk = i := Nat.div_add_mod' i _
    refine ⟨(i / l.numTopk, i % l.numTopk), l.mem_tasks.mpr ⟨⟨?_, by omega⟩, ?_⟩, hrow⟩
    · exact (Nat.div_lt_iff_lt_mul hK₀).mpr hi
    · rw [l.dstExpertIdx_of_lt hw, hrow]
      exact he

end Launch

end EpDemo.Kernel
