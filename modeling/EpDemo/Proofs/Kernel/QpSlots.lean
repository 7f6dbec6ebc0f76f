import EpDemo.Buffer.Sync
import EpDemo.Kernel.Address
import Mathlib.Data.Nat.Basic
import Mathlib.Tactic.Ring

/-!
# `EpDemo.Proofs.Kernel.QpSlots`: the kernels post on queue pairs of the right rank

The kernels number the queue pairs of a destination rank by
`dst_rank * (MAX_QP_COUNT / num_ranks)` plus a remainder, and connection set-up computes the
peer of slot `i` as `i * num_ranks / USE_QP_COUNT`. Both put the slots of a rank into one
block of `MAX_QP_COUNT / num_ranks` slots, whatever the division leaves over.
-/

set_option autoImplicit false

namespace EpDemo.Kernel

open EpDemo.Buffer

/-- The peer of a slot is the block of `C / R` slots it lies in. -/
theorem peerRank_eq_div {R C : ℕ} (hR : 0 < R) (i : ℕ) :
    peerRank R (useQpCount C R) i = i / (C / R) := by
  unfold peerRank useQpCount
  rw [Nat.mul_comm i R, Nat.mul_comm (C / R) R]
  exact Nat.mul_div_mul_left i (C / R) hR

section

variable {C R : ℕ}

/-- Every rank has a queue pair when there are no more ranks than queue pairs. -/
theorem numQpPerRank_pos (hR : 0 < R) (hC : R ≤ C) : 0 < numQpPerRank C R :=
  Nat.div_pos hC hR

/-- The context of an expert lies in the block of its rank. -/
theorem ctxIndex_div (hR : 0 < R) (hC : R ≤ C) (d e : ℕ) :
    ctxIndex C R d e / numQpPerRank C R = d := by
  have hq := numQpPerRank_pos hR hC
  unfold ctxIndex
  rw [Nat.mul_comm, Nat.mul_add_div hq, Nat.div_eq_of_lt (Nat.mod_lt e hq), Nat.add_zero]

/-- The context of an expert is one of the queue pairs that are in use. -/
theorem ctxIndex_lt (hR : 0 < R) (hC : R ≤ C) {d : ℕ} (hd : d < R) (e : ℕ) :
    ctxIndex C R d e < useQpCount C R := by
  have hq := numQpPerRank_pos hR hC
  have hdiv := ctxIndex_div hR hC d e
  rw [useQpCount, Nat.mul_comm]
  exact (Nat.div_lt_iff_lt_mul hq).mp (by rw [hdiv]; exact hd)

/-- Every slot in use is the context of some expert of the rank whose block it lies in. -/
theorem exists_ctxIndex_eq (hR : 0 < R) (hC : R ≤ C) (i : ℕ) :
    ctxIndex C R (i / numQpPerRank C R) (i % numQpPerRank C R) = i := by
  have hq := numQpPerRank_pos hR hC
  rw [ctxIndex, Nat.mod_mod, Nat.mul_comm]
  exact Nat.div_add_mod i (numQpPerRank C R)

end

/-- The data writes and the signals of both kernels use one queue pair for an expert, it is
in use and connected to the expert's rank, and every queue pair in use serves exactly one
rank. -/
theorem ctx_selects_peer (C R : ℕ) (hR : 1 ≤ R) (hC : R ≤ C) :
    (∀ d < R, ∀ e : ℕ,
      dispatchDataCtx C R d e < useQpCount C R ∧
      dispatchSignalCtx C R d e = dispatchDataCtx C R d e ∧
      combineDataCtx C R d e = dispatchDataCtx C R d e ∧
      combineSignalCtx C R d e = dispatchDataCtx C R d e ∧
      peerRank R (useQpCount C R) (dispatchDataCtx C R d e) = d) ∧
    ∀ i < useQpCount C R, ∃! d, d < R ∧ ∃ e, dispatchDataCtx C R d e = i := by
  constructor
  · intro d hd e
    refine ⟨ctxIndex_lt hR hC hd e, rfl, rfl, rfl, ?_⟩
    rw [peerRank_eq_div hR]
    exact ctxIndex_div hR hC d e
  · intro i hi
    have hq := numQpPerRank_pos hR hC
    refine ⟨i / numQpPerRank C R, ⟨?_, _, exists_ctxIndex_eq hR hC i⟩, ?_⟩
    · rw [useQpCount, Nat.mul_comm] at hi
      exact (Nat.div_lt_iff_lt_mul hq).mpr hi
    · rintro d ⟨-, e, rfl⟩
      exact (ctxIndex_div hR hC d e).symm

/-- Three ranks share 256 queue pairs: slot 255 is not in use. -/
theorem ctx_selects_peer_three :
    (∀ d < 3, ∀ e : ℕ,
      dispatchDataCtx 256 3 d e < useQpCount 256 3 ∧
      dispatchSignalCtx 256 3 d e = dispatchDataCtx 256 3 d e ∧
      combineDataCtx 256 3 d e = dispatchDataCtx 256 3 d e ∧
      combineSignalCtx 256 3 d e = dispatchDataCtx 256 3 d e ∧
      peerRank 3 (useQpCount 256 3) (dispatchDataCtx 256 3 d e) = d) ∧
    ∀ i < useQpCount 256 3, ∃! d, d < 3 ∧ ∃ e, dispatchDataCtx 256 3 d e = i :=
  ctx_selects_peer 256 3 (by decide) (by decide)

end EpDemo.Kernel
