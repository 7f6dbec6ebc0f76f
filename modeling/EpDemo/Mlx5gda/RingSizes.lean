import EpDemo.Mlx5gda
import Mathlib.Data.Nat.Log

/-!
# `EpDemo.Mlx5gda.RingSizes`: the sizes of the rings in 32 bits

`EpDemo.Mlx5gda` rounds the size of a queue up to a power of two as a number. Here is the same
computation on `uint32_t`, where the doubling can wrap to zero and the loop need not end, together
with the logarithms that `mlx5gda_create_cq` and `mlx5gda_create_rc_qp` give to the device and with
the mask of `mlx5gda_qp_devctx`.
-/

set_option autoImplicit false

namespace EpDemo.Mlx5gda

/-- The loop of `round_up_pow2`. It answers `none` when `fuel` turns are not enough. -/
def doubleUntil (n : BitVec 32) : ℕ → BitVec 32 → Option (BitVec 32)
  | 0, _ => none
  | fuel + 1, pow2 => if pow2 < n then doubleUntil n fuel (pow2 <<< 1) else some pow2

/-- `round_up_pow2<uint32_t>`. -/
def roundUpPow2Uint32 (fuel : ℕ) (n : BitVec 32) : Option (BitVec 32) :=
  if n ≤ 1 then some 1 else doubleUntil n fuel 1

/-- `IBGDA_ROUND_UP_POW2_OR_0`. -/
def ibgdaRoundUpPow2Or0 (fuel : ℕ) (n : BitVec 32) : Option (BitVec 32) :=
  if n = 0 then some 0 else roundUpPow2Uint32 fuel n

/-- `IBGDA_ILOG2`, with a logarithm that is exact. -/
def ibgdaIlog2 (n : ℕ) : ℕ := Nat.clog 2 n

/-- `IBGDA_ILOG2_OR0`. -/
def ibgdaIlog2Or0 (n : ℕ) : ℕ := if n = 0 then 0 else ibgdaIlog2 n

/-- `log_cq_size`: `__builtin_ctz(num_cqe)`. -/
def logCqSize (numCqe : BitVec 32) : ℕ := numCqe.ctz.toNat

/-- `log_sq_size`. -/
def logSqSize (numWqebb : BitVec 32) : ℕ := ibgdaIlog2Or0 numWqebb.toNat

/-- `wqeid_mask`. -/
def wqeidMask (numWqebb : BitVec 32) : BitVec 32 := numWqebb - 1

end EpDemo.Mlx5gda
