import Mathlib.Algebra.Group.Int.Defs
import Mathlib.Algebra.Group.Nat.Defs
import Mathlib.Data.Int.Notation
import Mathlib.Data.Nat.Notation
import Mathlib.Logic.Function.Basic

/-!
# `EpDemo.Kernel.Launch`: what a launch of `dispatch` or `combine` is given

The kernels run `kNumWarpGroups` warp groups of `kNumWarpsPerGroup` warps in each of
`num_sms = cell_div(num_experts, kNumWarpGroups)` blocks, and warp group `g` of block `b` is
responsible for expert `b * kNumWarpGroups + g`. The block of an expert and the block of a
token are therefore arithmetic, and this module collects it together with the reading of the
top-k table.

An `int` is an integer in two's complement range. `toInt32` is the wrap that every `int`
operation and every conversion to `int` ends with.
-/

set_option autoImplicit false

namespace EpDemo.Kernel

/-- `kNumWarpGroups`, the experts that one block is responsible for. -/
def kNumWarpGroups : ℕ := 8

/-- `kNumWarpsPerGroup`. -/
def kNumWarpsPerGroup : ℕ := 4

/-- The warps of a block. -/
def numWarps : ℕ := kNumWarpGroups * kNumWarpsPerGroup

/-- The warps of a block that send tokens: all but the last. -/
def numTokenWarps : ℕ := numWarps - 1

/-- `kNumMaxTopK`. -/
def kNumMaxTopK : ℕ := 11

/-- `NUM_WORKSPACE_BYTES`. -/
def numWorkspaceBytes : ℕ := 32 * 1024 * 1024

/-- `FINISHED_SUM_TAG`. -/
def finishedSumTag : ℤ := 1024

/-- `cell_div`. -/
def cellDiv (a b : ℕ) : ℕ := (a + b - 1) / b

/-- The `int` with the low 32 bits of `z`. -/
def toInt32 (z : ℤ) : ℤ := Int.bmod z (2 ^ 32)

/-- `pack2<int, int64_t>`: the first value in the low half. -/
def pack2 (x y : ℤ) : BitVec 64 := BitVec.ofInt 32 y ++ BitVec.ofInt 32 x

/-- `unpack2<int, int64_t>`. -/
def unpack2 (packed : BitVec 64) : ℤ × ℤ :=
  ((packed.extractLsb' 0 32).toInt, (packed.extractLsb' 32 32).toInt)

/-- The arguments of a launch that both kernels share. -/
structure Launch where
  numExperts : ℕ
  numRanks : ℕ
  numMaxDispatchTokensPerRank : ℕ
  rank : ℕ
  numTokens : ℕ
  numTopk : ℕ
  /-- The top-k table in row-major order, with entries as the 64-bit integers they are. -/
  topkIdx : ℕ → ℤ
  timeoutTicks : ℤ

namespace Launch

variable (l : Launch)

/-- `num_local_experts`. -/
def numLocalExperts : ℕ := l.numExperts / l.numRanks

/-- `num_sms`. -/
def numSms : ℕ := cellDiv l.numExperts kNumWarpGroups

/-- Entry `i` of the top-k table, as the kernels read it: `static_cast<int>`. -/
def topk (i : ℕ) : ℤ := toInt32 (l.topkIdx i)

/-- `dst_expert_idx` of warp `w` for token `t`. -/
def dstExpertIdx (t w : ℕ) : ℤ := if w < l.numTopk then l.topk (t * l.numTopk + w) else -1

/-- The indices below `n` that a lane visits in a loop `for (i = lane; i < n; i += 32)`. -/
def laneIndices (n lane : ℕ) : List ℕ := List.range' lane ((n + 31 - lane) / 32) 32

/-- `expert_count[e - expert_begin_idx]` of a lane of the counting warp after its loop. -/
def expertCount (e lane : ℕ) : ℕ :=
  (laneIndices (l.numTokens * l.numTopk) lane).countP fun i => l.topk i == e

end Launch

/-- One step of `warp_reduce_sum`: every lane adds the value of the lane whose index differs
in one bit. -/
def shflXorAdd (mask : ℕ) (value : ℕ → ℕ) (lane : ℕ) : ℕ := value lane + value (lane ^^^ mask)

/-- `warp_reduce_sum`. -/
def warpReduceSum (value : ℕ → ℕ) : ℕ → ℕ :=
  shflXorAdd 1 (shflXorAdd 2 (shflXorAdd 4 (shflXorAdd 8 (shflXorAdd 16 value))))

/-- `sum` of the counting warp for expert `e`, in lane 0. -/
def Launch.numTokensSent (l : Launch) (e : ℕ) : ℕ := warpReduceSum (l.expertCount e) 0

/-- `atomicAdd` on an `int` array. The old value is `a i`. -/
def atomicAdd (a : ℕ → ℤ) (i : ℕ) (v : ℤ) : ℕ → ℤ := Function.update a i (toInt32 (a i + v))

end EpDemo.Kernel
