import EpDemo.Kernel.Address
import EpDemo.Kernel.WarpCopy
import EpDemo.Library.Butterfly
import Mathlib.Data.Finset.Fold
import Mathlib.Data.Finset.Range

/-!
# `EpDemo.Kernel.Staging`: the staging row of a token

The token warps of `dispatch` write a token into a row of the send buffer: the token index, the
payload and, with `kUseFP8`, a scale for every 128 channels. A thread takes every 992nd vector of
eight `bf16` values. With FP8 it finds the largest magnitude of the 128 channels around its vector
together with the other lanes of its half of the warp, and casts the vector with it. Lanes 0 and 16
store the scale.

A thread is the list of its stores, each a word of the row and its value. A shuffle from a lane that
has left the loop has no defined value, and then the thread has no defined stores.

`stagedWord` is what the row is for: the cast with the largest magnitude of each 128 channels.
-/

set_option autoImplicit false

namespace EpDemo.Kernel

open EpDemo.Library

/-- `float` and the conversions of the GPU. The order of the type is the one by which `fmaxf` picks
the larger value, which has NaN below all numbers. -/
structure Floats (F : Type) where
  bfloat162float : BitVec 16 → F
  fabsf : F → F
  mul : F → F → F
  div : F → F → F
  /-- `__nv_cvt_float2_to_fp8x2` to `E4M3`, with saturation. -/
  cvtFloat2ToFp8x2 : F → F → BitVec 16
  /-- The bits of a `float` that is stored. -/
  bits : F → BitVec 32
  kFP8Margin : F
  kFP8Amax : F
  kFP8AmaxInv : F

namespace Staging

/-- `kNumPerChannels`. -/
def kNumPerChannels : ℕ := 128

/-- `kNumElemsPerRead`, the `bf16` values of an `int4`. -/
def kNumElemsPerRead : ℕ := 8

/-- `num_threads` of the token warps. -/
def numThreads : ℕ := numTokenWarps * 32

variable {F : Type} [LinearOrder F] (f : Floats F) (p : Shape) (x : ℕ → BitVec 16)

/-- `hidden_bf16_int4`. -/
def hiddenBf16Int4 : ℕ := p.hidden / kNumElemsPerRead

/-- `fp32_values` of vector `i`. -/
def fp32Value (i j : ℕ) : F := f.bfloat162float (x (i * kNumElemsPerRead + j))

/-- `amax` of a vector before the reduction. -/
def vectorAmax (i : ℕ) : F :=
  (List.range kNumElemsPerRead).foldl (fun amax j => max amax (f.fabsf (fp32Value f x i j)))
    f.kFP8Margin

/-- `half_warp_reduce_max`, on the values of the lanes that are active. -/
def halfWarpReduceMax (value : ℕ → Option F) : ℕ → Option F :=
  shflXor max 1 (shflXor max 2 (shflXor max 4 (shflXor max 8 value)))

/-- `amax` of the lanes of a warp whose first lane is at vector `first`. -/
def warpAmax (first lane : ℕ) : Option F :=
  if first + lane < hiddenBf16Int4 p then some (vectorAmax f x (first + lane)) else none

/-- The stores of a lane for vector `i`, with `kUseFP8`. -/
def fp8Stores (laneId i : ℕ) : Option (List (ℕ × BitVec 32)) := do
  let amax ← halfWarpReduceMax (warpAmax f p x (i - laneId)) laneId
  let scale := f.div f.kFP8Amax amax
  let scaleInv := f.mul amax f.kFP8AmaxInv
  let fp8x2 (j : ℕ) := f.cvtFloat2ToFp8x2 (f.mul (fp32Value f x i j) scale)
    (f.mul (fp32Value f x i (j + 1)) scale)
  let scaleStores :=
    if laneId = 0 ∨ laneId = 16 then
      [(4 + p.hiddenBytes / 4 + i * kNumElemsPerRead / 128, f.bits scaleInv)]
    else []
  -- Word `n` of `int2_value` is `fp8x2_values[2 * n]` and the one after it.
  return scaleStores ++
    (List.range 2).map fun n => (4 + (i * 2 + n), fp8x2 (4 * n + 2) ++ fp8x2 (4 * n))

/-- The stores for vector `i` without `kUseFP8`: the vector as it is. -/
def bf16Stores (i : ℕ) : List (ℕ × BitVec 32) :=
  (List.range 4).map fun n =>
    (4 + (i * 4 + n),
      x (i * kNumElemsPerRead + (2 * n + 1)) ++ x (i * kNumElemsPerRead + 2 * n))

/-- The stores of a thread for vector `i`. -/
def vectorStores (thread i : ℕ) : Option (List (ℕ × BitVec 32)) :=
  if p.useFp8 then fp8Stores f p x (thread % 32) i else some (bf16Stores x i)

/-- The stores of a thread for a token, up to the barrier of the token warps. -/
def threadStores (token thread : ℕ) : Option (List (ℕ × BitVec 32)) := do
  let turns ← strided intBound numThreads (hiddenBf16Int4 p) thread
  let vectors ← turns.mapM (vectorStores f p x thread)
  return (if thread = 0 then [(0, BitVec.ofInt 32 token)] else []) ++ vectors.flatten

/-! ### What the row is for -/

/-- The largest magnitude of the 128 channels with scale `s`, and at least `kFP8Margin`. -/
def groupAmax (s : ℕ) : F :=
  (Finset.range kNumPerChannels).fold max f.kFP8Margin fun k =>
    f.fabsf (f.bfloat162float (x (s * kNumPerChannels + k)))

/-- Two channels, cast with the scale of the first. -/
def castPair (channel : ℕ) : BitVec 16 :=
  let scale := f.div f.kFP8Amax (groupAmax f x (channel / kNumPerChannels))
  f.cvtFloat2ToFp8x2 (f.mul (f.bfloat162float (x channel)) scale)
    (f.mul (f.bfloat162float (x (channel + 1))) scale)

/-- Word `k` of the payload. -/
def payloadWord (k : ℕ) : BitVec 32 :=
  if p.useFp8 then castPair f x (4 * k + 2) ++ castPair f x (4 * k)
  else x (2 * k + 1) ++ x (2 * k)

/-- The scale of 128 channels, as it is stored. -/
def scaleWord (s : ℕ) : BitVec 32 := f.bits (f.mul (groupAmax f x s) f.kFP8AmaxInv)

/-- A word of the staging row of a token. -/
def stagedWord (token word : ℕ) : BitVec 32 :=
  if word = 0 then BitVec.ofInt 32 token
  else if word < 4 + p.hiddenBytes / 4 then payloadWord f p x (word - 4)
  else scaleWord f x (word - 4 - p.hiddenBytes / 4)

/-- The token warps store every word of the row except the last three of the header, each exactly
once and with its value, and nothing else. -/
def StagedOnce (token : ℕ) : Prop :=
  ∃ stores : ℕ → List (ℕ × BitVec 32),
    (∀ thread < numThreads, threadStores f p x token thread = some (stores thread)) ∧
    ((List.range numThreads).flatMap stores).Perm
      (((List.range (p.numBytesPerMsg / 4)).filter fun word => word = 0 ∨ 4 ≤ word).map fun word =>
        (word, stagedWord f p x token word))

end Staging

end EpDemo.Kernel
