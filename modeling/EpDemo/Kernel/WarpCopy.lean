import EpDemo.Library.Strided

/-!
# `EpDemo.Kernel.WarpCopy`: `UNROLLED_WARP_COPY`

The lanes of a warp copy `N` elements. The first loop takes `kLoopStride` elements of the warp at a
time, `UNROLL_FACTOR` for each lane, and the second loop takes what is left, one for each lane. The
loop counters are `int`s, and a sum that is too large for an `int` has no defined result.

A lane is the list of its stores, each with the element that it stores. Source and destination do
not overlap, so the loads of a lane do not depend on the stores of any.
-/

set_option autoImplicit false

namespace EpDemo.Kernel

open EpDemo.Library

/-- One more than the largest `int`. -/
def intBound : ℕ := 2 ^ 31

namespace WarpCopy

/-- `kLoopStride`. -/
def kLoopStride (unrollFactor : ℕ) : ℕ := 32 * unrollFactor

/-- The boundary of the two loops: `N` rounded down to a multiple of `kLoopStride`. -/
def boundary (unrollFactor n : ℕ) : ℕ := n / kLoopStride unrollFactor * kLoopStride unrollFactor

/-- The body of the first loop loads `UNROLL_FACTOR` elements and then stores them. -/
def unrolledStores {α : Type} (unrollFactor : ℕ) (src : ℕ → α) (i : ℕ) : List (ℕ × α) :=
  let unrolledValues := fun j => src (i + j * 32)
  (List.range unrollFactor).map fun j => (i + j * 32, unrolledValues j)

/-- The stores of a lane, if they are defined. -/
def laneStores {α : Type} (unrollFactor n : ℕ) (src : ℕ → α) (laneId : ℕ) :
    Option (List (ℕ × α)) := do
  let unrolled ← strided intBound (kLoopStride unrollFactor) (boundary unrollFactor n) laneId
  let start ← addBelow intBound (boundary unrollFactor n) laneId
  let tail ← strided intBound 32 n start
  return unrolled.flatMap (unrolledStores unrollFactor src) ++ tail.map fun i => (i, src i)

/-- The lanes of the warp together store each of the first `n` elements of the source exactly once,
at its own index, and nothing else. -/
def CopiesOnce {α : Type} (unrollFactor n : ℕ) (src : ℕ → α) : Prop :=
  ∃ stores : ℕ → List (ℕ × α),
    (∀ laneId < 32, laneStores unrollFactor n src laneId = some (stores laneId)) ∧
    ((List.range 32).flatMap stores).Perm ((List.range n).map fun i => (i, src i))

end WarpCopy

end EpDemo.Kernel
