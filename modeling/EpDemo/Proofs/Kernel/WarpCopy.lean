import EpDemo.Kernel.WarpCopy
import Mathlib.Data.List.Perm.Basic
import Mathlib.Tactic.Ring

/-!
# `EpDemo.Proofs.Kernel.WarpCopy`: the lanes copy each element once

Lane `laneId` stores the indices that leave the remainder `laneId` modulo 32. Below the boundary
they come from the first loop, each as a turn and a number of the unrolled body (`mem_unrolled`),
and above it from the second one. No lane stores an index twice (`laneIndices_nodup`), so all lanes
together store each index below `n` once.

The counter of the second loop steps 32 further than the last element. When the elements reach into
the last 32 `int`s, that sum overflows (`laneStores_eq_none`).
-/

set_option autoImplicit false

namespace EpDemo.Kernel.WarpCopy

open EpDemo.Library

variable {unrollFactor n laneId : ℕ}

/-! ### Indices -/

/-- The unrolled part does not go beyond the end. -/
theorem boundary_le (unrollFactor n : ℕ) : boundary unrollFactor n ≤ n :=
  Nat.div_mul_le_self n _

/-- The boundary is a multiple of 32. -/
theorem boundary_mod (unrollFactor n : ℕ) : boundary unrollFactor n % 32 = 0 := by
  have hdvd : 32 ∣ boundary unrollFactor n :=
    Dvd.dvd.mul_left (Nat.dvd_mul_right 32 unrollFactor) _
  exact Nat.mod_eq_zero_of_dvd hdvd

/-- A turn of the first loop and a number of its body are the digits of an index. -/
theorem turn_unique {i i' j j' : ℕ} (hlane : laneId < 32)
    (hi : i % kLoopStride unrollFactor = laneId) (hi' : i' % kLoopStride unrollFactor = laneId)
    (hj : j < unrollFactor) (hj' : j' < unrollFactor) (heq : i + j * 32 = i' + j' * 32) :
    i = i' ∧ j = j' := by
  have hdigit : ∀ {i j : ℕ}, i % kLoopStride unrollFactor = laneId → j < unrollFactor →
      (i + j * 32) / kLoopStride unrollFactor = i / kLoopStride unrollFactor := by
    intro i j hi hj
    have hlt : laneId + j * 32 < kLoopStride unrollFactor := by
      show laneId + j * 32 < 32 * unrollFactor
      omega
    have hpos : 0 < kLoopStride unrollFactor := by omega
    have hsplit : i + j * 32 =
        kLoopStride unrollFactor * (i / kLoopStride unrollFactor) + (laneId + j * 32) := by
      have hdiv := Nat.div_add_mod i (kLoopStride unrollFactor)
      omega
    rw [hsplit, Nat.mul_add_div hpos, Nat.div_eq_of_lt hlt, Nat.add_zero]
  -- Equal indices lie in the same turn.
  have hdiv : i / kLoopStride unrollFactor = i' / kLoopStride unrollFactor := by
    rw [← hdigit hi hj, ← hdigit hi' hj', heq]
  have hturn : i = i' := by
    rw [← Nat.div_add_mod i (kLoopStride unrollFactor),
      ← Nat.div_add_mod i' (kLoopStride unrollFactor), hdiv, hi, hi']
  exact ⟨hturn, by omega⟩

/-- The indices below the boundary that a lane stores. -/
theorem mem_unrolled (hU : 0 < unrollFactor) (hlane : laneId < 32) (k : ℕ) :
    (∃ i, (laneId ≤ i ∧ i < boundary unrollFactor n ∧
        i % kLoopStride unrollFactor = laneId % kLoopStride unrollFactor) ∧
      ∃ j < unrollFactor, k = i + j * 32) ↔
      k < boundary unrollFactor n ∧ k % 32 = laneId := by
  have hstride : kLoopStride unrollFactor = 32 * unrollFactor := rfl
  have hpos : 0 < kLoopStride unrollFactor := by omega
  have hlaneMod : laneId % kLoopStride unrollFactor = laneId := Nat.mod_eq_of_lt (by omega)
  -- Whole turns lie on the same side of the boundary.
  have hwhole : ∀ {a : ℕ}, a / kLoopStride unrollFactor < n / kLoopStride unrollFactor ↔
      a < boundary unrollFactor n := fun {a} => Nat.div_lt_iff_lt_mul hpos
  rw [hlaneMod]
  constructor
  · rintro ⟨i, ⟨-, hlt, hmod⟩, j, hj, rfl⟩
    have hsplit : i + j * 32 =
        kLoopStride unrollFactor * (i / kLoopStride unrollFactor) + (laneId + j * 32) := by
      have hdiv := Nat.div_add_mod i (kLoopStride unrollFactor)
      omega
    refine ⟨hwhole.mp ?_, ?_⟩
    · have hbody : laneId + j * 32 < kLoopStride unrollFactor := by omega
      rw [hsplit, Nat.mul_add_div hpos, Nat.div_eq_of_lt hbody, Nat.add_zero]
      exact hwhole.mpr hlt
    · rw [hsplit, hstride, Nat.mul_assoc]
      omega
  · intro ⟨hlt, hmod⟩
    have hrest : k % kLoopStride unrollFactor % 32 = laneId := by
      rw [hstride, Nat.mod_mod_of_dvd k (Nat.dvd_mul_right 32 unrollFactor), hmod]
    have hbound : k % kLoopStride unrollFactor < 32 * unrollFactor := Nat.mod_lt k hpos
    have hdiv := Nat.div_add_mod k (kLoopStride unrollFactor)
    refine ⟨kLoopStride unrollFactor * (k / kLoopStride unrollFactor) + laneId, ⟨by omega, ?_, ?_⟩,
      k % kLoopStride unrollFactor / 32, by omega, by omega⟩
    · refine hwhole.mp ?_
      rw [Nat.mul_add_div hpos, Nat.div_eq_of_lt (by omega : laneId < _), Nat.add_zero]
      exact hwhole.mpr hlt
    · rw [Nat.mul_add_mod, hlaneMod]

/-! ### One lane -/

/-- The stores of a lane when the elements end before the last 32 `int`s. -/
theorem laneStores_spec {α : Type} (src : ℕ → α) (hU : 0 < unrollFactor) (hlane : laneId < 32)
    (hn : n + 32 ≤ intBound) :
    ∃ indices : List ℕ,
      laneStores unrollFactor n src laneId = some (indices.map fun i => (i, src i)) ∧
      indices.Nodup ∧ ∀ k, k ∈ indices ↔ k < n ∧ k % 32 = laneId := by
  have hle := boundary_le unrollFactor n
  have hzero := boundary_mod unrollFactor n
  have hstride : kLoopStride unrollFactor = 32 * unrollFactor := rfl
  have hpos : 0 < kLoopStride unrollFactor := by omega
  have hlaneMod : laneId % kLoopStride unrollFactor = laneId := Nat.mod_eq_of_lt (by omega)
  -- The first loop ends within a lane's width of the boundary.
  have hfirst : ∀ k, laneId ≤ k → k < boundary unrollFactor n →
      k % kLoopStride unrollFactor = laneId % kLoopStride unrollFactor →
      k + kLoopStride unrollFactor < intBound := by
    intro k _ hlt hmod
    have hturn : k / kLoopStride unrollFactor < n / kLoopStride unrollFactor :=
      (Nat.div_lt_iff_lt_mul hpos).mpr hlt
    have hnext : kLoopStride unrollFactor * (k / kLoopStride unrollFactor + 1) ≤
        boundary unrollFactor n := by
      rw [boundary, Nat.mul_comm (n / _)]
      exact Nat.mul_le_mul_left _ hturn
    have hdiv := Nat.div_add_mod k (kLoopStride unrollFactor)
    rw [hmod, hlaneMod] at hdiv
    rw [Nat.mul_add, Nat.mul_one] at hnext
    omega
  obtain ⟨unrolled, heq, hnodup, hmem⟩ := strided_spec hpos hfirst
  obtain ⟨tail, heq', hnodup', hmem'⟩ := @strided_spec intBound 32 n (by decide)
    (boundary unrollFactor n + laneId) fun k _ hlt _ => by omega
  have hstart : addBelow intBound (boundary unrollFactor n) laneId =
      some (boundary unrollFactor n + laneId) := if_pos (by omega)
  have hremainder : (boundary unrollFactor n + laneId) % 32 = laneId := by omega
  -- The indices of the unrolled body in turn, then those of the tail.
  obtain ⟨body, hbody⟩ : ∃ body : ℕ → List ℕ, body = fun i =>
      (List.range unrollFactor).map fun j => i + j * 32 := ⟨_, rfl⟩
  have hmemBody : ∀ i k, k ∈ body i ↔ ∃ j < unrollFactor, k = i + j * 32 := by
    intro i k
    rw [hbody, List.mem_map]
    simp only [List.mem_range, eq_comm]
  have hmemFlat : ∀ k, k ∈ unrolled.flatMap body ↔
      k < boundary unrollFactor n ∧ k % 32 = laneId := by
    intro k
    rw [List.mem_flatMap, ← mem_unrolled hU hlane]
    simp only [hmem, hmemBody]
  refine ⟨unrolled.flatMap body ++ tail, ?_, ?_, fun k => ?_⟩
  · have hmap : ∀ i, unrolledStores unrollFactor src i = (body i).map fun k => (k, src k) := by
      intro i
      rw [hbody, List.map_map]
      rfl
    have hflat : unrolled.flatMap (unrolledStores unrollFactor src) =
        (unrolled.flatMap body).map fun k => (k, src k) := by
      rw [List.map_flatMap]
      exact congrArg (fun f => unrolled.flatMap f) (funext hmap)
    rw [laneStores, heq, hstart, List.map_append, ← hflat]
    show (strided intBound 32 n (boundary unrollFactor n + laneId)).bind _ = _
    rw [heq']
    rfl
  · rw [List.nodup_append]
    refine ⟨List.nodup_flatMap.mpr ⟨fun i _ => ?_, ?_⟩, hnodup', fun k hk k' hk' hkk => ?_⟩
    · rw [hbody]
      exact List.nodup_range.map fun j j' hjj => by
        have h : i + j * 32 = i + j' * 32 := hjj
        omega
    · refine hnodup.pairwise_of_forall_ne fun i hi i' hi' hne => ?_
      show List.Disjoint (body i) (body i')
      intro k hk hk'
      obtain ⟨j, hj, hkj⟩ := (hmemBody i k).mp hk
      obtain ⟨j', hj', hkj'⟩ := (hmemBody i' k).mp hk'
      have hmodi := ((hmem i).mp hi).2.2.trans hlaneMod
      have hmodi' := ((hmem i').mp hi').2.2.trans hlaneMod
      exact hne (turn_unique hlane hmodi hmodi' hj hj' (hkj.symm.trans hkj')).1
    · -- The two loops lie on the two sides of the boundary.
      subst hkk
      have hbelow := ((hmemFlat k).mp hk).1
      have habove := ((hmem' k).mp hk').1
      omega
  · rw [List.mem_append, hmemFlat, hmem', hremainder]
    constructor
    · intro h
      rcases h with ⟨hlt, hmod⟩ | ⟨-, hlt, hmod⟩
      · exact ⟨by omega, hmod⟩
      · exact ⟨hlt, hmod⟩
    · intro ⟨hlt, hmod⟩
      by_cases hk : k < boundary unrollFactor n
      · exact Or.inl ⟨hk, hmod⟩
      · exact Or.inr ⟨by omega, hlt, hmod⟩

/-- When the elements reach into the last 32 `int`s, the counter of lane 0 overflows. -/
theorem laneStores_eq_none {α : Type} (src : ℕ → α) (hn : intBound < n + 32) (hmax : n < intBound) :
    laneStores unrollFactor n src 0 = none := by
  have hbound : intBound = 2 ^ 31 := rfl
  have hle := boundary_le unrollFactor n
  have hzero := boundary_mod unrollFactor n
  have hstart : addBelow intBound (boundary unrollFactor n) 0 = some (boundary unrollFactor n) :=
    if_pos (by omega)
  have htail : strided intBound 32 n (boundary unrollFactor n) = none :=
    strided_eq_none (k := intBound - 32) (by decide) (by omega) (by omega) (by omega) (by omega)
  rw [laneStores]
  cases strided intBound (kLoopStride unrollFactor) (boundary unrollFactor n) 0 with
  | none => rfl
  | some unrolled =>
    show (addBelow intBound (boundary unrollFactor n) 0).bind _ = none
    rw [hstart]
    show (strided intBound 32 n (boundary unrollFactor n)).bind _ = none
    rw [htail]
    rfl

/-! ### The warp -/

/-- The lanes store every index once, for elements that end before the last 32 `int`s. -/
theorem copiesOnce_of_le {α : Type} (src : ℕ → α) (hU : 0 < unrollFactor) (hn : n + 32 ≤ intBound) :
    CopiesOnce unrollFactor n src := by
  have hspec : ∀ laneId : ℕ, ∃ indices : List ℕ, laneId < 32 →
      laneStores unrollFactor n src laneId = some (indices.map fun i => (i, src i)) ∧
        indices.Nodup ∧ ∀ k, k ∈ indices ↔ k < n ∧ k % 32 = laneId := by
    intro laneId
    by_cases hlane : laneId < 32
    · obtain ⟨indices, h⟩ := laneStores_spec src hU hlane hn
      exact ⟨indices, fun _ => h⟩
    · exact ⟨[], fun h => absurd h hlane⟩
  choose indices hindices using hspec
  refine ⟨fun laneId => (indices laneId).map fun i => (i, src i),
    fun laneId hlane => (hindices laneId hlane).1, ?_⟩
  rw [← List.map_flatMap]
  refine List.Perm.map _ ((List.perm_ext_iff_of_nodup ?_ List.nodup_range).mpr fun k => ?_)
  · rw [List.nodup_flatMap]
    refine ⟨fun laneId hlane => (hindices laneId (List.mem_range.mp hlane)).2.1, ?_⟩
    refine List.nodup_range.pairwise_of_forall_ne fun a ha b hb hne => ?_
    -- Different lanes store different remainders.
    show List.Disjoint (indices a) (indices b)
    intro k hk hk'
    have hmod := (((hindices a (List.mem_range.mp ha)).2.2 k).mp hk).2
    have hmod' := (((hindices b (List.mem_range.mp hb)).2.2 k).mp hk').2
    exact hne (hmod.symm.trans hmod')
  · rw [List.mem_flatMap, List.mem_range]
    constructor
    · intro ⟨laneId, hlane, hk⟩
      exact (((hindices laneId (List.mem_range.mp hlane)).2.2 k).mp hk).1
    · intro hk
      have hlane : k % 32 < 32 := Nat.mod_lt k (by decide)
      exact ⟨k % 32, List.mem_range.mpr hlane, ((hindices _ hlane).2.2 k).mpr ⟨hk, rfl⟩⟩

/-- `UNROLLED_WARP_COPY` copies each of `n` elements exactly once, for every unroll factor, if and
only if the elements end before the last 32 `int`s. -/
theorem copies_once_iff {α : Type} (src : ℕ → α) (hU : 0 < unrollFactor) (hn : n < intBound) :
    CopiesOnce unrollFactor n src ↔ n ≤ intBound - 32 := by
  have hbound : intBound = 2 ^ 31 := rfl
  constructor
  · intro ⟨stores, hlanes, _⟩
    by_contra hlarge
    have hnone : laneStores unrollFactor n src 0 = none := laneStores_eq_none src (by omega) hn
    rw [hlanes 0 (by decide)] at hnone
    exact nomatch hnone
  · exact fun hle => copiesOnce_of_le src hU (by omega)

/-- A message of 897 vectors, with eight loads in flight for each lane. -/
theorem copies_once_iff_message : (0 < 8 ∧ 897 < intBound) ∧ CopiesOnce 8 897 fun i => i :=
  ⟨⟨by decide, by decide⟩,
    (copies_once_iff (fun i => i) (by decide) (by decide)).mpr (by decide)⟩

/-- The largest `int` is too many elements. -/
theorem not_copies_once_largest :
    ¬∀ (unrollFactor n : ℕ) (src : ℕ → ℕ), 0 < unrollFactor → n < intBound →
      CopiesOnce unrollFactor n src := by
  intro h
  obtain ⟨stores, hlanes, -⟩ := h 8 (intBound - 1) (fun i => i) (by decide) (by decide)
  have hnone : laneStores 8 (intBound - 1) (fun i => i) 0 = none :=
    laneStores_eq_none _ (by decide) (by decide)
  rw [hlanes 0 (by decide)] at hnone
  exact nomatch hnone

end EpDemo.Kernel.WarpCopy
