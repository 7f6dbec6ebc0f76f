import EpDemo.Memheap
import Mathlib.Data.List.Perm.Basic
import Mathlib.Data.List.Pairwise
import Mathlib.Algebra.Order.BigOperators.Group.List
import Mathlib.Tactic.Ring

/-!
# `EpDemo.Proofs.Memheap.Table`: what one call does to the table

The table is a list of blocks whose order carries no meaning for the safety of the heap, so
each operation is described up to permutation:

* `reuse_perm`: the entry that served the request becomes the allocation, and at most the
  two `fragments` of the block join the table as free entries;
* `memheapFree_cases`: the freed entry becomes free, or nothing happens;
* `memheapAlignedAlloc_cases`: a request fails, is served by `reuse` from a free entry that
  fits, or is served by `bump` when no entry fits.

`alignUp` is the only operation of the heap on bits. Below `2 ^ 63` it rounds up without
wrapping (`le_alignUp`, `alignUp_le`).
-/

set_option autoImplicit false

namespace EpDemo.Memheap

/-! ### `size_t` arithmetic below `2 ^ 64` -/

/-- A sum of sizes that fits is not cut. -/
theorem addSize_of_lt {a b : ℕ} (h : a + b < 2 ^ 64) : addSize a b = a + b :=
  Nat.mod_eq_of_lt h

/-- A difference of sizes does not wrap below zero when there is enough. -/
theorem subSize_of_le {a b : ℕ} (hb : b ≤ a) (ha : a < 2 ^ 64) : subSize a b = a - b := by
  unfold subSize
  rw [show a + 2 ^ 64 - b = a - b + 2 ^ 64 by omega, Nat.add_mod_right]
  exact Nat.mod_eq_of_lt (by omega)

/-- The alignments `memheap_aligned_alloc` accepts are the powers of two. -/
theorem isPowerOfTwo_of_accepted {align : ℕ}
    (h : ¬(align = 0 ∨ align &&& (align - 1) ≠ 0)) : align.isPowerOfTwo := by
  rw [not_or, not_not] at h
  exact Nat.ne_zero_and_sub_one_eq_zero_iff_isPowerOfTwo.mp h

/-- Filling the low `k` bits and adding one moves to the next multiple of `2 ^ k`. -/
theorem or_two_pow_sub_one (x k : ℕ) : (x ||| (2 ^ k - 1)) + 1 = (x / 2 ^ k + 1) * 2 ^ k := by
  have hpos := Nat.two_pow_pos k
  have hsplit : x ||| (2 ^ k - 1) = 2 ^ k * (x / 2 ^ k) + (2 ^ k - 1) := by
    rw [Nat.two_pow_add_eq_or_of_lt (by omega : 2 ^ k - 1 < 2 ^ k)]
    apply Nat.eq_of_testBit_eq
    intro i
    simp only [Nat.testBit_or, Nat.testBit_two_pow_sub_one, Nat.testBit_two_pow_mul,
      Nat.testBit_div_two_pow]
    by_cases hi : i < k
    · simp [hi]
    · simp [hi, show k ≤ i by omega, show i - k + k = i by omega]
  rw [hsplit, Nat.add_mul, Nat.one_mul, Nat.mul_comm]
  omega

/-- The value of `alignUp` for a power of two, before the wrap. -/
theorem alignUp_two_pow (x k : ℕ) :
    alignUp x (2 ^ k) = if x % 2 ^ k = 0 then x else (x / 2 ^ k + 1) * 2 ^ k % 2 ^ 64 := by
  unfold alignUp addSize
  rw [Nat.and_two_pow_sub_one_eq_mod, or_two_pow_sub_one]
  by_cases h : x % 2 ^ k = 0 <;> simp [h]

/-- Below `2 ^ 63`, the next multiple of a power of two that is not above `2 ^ 63` stays at
or below `2 ^ 63`. -/
theorem next_multiple_le {x k : ℕ} (hx : x < 2 ^ 63) (hk : k ≤ 63) :
    (x / 2 ^ k + 1) * 2 ^ k ≤ 2 ^ 63 := by
  have hpow : 2 ^ 63 = 2 ^ (63 - k) * 2 ^ k := by rw [← Nat.pow_add]; congr 1; omega
  have hlt : x / 2 ^ k < 2 ^ (63 - k) :=
    Nat.div_lt_of_lt_mul (by rw [Nat.mul_comm]; omega)
  rw [hpow]
  exact Nat.mul_le_mul_right _ hlt

/-- `alignUp` does not round below `2 ^ 63` down. -/
theorem le_alignUp {x k : ℕ} (hx : x < 2 ^ 63) (hk : k ≤ 63) : x ≤ alignUp x (2 ^ k) := by
  have hnext := next_multiple_le hx hk
  have hdiv := Nat.div_add_mod x (2 ^ k)
  have hmod := Nat.mod_lt x (Nat.two_pow_pos k)
  rw [alignUp_two_pow]
  split
  · exact le_refl x
  · rw [Nat.mod_eq_of_lt (by omega), Nat.add_mul, Nat.one_mul, Nat.mul_comm]
    omega

/-- `alignUp` of an offset below `2 ^ 63` is at most `2 ^ 63`. -/
theorem alignUp_le {x k : ℕ} (hx : x < 2 ^ 63) (hk : k ≤ 63) : alignUp x (2 ^ k) ≤ 2 ^ 63 := by
  have hnext := next_multiple_le hx hk
  rw [alignUp_two_pow]
  split
  · omega
  · rw [Nat.mod_eq_of_lt (by omega)]
    exact hnext

/-- `alignUp` adds less than the alignment. -/
theorem alignUp_lt (x k : ℕ) : alignUp x (2 ^ k) < x + 2 ^ k := by
  have hpos := Nat.two_pow_pos k
  have hdiv := Nat.div_add_mod x (2 ^ k)
  rw [alignUp_two_pow]
  split
  · omega
  · have hwrap := Nat.mod_le ((x / 2 ^ k + 1) * 2 ^ k) (2 ^ 64)
    rw [Nat.add_mul, Nat.one_mul, Nat.mul_comm] at hwrap ⊢
    omega

/-- `alignUp` returns a multiple of the alignment, also where it wraps. -/
theorem dvd_alignUp {x k : ℕ} (hk : k ≤ 63) : 2 ^ k ∣ alignUp x (2 ^ k) := by
  rw [alignUp_two_pow]
  split
  · exact Nat.dvd_of_mod_eq_zero ‹_›
  · have hpow : 2 ^ k ∣ 2 ^ 64 := Nat.pow_dvd_pow 2 (by omega)
    exact (Nat.dvd_mod_iff hpow).mpr (Nat.dvd_mul_left _ _)

/-- The value that signals failure is odd: an even alignment never gives it. -/
theorem alignUp_ne_sizeMax_of_pos {x k : ℕ} (hk : 0 < k) (hk' : k ≤ 63) :
    alignUp x (2 ^ k) ≠ sizeMax := by
  intro heq
  have htwo : 2 ∣ sizeMax := heq ▸ Nat.dvd_of_pow_dvd hk (dvd_alignUp hk')
  rw [sizeMax] at htwo
  omega

/-- Only an offset that is already at the top of the address space is rounded to the value that
signals failure. -/
theorem alignUp_ne_sizeMax {x k : ℕ} (hx : x < sizeMax) (hk : k ≤ 63) :
    alignUp x (2 ^ k) ≠ sizeMax := by
  cases k with
  | zero =>
    rw [alignUp_two_pow, pow_zero, if_pos (Nat.mod_one x)]
    omega
  | succ k => exact alignUp_ne_sizeMax_of_pos (Nat.succ_pos k) hk

/-- The alignments that a `size_t` holds. -/
theorem two_pow_le_of_lt {align : ℕ} (hpow : align.isPowerOfTwo) (hlt : align < 2 ^ 64) :
    ∃ k, align = 2 ^ k ∧ k ≤ 63 := by
  obtain ⟨k, rfl⟩ := hpow
  have hk : k < 64 := (Nat.pow_lt_pow_iff_right (by omega)).mp hlt
  exact ⟨k, rfl, by omega⟩

/-- The default alignments are small. -/
theorem defaultAlign_lt (size : ℕ) : defaultAlign size < 2 ^ 64 := by
  simp only [defaultAlign]
  split_ifs <;> omega

/-! ### The three outcomes of a request -/

/-- What is left of the free block `a` before and after the range that serves a request. -/
def fragments (a : Allocation) (alignedOffset size : ℕ) : List Allocation :=
  (if a.offset < alignedOffset then [⟨a.offset, alignedOffset - a.offset, false⟩] else []) ++
  (if alignedOffset + size < a.offset + a.size then
    [⟨alignedOffset + size, a.offset + a.size - (alignedOffset + size), false⟩] else [])

/-- What is left of a free block is free. -/
theorem used_of_mem_fragments {a f : Allocation} {o size : ℕ} (hf : f ∈ fragments a o size) :
    f.used = false := by
  unfold fragments at hf
  rcases List.mem_append.mp hf with hf | hf
  · split at hf
    · rw [List.mem_singleton.mp hf]
    · exact absurd hf List.not_mem_nil
  · split at hf
    · rw [List.mem_singleton.mp hf]
    · exact absurd hf List.not_mem_nil

/-- `pushAlloc` appends the entry, or nothing when the table is full. -/
theorem pushAlloc_eq_append (allocs : List Allocation) (a : Allocation) :
    ∃ extra, extra.Sublist [a] ∧ pushAlloc allocs a = allocs ++ extra := by
  unfold pushAlloc
  split
  · exact ⟨[a], List.Sublist.refl _, rfl⟩
  · exact ⟨[], List.nil_sublist _, by simp⟩

/-- Replacing one entry of a table moves the replacement to the front, up to permutation. -/
theorem set_append_perm {allocs : List Allocation} {i : ℕ} {a : Allocation}
    (hi : allocs[i]? = some a) (new : Allocation) (extra : List Allocation) :
    ∃ rest, allocs.Perm (a :: rest) ∧
      ((allocs ++ extra).set i new).Perm (new :: (extra ++ rest)) := by
  obtain ⟨hlt, hget⟩ := List.getElem?_eq_some_iff.mp hi
  refine ⟨allocs.eraseIdx i, ?_, ?_⟩
  · rw [← hget]
    exact (List.getElem_cons_eraseIdx_perm hlt).symm
  · rw [List.set_append_left _ _ hlt, List.set_eq_take_append_cons_drop, if_pos hlt,
      List.eraseIdx_eq_take_drop_succ]
    have hcomm : ((allocs.take i ++ allocs.drop (i + 1)) ++ extra).Perm
        (extra ++ (allocs.take i ++ allocs.drop (i + 1))) := List.perm_append_comm
    calc allocs.take i ++ new :: allocs.drop (i + 1) ++ extra
        = allocs.take i ++ new :: (allocs.drop (i + 1) ++ extra) := by simp
      _ |>.Perm (new :: (allocs.take i ++ (allocs.drop (i + 1) ++ extra))) := List.perm_middle
      _ |>.Perm (new :: (extra ++ (allocs.take i ++ allocs.drop (i + 1)))) := by
        rw [← List.append_assoc]
        exact hcomm.cons new

/-- The table after `reuse`: the block that served the request is now the allocation, and
some of its fragments joined the table. -/
theorem reuse_perm {h : Heap} {i size align : ℕ} {a : Allocation} (hi : h.allocs[i]? = some a)
    (hlo : a.offset ≤ alignUp a.offset align) (hhi : alignUp a.offset align + size < 2 ^ 64)
    (hend : a.offset + a.size < 2 ^ 64) :
    ∃ extra rest, extra.Sublist (fragments a (alignUp a.offset align) size) ∧
      h.allocs.Perm (a :: rest) ∧
      (reuse h i a size align).1.allocs.Perm
        (⟨alignUp a.offset align, size, true⟩ :: (extra ++ rest)) := by
  -- The bytes before the rounded offset become a free block, if there are any.
  obtain ⟨front, hfront, hpush₁⟩ :
      ∃ front, front.Sublist (if a.offset < alignUp a.offset align then
          [⟨a.offset, alignUp a.offset align - a.offset, false⟩] else []) ∧
        (if a.offset < alignUp a.offset align then
          pushAlloc h.allocs ⟨a.offset, subSize (alignUp a.offset align) a.offset, false⟩
          else h.allocs) = h.allocs ++ front := by
    split
    · rw [subSize_of_le hlo (by omega)]
      exact pushAlloc_eq_append _ _
    · exact ⟨[], List.nil_sublist _, by simp⟩
  -- The bytes behind the request become another one.
  obtain ⟨back, hback, hpush₂⟩ :
      ∃ back, back.Sublist (if alignUp a.offset align + size < a.offset + a.size then
          [⟨alignUp a.offset align + size,
            a.offset + a.size - (alignUp a.offset align + size), false⟩] else []) ∧
        (if addSize (alignUp a.offset align) size < addSize a.offset a.size then
          pushAlloc (h.allocs ++ front) ⟨addSize (alignUp a.offset align) size,
            subSize (addSize a.offset a.size) (addSize (alignUp a.offset align) size), false⟩
          else h.allocs ++ front) = h.allocs ++ front ++ back := by
    rw [addSize_of_lt hhi, addSize_of_lt hend]
    split
    · rw [subSize_of_le (by omega) hend]
      exact pushAlloc_eq_append _ _
    · exact ⟨[], List.nil_sublist _, by simp⟩
  -- The fragments are appended, and the entry itself is overwritten.
  obtain ⟨rest, hperm, hset⟩ :=
    set_append_perm hi ⟨alignUp a.offset align, size, true⟩ (front ++ back)
  refine ⟨front ++ back, rest, hfront.append hback, hperm, ?_⟩
  simp only [reuse, gt_iff_lt, hpush₁, hpush₂]
  rw [List.append_assoc h.allocs front back]
  exact hset

/-- The table after `memheap_free`: the first used entry at the offset is free, or there is
no such entry and nothing changed. -/
theorem memheapFree_cases (h : Heap) (offset : ℕ) :
    (memheapFree h offset = h ∧
      (offset = sizeMax ∨ ∀ a ∈ h.allocs, a.used = true → a.offset ≠ offset)) ∨
    ∃ a rest, a.used = true ∧ a.offset = offset ∧ h.allocs.Perm (a :: rest) ∧
      (memheapFree h offset).allocs.Perm ({ a with used := false } :: rest) ∧
      (memheapFree h offset).allocated = subSize h.allocated a.size ∧
      (memheapFree h offset).size = h.size := by
  -- Either no block in use has this offset, or the first one is freed.
  unfold memheapFree
  split
  · exact Or.inl ⟨rfl, Or.inl ‹_›⟩
  · cases hfind : h.allocs.findIdx? (fun a => a.used && a.offset == offset) with
    | none =>
      rw [List.findIdx?_eq_none_iff] at hfind
      refine Or.inl ⟨rfl, Or.inr fun a ha hu hoff => ?_⟩
      simpa [hu, hoff] using hfind a ha
    | some i =>
      obtain ⟨hlt, hp, -⟩ := List.findIdx?_eq_some_iff_getElem.mp hfind
      have hi : h.allocs[i]? = some h.allocs[i] := List.getElem?_eq_getElem hlt
      simp only [Bool.and_eq_true, beq_iff_eq] at hp
      obtain ⟨rest, hperm, hset⟩ := set_append_perm hi { h.allocs[i] with used := false } []
      simp only [List.append_nil, List.nil_append] at hset
      simp only [hi]
      exact Or.inr ⟨h.allocs[i], rest, hp.1, hp.2, hperm, hset, rfl, trivial⟩

/-- The entry as a free block. -/
def Allocation.freed (a : Allocation) : Allocation := { a with used := false }

/-- `memheap_free` frees the entry at the offset when only one used entry starts there. -/
theorem memheapFree_eq_set {h : Heap} {i : ℕ} {a : Allocation} (hi : h.allocs[i]? = some a)
    (hused : a.used = true) (hne : a.offset ≠ sizeMax)
    (honly : ∀ j b, h.allocs[j]? = some b → b.used = true → b.offset = a.offset → j = i) :
    memheapFree h a.offset =
      { h with allocs := h.allocs.set i a.freed, allocated := subSize h.allocated a.size } := by
  unfold memheapFree
  rw [if_neg hne]
  cases hfind : h.allocs.findIdx? (fun b => b.used && b.offset == a.offset) with
  | none =>
    rw [List.findIdx?_eq_none_iff] at hfind
    simpa [hused] using hfind a (List.mem_of_getElem? hi)
  | some j =>
    obtain ⟨hlt, hp, -⟩ := List.findIdx?_eq_some_iff_getElem.mp hfind
    simp only [Bool.and_eq_true, beq_iff_eq] at hp
    obtain rfl : j = i := honly j _ (List.getElem?_eq_getElem hlt) hp.1 hp.2
    simp only [hi]
    rfl

/-- A request passes the argument checks of `memheap_aligned_alloc`. -/
def Accepted (size align : ℕ) : Prop := size ≠ 0 ∧ ¬(align = 0 ∨ align &&& (align - 1) ≠ 0)

instance (size align : ℕ) : Decidable (Accepted size align) :=
  inferInstanceAs (Decidable (_ ∧ _))

/-- A request that fails the argument checks is refused. -/
theorem memheapAlignedAlloc_refused {h : Heap} {size align : ℕ} (hacc : ¬Accepted size align) :
    memheapAlignedAlloc h size align = (h, sizeMax) := by
  unfold memheapAlignedAlloc
  by_cases hsize : size = 0
  · exact if_pos hsize
  · rw [if_neg hsize, if_pos (not_not.mp fun hno => hacc ⟨hsize, hno⟩)]

/-- A request that is served passed them. -/
theorem accepted_of_ne {h : Heap} {size align : ℕ}
    (hret : (memheapAlignedAlloc h size align).2 ≠ sizeMax) : Accepted size align := by
  by_contra hacc
  rw [memheapAlignedAlloc_refused hacc] at hret
  exact hret rfl

/-- A request that no free block fits is served by the counter. -/
theorem memheapAlignedAlloc_eq_bump {h : Heap} {size align : ℕ} (hacc : Accepted size align)
    (hnone : h.allocs.find? (fits size align) = none) :
    memheapAlignedAlloc h size align = bump h size align := by
  have hidx : h.allocs.findIdx? (fits size align) = none := by
    rw [List.findIdx?_eq_none_iff]
    exact fun a ha => by simpa using List.find?_eq_none.mp hnone a ha
  unfold memheapAlignedAlloc
  rw [if_neg hacc.1, if_neg hacc.2, hidx]
  exact if_pos rfl

/-- A request is served from the first block that fits. -/
theorem memheapAlignedAlloc_eq_reuse {h : Heap} {size align i : ℕ} {a : Allocation}
    (hacc : Accepted size align) (hi : h.allocs[i]? = some a)
    (hidx : h.allocs.findIdx? (fits size align) = some i)
    (hret : alignUp a.offset align ≠ sizeMax) :
    memheapAlignedAlloc h size align = reuse h i a size align := by
  have hne : (reuse h i a size align).2 ≠ sizeMax := hret
  unfold memheapAlignedAlloc
  rw [if_neg hacc.1, if_neg hacc.2, hidx]
  simp only [hi, hne, if_false]

/-- The bump path with room in the heap. -/
theorem bump_eq {h : Heap} {size align : ℕ}
    (hroom : addSize (alignUp h.allocated align) size ≤ h.size) :
    bump h size align =
      ({ h with
          allocs := pushAlloc h.allocs ⟨alignUp h.allocated align, size, true⟩
          allocated := addSize (alignUp h.allocated align) size },
        alignUp h.allocated align) :=
  if_pos hroom

/-- The bump path in a heap that is exhausted. -/
theorem bump_eq_of_not {h : Heap} {size align : ℕ}
    (hroom : ¬addSize (alignUp h.allocated align) size ≤ h.size) :
    bump h size align = (h, sizeMax) :=
  if_neg hroom

/-- The outcomes of an accepted request on a table none of whose blocks starts at the offset that
signals failure: the first free block that fits serves it, or no block fits and the bump counter
serves it. -/
theorem memheapAlignedAlloc_outcome {h : Heap} {size align : ℕ} (hacc : Accepted size align)
    (hret : ∀ a ∈ h.allocs, alignUp a.offset align ≠ sizeMax) :
    (∃ i a, h.allocs[i]? = some a ∧ h.allocs.find? (fits size align) = some a ∧
      memheapAlignedAlloc h size align = reuse h i a size align) ∨
    (h.allocs.find? (fits size align) = none ∧
      memheapAlignedAlloc h size align = bump h size align) := by
  cases hidx : h.allocs.findIdx? (fits size align) with
  | none =>
    rw [List.findIdx?_eq_none_iff] at hidx
    have hnone : h.allocs.find? (fits size align) = none :=
      List.find?_eq_none.mpr fun a ha => by simp [hidx a ha]
    exact Or.inr ⟨hnone, memheapAlignedAlloc_eq_bump hacc hnone⟩
  | some i =>
    obtain ⟨hlt, hp, hmin⟩ := List.findIdx?_eq_some_iff_getElem.mp hidx
    have hi : h.allocs[i]? = some h.allocs[i] := List.getElem?_eq_getElem hlt
    have hfind : h.allocs.find? (fits size align) = some h.allocs[i] :=
      List.find?_eq_some_iff_getElem.mpr
        ⟨hp, i, hlt, rfl, fun j hj => by simpa using hmin j hj⟩
    exact Or.inl ⟨i, h.allocs[i], hi, hfind,
      memheapAlignedAlloc_eq_reuse hacc hi hidx (hret _ (List.getElem_mem hlt))⟩

/-- The outcomes of `memheap_aligned_alloc` on a table whose blocks start below `2 ^ 63`: the
request fails, or a free block that fits serves it, or no block fits and the bump counter
serves it. -/
theorem memheapAlignedAlloc_cases (size : ℕ) {h : Heap} {align : ℕ} (halign : align < 2 ^ 64)
    (hlow : ∀ a ∈ h.allocs, a.offset < 2 ^ 63) :
    memheapAlignedAlloc h size align = (h, sizeMax) ∨
    (Accepted size align ∧ ∃ k, align = 2 ^ k ∧ k ≤ 63 ∧
      ((∃ i a, h.allocs[i]? = some a ∧ fits size align a = true ∧
          memheapAlignedAlloc h size align = reuse h i a size align) ∨
        ((∀ a ∈ h.allocs, fits size align a = false) ∧
          memheapAlignedAlloc h size align = bump h size align))) := by
  by_cases hacc : Accepted size align
  · obtain ⟨k, rfl, hk⟩ := two_pow_le_of_lt (isPowerOfTwo_of_accepted hacc.2) halign
    -- A block below `2 ^ 63` never yields the offset that signals failure.
    have hret : ∀ a ∈ h.allocs, alignUp a.offset (2 ^ k) ≠ sizeMax := fun a ha => by
      have hle := alignUp_le (hlow a ha) hk
      rw [sizeMax]
      omega
    refine Or.inr ⟨hacc, k, rfl, hk, ?_⟩
    rcases memheapAlignedAlloc_outcome hacc hret with ⟨i, a, hi, hfind, heq⟩ | ⟨hfind, heq⟩
    · exact Or.inl ⟨i, a, hi, List.find?_some hfind, heq⟩
    · exact Or.inr ⟨fun a ha => by simpa using List.find?_eq_none.mp hfind a ha, heq⟩
  · exact Or.inl (memheapAlignedAlloc_refused hacc)

end EpDemo.Memheap
