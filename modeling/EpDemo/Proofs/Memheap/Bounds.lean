import EpDemo.Proofs.Memheap.Table

/-!
# `EpDemo.Proofs.Memheap.Bounds`: where a request is placed

An offset that `memheap_aligned_alloc` returns is a multiple of the alignment, whatever the
arguments. It need not lie in the heap: both paths compare a `size_t` sum with the end of the
block or of the heap, and for a size close to `2 ^ 64` the sum wraps and passes
(`request_beyond_heap`).

`Bounded` is a condition on the arguments, the size of the heap and the counter under which no such
sum can wrap: every offset that is rounded up is at most the larger of the heap's size and the
counter. As long as every request meets it, all blocks of the table lie in the heap (`InHeap`), and
a request that meets it too is placed inside the heap (`placed_of_bounded`). While the size of the
heap and the counter are below `2 ^ 63`, the requests that are placed inside the heap are exactly
those that ask for no more than it has.
-/

set_option autoImplicit false

namespace EpDemo.Memheap

open EpDemo.Library

/-! ### The blocks of the table -/

/-- Every block of the table has bytes in it and lies in the heap of `S` bytes. -/
structure InHeap (S : ℕ) (h : Heap) : Prop where
  size : h.size = S
  block : ∀ a ∈ h.allocs, 0 < a.size ∧ a.offset + a.size ≤ S

/-- The sum that lets the request through is a sum of integers: it does not wrap at the first
free block that fits, nor, when no block fits, at the counter. -/
def NoWrap (h : Heap) (size align : ℕ) : Prop :=
  match h.allocs.find? (fits size align) with
  | some a => alignUp a.offset align + size < 2 ^ 64
  | none =>
    addSize (alignUp h.allocated align) size ≤ h.size → alignUp h.allocated align + size < 2 ^ 64

/-- No sum of the request can wrap: the size of the heap and the counter, rounded up to the
alignment as integers, leave room for `size` below `2 ^ 64`. -/
def Bounded (h : Heap) (size align : ℕ) : Prop :=
  align * ((max h.size h.allocated + (align - 1)) / align) + size < 2 ^ 64

instance (h : Heap) (size align : ℕ) : Decidable (Bounded h size align) :=
  inferInstanceAs (Decidable (_ < _))

/-- Rounding up does not pass a multiple of the alignment. -/
theorem alignUp_le_mul {x k c : ℕ} (hx : x ≤ 2 ^ k * c) : alignUp x (2 ^ k) ≤ 2 ^ k * c := by
  rw [alignUp_two_pow]
  split
  · exact hx
  · rename_i hmod
    have hne : x ≠ 2 ^ k * c := by
      rintro rfl
      exact hmod (Nat.mul_mod_right _ _)
    have hlt : x / 2 ^ k < c := Nat.div_lt_of_lt_mul (lt_of_le_of_ne hx hne)
    calc (x / 2 ^ k + 1) * 2 ^ k % 2 ^ 64 ≤ (x / 2 ^ k + 1) * 2 ^ k := Nat.mod_le _ _
      _ ≤ c * 2 ^ k := Nat.mul_le_mul_right _ hlt
      _ = 2 ^ k * c := Nat.mul_comm _ _

/-- The offsets that the size of the heap or the counter bounds are rounded up without a wrap. -/
theorem Bounded.alignUp_add_lt {h : Heap} {size k x : ℕ} (hb : Bounded h size (2 ^ k))
    (hx : x ≤ max h.size h.allocated) : alignUp x (2 ^ k) + size < 2 ^ 64 := by
  have hpos := Nat.two_pow_pos k
  have hdiv := Nat.div_add_mod (max h.size h.allocated + (2 ^ k - 1)) (2 ^ k)
  have hmod := Nat.mod_lt (max h.size h.allocated + (2 ^ k - 1)) hpos
  exact lt_of_le_of_lt (Nat.add_le_add_right (alignUp_le_mul (by omega)) size) hb

/-- A heap and a counter below `2 ^ 63` leave room for every request that is not larger than the
heap. -/
theorem bounded_of_le {h : Heap} {size k : ℕ} (hk : k ≤ 63) (hsize : h.size < 2 ^ 63)
    (hallocated : h.allocated < 2 ^ 63) (hle : size ≤ h.size) : Bounded h size (2 ^ k) := by
  have hpow : 2 ^ k * 2 ^ (63 - k) = 2 ^ 63 := by
    rw [← Nat.pow_add]
    congr 1
    omega
  have hpos := Nat.two_pow_pos k
  have hmax : max h.size h.allocated < 2 ^ 63 := max_lt hsize hallocated
  have hdiv : (max h.size h.allocated + (2 ^ k - 1)) / 2 ^ k < 2 ^ (63 - k) + 1 :=
    Nat.div_lt_of_lt_mul (by rw [Nat.mul_add, hpow]; omega)
  have hround := Nat.mul_le_mul_left (2 ^ k) (Nat.le_of_lt_succ hdiv)
  rw [hpow] at hround
  show _ + size < 2 ^ 64
  omega

/-- `Bounded` for the requests that pass the argument checks. -/
def SumFits (h : Heap) (size align : ℕ) : Prop := Accepted size align → Bounded h size align

instance (h : Heap) (size align : ℕ) : Decidable (SumFits h size align) :=
  inferInstanceAs (Decidable (_ → _))

/-- What holds of every entry and of a pushed one holds of every entry afterwards. -/
theorem forall_mem_push {P : Allocation → Prop} {allocs : List Allocation} {a : Allocation}
    {c : Prop} [Decidable c] (hall : ∀ b ∈ allocs, P b) (ha : c → P a) :
    ∀ b ∈ (if c then pushAlloc allocs a else allocs), P b := by
  intro b hb
  split at hb
  · obtain ⟨extra, hextra, hpush⟩ := pushAlloc_eq_append allocs a
    rw [hpush] at hb
    rcases List.mem_append.mp hb with hb | hb
    · exact hall b hb
    · rw [List.mem_singleton.mp (hextra.subset hb)]
      exact ha ‹_›
  · exact hall b hb

namespace InHeap

variable {S : ℕ} {h : Heap}

/-- A new heap has no block that could lie outside. -/
theorem create (S : ℕ) : InHeap S (memheapCreate S) where
  size := rfl
  block := by simp [memheapCreate]

/-- No block is rounded up to the offset that signals failure. -/
theorem alignUp_ne (hh : InHeap S h) (hS : S < 2 ^ 64) {k : ℕ} (hk : k ≤ 63) :
    ∀ a ∈ h.allocs, alignUp a.offset (2 ^ k) ≠ sizeMax := by
  intro a ha
  obtain ⟨hpos, hend⟩ := hh.block a ha
  exact alignUp_ne_sizeMax (by rw [sizeMax]; omega) hk

/-- A bounded request passes no test on a sum that wrapped. -/
theorem noWrap (hh : InHeap S h) {size k : ℕ} (hb : Bounded h size (2 ^ k)) :
    NoWrap h size (2 ^ k) := by
  unfold NoWrap
  split
  · rename_i a hfind
    have hend := (hh.block a (List.mem_of_find?_eq_some hfind)).2
    refine hb.alignUp_add_lt (le_max_of_le_left ?_)
    rw [hh.size]
    omega
  · exact fun _ => hb.alignUp_add_lt (le_max_right _ _)

/-- A free block that fits without a wrap gives up a range of its own. -/
theorem reuse (hh : InHeap S h) (hS : S < 2 ^ 64) {i size align : ℕ} {a : Allocation}
    (hi : h.allocs[i]? = some a) (hfits : fits size align a = true) (hsize : 0 < size)
    (hfit : alignUp a.offset align + size < 2 ^ 64) :
    alignUp a.offset align + size ≤ S ∧ InHeap S (reuse h i a size align).1 := by
  obtain ⟨hpos, hend⟩ := hh.block a (List.mem_of_getElem? hi)
  have hroom : alignUp a.offset align + size ≤ a.offset + a.size := by
    have htest := (Bool.and_eq_true_iff.mp hfits).2
    rwa [decide_eq_true_iff, addSize_of_lt hfit, addSize_of_lt (by omega)] at htest
  refine ⟨by omega, hh.size, fun b hb => ?_⟩
  simp only [Memheap.reuse, addSize_of_lt hfit,
    addSize_of_lt (show a.offset + a.size < 2 ^ 64 by omega)] at hb
  rcases List.mem_or_eq_of_mem_set hb with hb | rfl
  · refine forall_mem_push (forall_mem_push hh.block fun hfront => ?_) (fun hback => ?_) b hb
    · rw [subSize_of_le (by omega) (by omega)]
      exact ⟨by simp only; omega, by simp only; omega⟩
    · rw [subSize_of_le (by omega) (by omega)]
      exact ⟨by simp only; omega, by simp only; omega⟩
  · exact ⟨hsize, by simp only; omega⟩

/-- The bump path stays inside the heap when its sum does not wrap. -/
theorem bump (hh : InHeap S h) {size align : ℕ} (hsize : 0 < size)
    (hfit : addSize (alignUp h.allocated align) size ≤ h.size →
      alignUp h.allocated align + size < 2 ^ 64) :
    InHeap S (bump h size align).1 := by
  unfold Memheap.bump
  simp only
  split
  · rename_i hroom
    rw [addSize_of_lt (hfit hroom), hh.size] at hroom
    refine ⟨hh.size, fun b hb => ?_⟩
    obtain ⟨extra, hextra, hpush⟩ :=
      pushAlloc_eq_append h.allocs ⟨alignUp h.allocated align, size, true⟩
    simp only [hpush] at hb
    rcases List.mem_append.mp hb with hb | hb
    · exact hh.block b hb
    · rw [List.mem_singleton.mp (hextra.subset hb)]
      exact ⟨hsize, hroom⟩
  · exact hh

/-- A bounded request keeps the table inside the heap. -/
theorem request (hh : InHeap S h) (hS : S < 2 ^ 64) {size align : ℕ} (halign : align < 2 ^ 64)
    (hfit : SumFits h size align) : InHeap S (memheapAlignedAlloc h size align).1 := by
  by_cases hacc : Accepted size align
  · have hsize : 0 < size := Nat.pos_of_ne_zero hacc.1
    obtain ⟨k, rfl, hk⟩ := two_pow_le_of_lt (isPowerOfTwo_of_accepted hacc.2) halign
    have hno : NoWrap h size (2 ^ k) := hh.noWrap (hfit hacc)
    unfold NoWrap at hno
    rcases memheapAlignedAlloc_outcome hacc (hh.alignUp_ne hS hk) with
      ⟨i, a, hi, hfind, heq⟩ | ⟨hfind, heq⟩
    · rw [hfind] at hno
      rw [heq]
      exact (hh.reuse hS hi (List.find?_some hfind) hsize hno).2
    · rw [hfind] at hno
      rw [heq]
      exact hh.bump hsize hno
  · rw [memheapAlignedAlloc_refused hacc]
    exact hh

/-- `memheap_free` moves no block. -/
theorem free (hh : InHeap S h) (offset : ℕ) : InHeap S (memheapFree h offset) := by
  rcases memheapFree_cases h offset with ⟨hsame, -⟩ | ⟨a, rest, -, -, hperm, hnew, -, hsize⟩
  · rw [hsame]
    exact hh
  · refine ⟨hsize.trans hh.size, fun b hb => ?_⟩
    rcases List.mem_cons.mp (hnew.mem_iff.mp hb) with rfl | hb
    · exact hh.block a (hperm.mem_iff.mpr List.mem_cons_self)
    · exact hh.block b (hperm.mem_iff.mpr (List.mem_cons_of_mem a hb))

/-- What a request returns is aligned, and it is inside the heap when the sum that let the request
through did not wrap. -/
theorem placed (hh : InHeap S h) (hS : S < 2 ^ 64) {size k : ℕ} (hk : k ≤ 63)
    (hret : (memheapAlignedAlloc h size (2 ^ k)).2 ≠ sizeMax) :
    2 ^ k ∣ (memheapAlignedAlloc h size (2 ^ k)).2 ∧
      (NoWrap h size (2 ^ k) → (memheapAlignedAlloc h size (2 ^ k)).2 + size ≤ S) := by
  have hacc : Accepted size (2 ^ k) := accepted_of_ne hret
  have hsize : 0 < size := Nat.pos_of_ne_zero hacc.1
  unfold NoWrap
  rcases memheapAlignedAlloc_outcome hacc (hh.alignUp_ne hS hk) with
    ⟨i, a, hi, hfind, heq⟩ | ⟨hfind, heq⟩
  · -- A served request reuses a free block, or goes behind everything handed out so far.
    rw [hfind, heq]
    exact ⟨dvd_alignUp hk, fun hno => (hh.reuse hS hi (List.find?_some hfind) hsize hno).1⟩
  · rw [heq] at hret ⊢
    unfold Memheap.bump at hret ⊢
    simp only at hret ⊢
    split at hret
    · rename_i hroom
      rw [if_pos hroom, hfind]
      -- The test compares the rounded counter plus the size, and it did not wrap here.
      refine ⟨dvd_alignUp hk, fun hno => ?_⟩
      have hfit := hno hroom
      rw [addSize_of_lt hfit, hh.size] at hroom
      exact hroom
    · exact absurd rfl hret

/-- Every call whose request meets the condition keeps the table inside the heap. -/
theorem call {u : Usage} (hh : InHeap S u.heap) (hS : S < 2 ^ 64) {op : Op} (hop : op.SizeT)
    (hc : OnRequest SumFits u op) : InHeap S (u.call op).heap := by
  have hreturned : ∀ size (r : Heap × ℕ), InHeap S r.1 → InHeap S (u.returned size r).heap := by
    intro size r hr
    unfold Usage.returned
    split <;> exact hr
  cases op with
  | alignedAlloc size align => exact hreturned _ _ (hh.request hS hop.2 hc)
  | alloc size => exact hreturned _ _ (hh.request hS (defaultAlign_lt size) hc)
  | free offset => exact hh.free offset

end InHeap

/-! ### Runs -/

/-- The runs in which every request is bounded. -/
def boundedSequences (S : ℕ) : TransitionSystem Usage Op :=
  (anySequences S).restrict (OnRequest SumFits)

/-- In a run of bounded requests all blocks stay inside the heap. -/
theorem inHeap_of_bounded {S : ℕ} (hS : S < 2 ^ 64) {u : Usage}
    (h : (boundedSequences S).Reachable u) : InHeap S u.heap := by
  refine TransitionSystem.Reachable.invariant (I := fun u => InHeap S u.heap) ?_ ?_ h
  · rintro s rfl
    exact InHeap.create S
  · rintro s op s' - hs ⟨hc, hop, rfl⟩
    exact hs.call hS hop hc

/-- The offset is a multiple of the alignment, and the bytes from it on lie in the heap. -/
def Placed (S size align offset : ℕ) : Prop := align ∣ offset ∧ offset + size ≤ S

instance (S size align offset : ℕ) : Decidable (Placed S size align offset) :=
  inferInstanceAs (Decidable (_ ∧ _))

/-- On a heap of `S` bytes on which every request was bounded, the next bounded request that
succeeds is aligned and inside the heap. While `S` and the counter are below `2 ^ 63`, a request
that succeeds is so if and only if it asks for no more than `S` bytes. -/
theorem placed_of_bounded (S : ℕ) (hS : S < 2 ^ 64) (u : Usage)
    (h : (boundedSequences S).Reachable u) (size : ℕ) :
    (∀ align < 2 ^ 64, align.isPowerOfTwo → (memheapAlignedAlloc u.heap size align).2 ≠ sizeMax →
      (Bounded u.heap size align →
        Placed S size align (memheapAlignedAlloc u.heap size align).2) ∧
      (S < 2 ^ 63 → u.heap.allocated < 2 ^ 63 →
        (Placed S size align (memheapAlignedAlloc u.heap size align).2 ↔ size ≤ S))) ∧
    ((memheapAlloc u.heap size).2 ≠ sizeMax →
      (Bounded u.heap size (defaultAlign size) →
        Placed S size (defaultAlign size) (memheapAlloc u.heap size).2) ∧
      (S < 2 ^ 63 → u.heap.allocated < 2 ^ 63 →
        (Placed S size (defaultAlign size) (memheapAlloc u.heap size).2 ↔ size ≤ S))) := by
  -- The invariant holds after every run whose requests were all bounded.
  have hin := inHeap_of_bounded hS h
  have hplaced : ∀ align < 2 ^ 64, (memheapAlignedAlloc u.heap size align).2 ≠ sizeMax →
      (Bounded u.heap size align →
        Placed S size align (memheapAlignedAlloc u.heap size align).2) ∧
      (S < 2 ^ 63 → u.heap.allocated < 2 ^ 63 →
        (Placed S size align (memheapAlignedAlloc u.heap size align).2 ↔ size ≤ S)) := by
    intro align halign hret
    obtain ⟨k, rfl, hk⟩ :=
      two_pow_le_of_lt (isPowerOfTwo_of_accepted (accepted_of_ne hret).2) halign
    obtain ⟨hdvd, hfits⟩ := hin.placed hS hk hret
    refine ⟨fun hb => ⟨hdvd, hfits (hin.noWrap hb)⟩, fun hS' hallocated => ⟨?_, fun hle => ?_⟩⟩
    · rintro ⟨-, hend⟩
      -- A block inside the heap is no longer than the heap.
      omega
    · -- With both below half the word size, no sum of the search can wrap.
      have hb := bounded_of_le hk (hin.size.symm ▸ hS') hallocated (hin.size.symm ▸ hle)
      exact ⟨hdvd, hfits (hin.noWrap hb)⟩
  exact ⟨fun align halign _ => hplaced align halign, hplaced _ (defaultAlign_lt size)⟩

/-- A heap with one block. The next request is for eight bytes, and it is served. -/
theorem placed_after_alloc :
    Placed 4096 8 (defaultAlign 8)
      (memheapAlloc (anyCalls.exec (Usage.fresh 4096) [.alloc 64]).heap 8).2 :=
  ((placed_of_bounded 4096 (by decide) _
    (Machine.reachable_restrict_exec [.alloc 64] (.init rfl) (by decide +kernel)) 8).2
      (by decide +kernel)).1 (by decide +kernel)

/-- Without the condition a request can be placed beyond the heap: after `alloc(64)` a request of
`2 ^ 64 - 64` bytes returns 64, because `64 + (2 ^ 64 - 64)` wraps to zero. -/
theorem request_beyond_heap :
    ¬ ∀ (S : ℕ) (u : Usage), S < 2 ^ 64 → (anySequences S).Reachable u → ∀ size < 2 ^ 64,
      (∀ align < 2 ^ 64, align.isPowerOfTwo →
        (memheapAlignedAlloc u.heap size align).2 ≠ sizeMax →
        Placed S size align (memheapAlignedAlloc u.heap size align).2) ∧
      ((memheapAlloc u.heap size).2 ≠ sizeMax →
        Placed S size (defaultAlign size) (memheapAlloc u.heap size).2) := by
  intro h
  have hreach : (anySequences 4096).Reachable (anyCalls.exec (Usage.fresh 4096) _) :=
    Machine.reachable_exec [.alloc 64] (.init rfl) (by decide +kernel)
  exact absurd (h 4096 _ (by decide) hreach (2 ^ 64 - 64) (by decide)).2 (by decide +kernel)

end EpDemo.Memheap
