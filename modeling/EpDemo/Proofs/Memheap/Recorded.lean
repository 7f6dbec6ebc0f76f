import EpDemo.Proofs.Memheap.Disjoint

/-!
# `EpDemo.Proofs.Memheap.Recorded`: the table entry of a live allocation

`memheap_free` finds an allocation through its table entry. The bump path returns an offset also
when the table has no room for the entry, and such an allocation can never be freed
(`full_table_loses_allocation`).

`Recorded` is that every live allocation has exactly one used entry and that freeing it frees
this entry. It holds in every run whose requests meet two conditions: `CounterAtTop`, which keeps
two live allocations from starting at one offset, and `HasRoom`, which is that the bump path is
not taken with a full table. The invariant is `Orderly` together with `Listed`: the range of every
live allocation is that of a used entry. The entry is then unique, because the blocks of an
orderly table are disjoint.
-/

set_option autoImplicit false

namespace EpDemo.Memheap

open EpDemo.Library

/-- The table entry of a live allocation. -/
def entry (p : ℕ × ℕ) : Allocation := ⟨p.1, p.2, true⟩

/-- Every live allocation has exactly one used entry with its offset and size, and freeing it
frees this entry and lowers the counter by its size. -/
def Recorded (u : Usage) : Prop :=
  ∀ p ∈ u.live, ∃ i, u.heap.allocs[i]? = some (entry p) ∧
    (∀ j, u.heap.allocs[j]? = some (entry p) → j = i) ∧
    p.2 ≤ u.heap.allocated ∧
    memheapFree u.heap p.1 =
      { u.heap with
        allocs := u.heap.allocs.set i (entry p).freed
        allocated := u.heap.allocated - p.2 }

/-- The bump path finds room in the table for the entry of its block. -/
def HasRoom (h : Heap) (size align : ℕ) : Prop :=
  Accepted size align → h.allocs.find? (fits size align) = none →
    addSize (alignUp h.allocated align) size ≤ h.size → h.allocs.length < maxAllocations

instance (h : Heap) (size align : ℕ) : Decidable (HasRoom h size align) :=
  inferInstanceAs (Decidable (_ → _ → _ → _))

/-- Every live allocation has a used entry. -/
def Listed (u : Usage) : Prop := ∀ p ∈ u.live, entry p ∈ u.heap.allocs

/-! ### Orderly tables -/

namespace Orderly

variable {S : ℕ} {u : Usage}

/-- Two entries of an orderly table that start at one offset are one entry. -/
theorem index_eq (hu : Orderly S u) {i j : ℕ} {a b : Allocation} (hi : u.heap.allocs[i]? = some a)
    (hj : u.heap.allocs[j]? = some b) (hab : a.offset = b.offset) : i = j := by
  obtain ⟨hlti, rfl⟩ := List.getElem?_eq_some_iff.mp hi
  obtain ⟨hltj, rfl⟩ := List.getElem?_eq_some_iff.mp hj
  have hpos : ∀ k (hk : k < u.heap.allocs.length), 0 < u.heap.allocs[k].size := fun k hk =>
    (hu.block _ (List.getElem_mem hk)).1
  have hpair := List.pairwise_iff_getElem.mp hu.apart
  by_contra hne
  rcases Nat.lt_or_gt_of_ne hne with hlt | hlt
  · exact (hpair i j hlti hltj hlt).ne (hpos i hlti) (hpos j hltj) hab
  · exact (hpair j i hltj hlti hlt).ne (hpos j hltj) (hpos i hlti) hab.symm

/-- In an orderly table `memheap_free` frees the entry at the offset. -/
theorem memheapFree_eq (hu : Orderly S u) (hS : S < 2 ^ 63) {i : ℕ} {a : Allocation}
    (hi : u.heap.allocs[i]? = some a) (hused : a.used = true) :
    a.size ≤ u.heap.allocated ∧
      memheapFree u.heap a.offset =
        { u.heap with
          allocs := u.heap.allocs.set i a.freed
          allocated := u.heap.allocated - a.size } := by
  have hmem : a ∈ u.heap.allocs := List.mem_of_getElem? hi
  obtain ⟨hpos, hend⟩ := hu.block a hmem
  have htop := hu.top_le
  have hcounter := hu.counter
  have hsize : a.size ≤ u.heap.allocated :=
    (size_le_usedBytes hmem hused).trans hu.covered
  refine ⟨hsize, ?_⟩
  rw [memheapFree_eq_set hi hused (by rw [sizeMax]; omega)
      fun j b hj _ hoff => hu.index_eq hj hi hoff,
    subSize_of_le hsize (show u.heap.allocated < 2 ^ 64 by omega)]

/-- A free at an offset that no live allocation has changes nothing, so an orderly heap stays
orderly under every free. -/
theorem free_any (hS : S + S < 2 ^ 64) (hu : Orderly S u) (offset : ℕ) :
    Orderly S (u.call (.free offset)) := by
  by_cases hlive : ∃ p ∈ u.live, p.1 = offset
  · exact hu.free_call hS hlive
  · have hsame : memheapFree u.heap offset = u.heap := by
      rcases memheapFree_cases u.heap offset with
        ⟨hsame, -⟩ | ⟨a, rest, hused, hoff, hperm, -⟩
      · exact hsame
      · have hmem : a ∈ u.heap.allocs := hperm.mem_iff.mpr List.mem_cons_self
        exact absurd ⟨a.range, hu.owned a hmem hused, hoff⟩ hlive
    have herase : u.live.eraseP (fun p => p.1 == offset) = u.live := by
      refine List.eraseP_of_forall_not fun p hp => ?_
      simpa using fun hoff => hlive ⟨p, hp, hoff⟩
    rw [Usage.call, hsame, herase]
    exact hu

/-- An orderly table that lists every live allocation records it. -/
theorem recorded (hu : Orderly S u) (hS : S < 2 ^ 63) (hl : Listed u) : Recorded u := by
  intro p hp
  obtain ⟨i, hi⟩ := List.mem_iff_getElem?.mp (hl p hp)
  obtain ⟨hsize, hfree⟩ := hu.memheapFree_eq hS hi rfl
  exact ⟨i, hi, fun j hj => hu.index_eq hj hi rfl, hsize, hfree⟩

end Orderly

/-! ### What a call does to the list -/

namespace Listed

variable {S : ℕ} {u : Usage}

/-- A new block is listed when it gets an entry, and the used entries are all kept. -/
theorem add (hl : Listed u) {h : Heap} {p : ℕ × ℕ} {top : ℕ} (hnew : entry p ∈ h.allocs)
    (hold : ∀ a ∈ u.heap.allocs, a.used = true → a ∈ h.allocs) : Listed ⟨h, p :: u.live, top⟩ := by
  intro q hq
  rcases List.mem_cons.mp hq with rfl | hq
  · exact hnew
  · exact hold _ (hl q hq) rfl

/-- A request with room for its entry keeps the list complete. -/
theorem request (hl : Listed u) (hu : Orderly S u) (hS : S < 2 ^ 63) {size align : ℕ}
    (hsize : size ≤ S) (halign : align < 2 ^ 64) (hroom : HasRoom u.heap size align) :
    Listed (u.returned size (memheapAlignedAlloc u.heap size align)) := by
  have hin : ∀ a ∈ u.heap.allocs, 0 < a.size ∧ a.offset + a.size ≤ S := fun a ha =>
    ⟨(hu.block a ha).1, (hu.block a ha).2.trans hu.top_le⟩
  have hkeep : ∀ h : Heap, h.allocs = u.heap.allocs →
      Listed (u.returned size (h, sizeMax)) := by
    intro h hh p hp
    rw [Usage.returned, if_pos rfl] at hp ⊢
    simpa only [hh] using hl p hp
  by_cases hacc : Accepted size align
  · obtain ⟨k, rfl, hk⟩ := two_pow_le_of_lt (isPowerOfTwo_of_accepted hacc.2) halign
    have hne : ∀ a ∈ u.heap.allocs, alignUp a.offset (2 ^ k) ≠ sizeMax := fun a ha => by
      have hle := alignUp_le (show a.offset < 2 ^ 63 by have := hin a ha; omega) hk
      rw [sizeMax]
      omega
    rcases memheapAlignedAlloc_outcome hacc hne with ⟨i, a, hi, hfind, heq⟩ | ⟨hfind, heq⟩
    · -- The entry of the free block becomes the entry of the allocation.
      have ha := List.mem_of_getElem? hi
      obtain ⟨hpos, hend⟩ := hin a ha
      have hfits : fits size (2 ^ k) a = true := List.find?_some hfind
      have hfree : a.used = false := by simpa using (Bool.and_eq_true_iff.mp hfits).1
      have hlo := le_alignUp (show a.offset < 2 ^ 63 by omega) hk
      have hle := alignUp_le (show a.offset < 2 ^ 63 by omega) hk
      obtain ⟨extra, rest, -, hperm, hnew⟩ :=
        reuse_perm hi hlo (show alignUp a.offset (2 ^ k) + size < 2 ^ 64 by omega) (by omega)
      have hret : (reuse u.heap i a size (2 ^ k)).2 ≠ sizeMax := hne a ha
      rw [heq, Usage.returned, if_neg hret]
      refine hl.add (hnew.mem_iff.mpr List.mem_cons_self) fun b hb hused => ?_
      have hrest : b ∈ rest := by
        rcases List.mem_cons.mp (hperm.mem_iff.mp hb) with rfl | hb
        · rw [hfree] at hused
          exact absurd hused Bool.false_ne_true
        · exact hb
      exact hnew.mem_iff.mpr (List.mem_cons_of_mem _ (List.mem_append_right extra hrest))
    · -- The bump path appends the entry.
      have hcounter := hu.counter
      have htop := hu.top_le
      have hne := alignUp_ne_sizeMax (show u.heap.allocated < sizeMax by rw [sizeMax]; omega) hk
      rw [heq]
      by_cases hfits : addSize (alignUp u.heap.allocated (2 ^ k)) size ≤ u.heap.size
      · have hlen := hroom hacc hfind hfits
        have hpush : ∀ a, pushAlloc u.heap.allocs a = u.heap.allocs ++ [a] := fun a => if_pos hlen
        rw [bump_eq hfits, hpush, Usage.returned, if_neg hne]
        exact hl.add (List.mem_append_right _ List.mem_cons_self) fun b hb _ =>
          List.mem_append_left _ hb
      · rw [bump_eq_of_not hfits]
        exact hkeep _ rfl
  · rw [memheapAlignedAlloc_refused hacc]
    exact hkeep _ rfl

/-- A free keeps the list complete: the entry that becomes free is that of the allocation that
is no longer live. -/
theorem free (hl : Listed u) (hu : Orderly S u) (offset : ℕ) : Listed (u.call (.free offset)) := by
  intro p hp
  have hlive : p ∈ u.live := List.mem_of_mem_eraseP hp
  show entry p ∈ (memheapFree u.heap offset).allocs
  rcases memheapFree_cases u.heap offset with
    ⟨hsame, -⟩ | ⟨a, rest, hused, hoff, hperm, hnew, -, -⟩
  · rw [hsame]
    exact hl p hlive
  · have hmem : a ∈ u.heap.allocs := hperm.mem_iff.mpr List.mem_cons_self
    rcases List.mem_cons.mp (hperm.mem_iff.mp (hl p hlive)) with rfl | hrest
    · -- The allocation of the freed entry is the one that `eraseP` removes.
      subst hoff
      have hapart := hu.apart_of_mem_eraseP (hu.owned _ hmem hused) p hp
      have hpos := (hu.live p hlive).1
      exact absurd rfl (hapart.ne hpos hpos)
    · exact hnew.mem_iff.mpr (List.mem_cons_of_mem _ hrest)

end Listed

/-! ### Runs -/

/-- The calling sequences in which the bump path serves no request with the counter, rounded up,
below the end of an earlier allocation, or with a full table. -/
def roomySequences (S : ℕ) : TransitionSystem Usage Op :=
  (sizedSequences S).restrict fun u op => CounterAtTop u op ∧ OnRequest HasRoom u op

/-- The invariant of these sequences. -/
theorem listed_of_reachable {S : ℕ} (hS : S < 2 ^ 63) {u : Usage}
    (h : (roomySequences S).Reachable u) : Orderly S u ∧ Listed u := by
  have hSS : S + S < 2 ^ 64 := by omega
  refine TransitionSystem.Reachable.invariant (I := fun u => Orderly S u ∧ Listed u) ?_ ?_ h
  · rintro s rfl
    exact ⟨Orderly.fresh S, fun p hp => absurd hp List.not_mem_nil⟩
  · rintro s op s' - ⟨hu, hl⟩ ⟨⟨hc, hroom⟩, ⟨hop, hsize⟩, rfl⟩
    rw [hu.size] at hsize
    cases op with
    | alignedAlloc size align =>
      exact ⟨hu.request hSS (hu.size.symm ▸ hsize) hop.2 hc, hl.request hu hS hsize hop.2 hroom⟩
    | alloc size =>
      exact ⟨hu.request hSS (hu.size.symm ▸ hsize) (defaultAlign_lt size) hc,
        hl.request hu hS hsize (defaultAlign_lt size) hroom⟩
    | free offset => exact ⟨hu.free_any hSS offset, hl.free hu offset⟩

/-- In every calling sequence on a heap of `S` bytes in which the bump path serves no request with
the counter, rounded up, below the end of an earlier allocation or with a full table, every live
allocation is recorded by exactly one used entry, and freeing it frees that entry. -/
theorem recorded_of_roomy (S : ℕ) (hS : S < 2 ^ 63) (u : Usage)
    (h : (roomySequences S).Reachable u) : Recorded u :=
  have hinv := listed_of_reachable hS h
  hinv.1.recorded hS hinv.2

/-- Two blocks, a free at an offset that is no block, a request that rounding takes past the second
block, and a block split for a smaller one. -/
theorem recorded_after_reuse :
    Recorded (sizedCalls.exec (Usage.fresh 4096)
      [.alloc 64, .alloc 64, .free 8, .free 0, .alignedAlloc 256 128, .alloc 32]) :=
  recorded_of_roomy 4096 (by decide) _
    (Machine.reachable_restrict_exec _ (.init rfl) (by decide +kernel))

/-! ### A full table -/

/-- The heap after `n` requests of eight bytes. -/
def filled (S n : ℕ) : Heap where
  size := S
  allocated := 8 * n
  allocs := (List.range n).map fun i => ⟨8 * i, 8, true⟩

/-- A heap with used blocks only serves eight bytes from its counter. -/
theorem memheapAlloc_filled {S n : ℕ} (hS : 8 * (n + 1) ≤ S) (hlt : S < 2 ^ 63) :
    memheapAlloc (filled S n) 8 =
      ({ filled S n with
          allocs := pushAlloc (filled S n).allocs ⟨8 * n, 8, true⟩
          allocated := 8 * (n + 1) }, 8 * n) := by
  -- The counter already has the default alignment of an eight-byte request.
  have halign : alignUp (8 * n) (defaultAlign 8) = 8 * n := by
    rw [show defaultAlign 8 = 2 ^ 3 by decide, alignUp_two_pow, if_pos (by omega)]
  -- Every block is in use, so that nothing can be reused.
  have hnone : (filled S n).allocs.find? (fits 8 (defaultAlign 8)) = none := by
    refine List.find?_eq_none.mpr fun a ha => ?_
    obtain ⟨i, -, rfl⟩ := List.mem_map.mp ha
    simp [fits]
  have hsum : addSize (alignUp (filled S n).allocated (defaultAlign 8)) 8 = 8 * (n + 1) := by
    show addSize (alignUp (8 * n) (defaultAlign 8)) 8 = 8 * (n + 1)
    rw [halign, addSize_of_lt (by omega)]
    rfl
  have hroom : addSize (alignUp (filled S n).allocated (defaultAlign 8)) 8 ≤ (filled S n).size :=
    hsum.trans_le hS
  unfold memheapAlloc
  rw [memheapAlignedAlloc_eq_bump (by decide) hnone, bump_eq hroom, hsum]
  show _ = (_, 8 * n)
  rw [← halign]
  rfl

/-- As long as the table has room, the next request of eight bytes fills one more entry. -/
theorem memheapAlloc_filled_succ {S n : ℕ} (hS : 8 * (n + 1) ≤ S) (hlt : S < 2 ^ 63)
    (hn : n < maxAllocations) : memheapAlloc (filled S n) 8 = (filled S (n + 1), 8 * n) := by
  rw [memheapAlloc_filled hS hlt]
  have hlen : (filled S n).allocs.length < maxAllocations := by simpa [filled] using hn
  have hpush : pushAlloc (filled S n).allocs ⟨8 * n, 8, true⟩ = (filled S (n + 1)).allocs := by
    rw [pushAlloc, if_pos hlen]
    simp [filled, List.range_succ]
  rw [hpush]
  rfl

/-- The table can be filled. -/
theorem reachable_filled {S n : ℕ} (hS : 8 * n ≤ S) (hlt : S < 2 ^ 63) (hn : n ≤ maxAllocations) :
    ∃ live top, (sizedSequences S).Reachable ⟨filled S n, live, top⟩ := by
  induction n with
  | zero => exact ⟨[], 0, .init rfl⟩
  | succ n ih =>
    obtain ⟨live, top, hreach⟩ := ih (by omega) (by omega)
    refine ⟨(8 * n, 8) :: live, max top (8 * n + 8), .step hreach (a := .alloc 8) ⟨⟨?_, ?_⟩, ?_⟩⟩
    · show 8 < 2 ^ 64
      omega
    · show 8 ≤ S
      omega
    · show _ = Usage.returned _ 8 (memheapAlloc (filled S n) 8)
      rw [memheapAlloc_filled_succ hS hlt (by omega), Usage.returned, if_neg]
      rw [sizeMax]
      omega

/-- The next request after the table is full succeeds and gets no entry. -/
theorem exists_not_recorded {S n : ℕ} (hS : 8 * (n + 1) ≤ S) (hlt : S < 2 ^ 63)
    (hn : n = maxAllocations) : ∃ u, (sizedSequences S).Reachable u ∧ ¬Recorded u := by
  -- First the table is filled with blocks of eight bytes.
  obtain ⟨live, top, hreach⟩ := reachable_filled (show 8 * n ≤ S by omega) hlt hn.le
  have hstep : (sizedSequences S).step ⟨filled S n, live, top⟩ (.alloc 8)
      (Usage.call ⟨filled S n, live, top⟩ (.alloc 8)) := by
    refine ⟨⟨?_, ?_⟩, rfl⟩
    · show 8 < 2 ^ 64
      omega
    · show 8 ≤ S
      omega
  -- One more request finds no free entry, and is served all the same.
  have hfull : ¬(filled S n).allocs.length < maxAllocations := by simp [filled, hn]
  have hcall : Usage.call ⟨filled S n, live, top⟩ (.alloc 8) =
      ⟨{ filled S n with allocated := 8 * (n + 1) }, (8 * n, 8) :: live, max top (8 * n + 8)⟩ := by
    show Usage.returned _ 8 (memheapAlloc (filled S n) 8) = _
    rw [memheapAlloc_filled hS hlt, pushAlloc, if_neg hfull, Usage.returned, if_neg]
    rw [sizeMax]
    omega
  rw [hcall] at hstep
  -- The block of that request has the offset of no entry.
  refine ⟨_, .step hreach hstep, fun hrec => ?_⟩
  obtain ⟨i, hi, -⟩ := hrec (8 * n, 8) List.mem_cons_self
  obtain ⟨j, hj, heq⟩ := List.mem_map.mp (List.mem_of_getElem? hi)
  rw [List.mem_range] at hj
  have hoff : 8 * j = 8 * n := congrArg Allocation.offset heq
  omega

/-- Without the condition an allocation can be lost: after 1024 requests of eight bytes the next
one returns 8192, and no entry is left to record it. -/
theorem full_table_loses_allocation :
    ¬ ∀ (S : ℕ) (u : Usage), S < 2 ^ 63 → (sizedSequences S).Reachable u → Recorded u := by
  intro h
  obtain ⟨u, hreach, hno⟩ := exists_not_recorded (S := 16384)
    (show 8 * (maxAllocations + 1) ≤ 16384 by decide) (by omega) rfl
  exact hno (h 16384 u (by omega) hreach)

end EpDemo.Memheap
