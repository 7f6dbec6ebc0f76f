import EpDemo.Proofs.Memheap.Bounds
import EpDemo.Proofs.Memheap.Disjoint

/-!
# `EpDemo.Proofs.Memheap.Counter`: what the counter of the heap covers

`memheap_free` subtracts the size of the freed block from `allocated`. The subtraction is exact
when the counter is at least the bytes of all used blocks. Every path of the heap keeps this
inequality as long as the counter itself does not wrap, and that is the one thing the code does
not see to: the bump path compares the new counter with the size of the heap, the reuse path adds
to it without a test. Blocks that overlap let the reused bytes exceed any bound
(`counter_wraps`).

`CounterFits` is the condition that the counter does not wrap in a call. It holds of every call
when the heap is small enough for its table (`allocated_covers_small`): the counter never exceeds
the used bytes by more than the size of the heap, and the table has 1024 entries.
-/

set_option autoImplicit false

namespace EpDemo.Memheap

open EpDemo.Library

/-- A request does not take the counter past `2 ^ 64`: the reuse path adds the size to it, the
bump path rounds it up and adds the size. -/
def CounterFits (h : Heap) (size align : ℕ) : Prop :=
  Accepted size align →
    match h.allocs.find? (fits size align) with
    | some _ => h.allocated + size < 2 ^ 64
    | none =>
      addSize (alignUp h.allocated align) size ≤ h.size →
        h.allocated ≤ alignUp h.allocated align ∧ alignUp h.allocated align + size < 2 ^ 64

instance (h : Heap) (size align : ℕ) : Decidable (CounterFits h size align) :=
  match hfit : h.allocs.find? (fits size align) with
  | some _ =>
    decidable_of_iff (Accepted size align → h.allocated + size < 2 ^ 64)
      (by simp only [CounterFits, hfit])
  | none =>
    decidable_of_iff (Accepted size align → addSize (alignUp h.allocated align) size ≤ h.size →
        h.allocated ≤ alignUp h.allocated align ∧ alignUp h.allocated align + size < 2 ^ 64)
      (by simp only [CounterFits, hfit])

/-- The used blocks of a table inside the heap. -/
theorem usedBytes_le {S : ℕ} {h : Heap} (hh : InHeap S h) :
    usedBytes h.allocs ≤ h.allocs.length * S := by
  have hle : ∀ x ∈ h.allocs.map (fun a => if a.used then a.size else 0), x ≤ S := by
    intro x hx
    obtain ⟨a, ha, rfl⟩ := List.mem_map.mp hx
    have hend := (hh.block a ha).2
    split <;> omega
  have hsum := List.sum_le_card_nsmul _ S hle
  rwa [List.length_map, Nat.nsmul_eq_mul] at hsum

/-! ### The capacity of the table -/

/-- An entry is added only while there is room for it. -/
theorem length_pushAlloc_le {allocs : List Allocation} {a : Allocation}
    (h : allocs.length ≤ maxAllocations) : (pushAlloc allocs a).length ≤ maxAllocations := by
  unfold pushAlloc
  split
  · rw [List.length_append, List.length_singleton]
    omega
  · exact h

/-- The reuse of a block adds its fragments only while there is room for them. -/
theorem length_reuse_le {h : Heap} (hlen : h.allocs.length ≤ maxAllocations) (i size align : ℕ)
    (a : Allocation) : (reuse h i a size align).1.allocs.length ≤ maxAllocations := by
  simp only [reuse, List.length_set]
  split <;> split <;> simp only [length_pushAlloc_le, hlen]

/-! ### The invariant -/

/-- The counter covers the used blocks, and exceeds them by at most the size of the heap. -/
structure Counted (S : ℕ) (h : Heap) : Prop where
  inHeap : InHeap S h
  length_le : h.allocs.length ≤ maxAllocations
  covered : usedBytes h.allocs ≤ h.allocated
  slack : h.allocated ≤ usedBytes h.allocs + S
  allocated_lt : h.allocated < 2 ^ 64

namespace Counted

variable {S : ℕ} {h : Heap}

/-- A new heap counts nothing, and uses nothing. -/
theorem create (S : ℕ) : Counted S (memheapCreate S) where
  inHeap := InHeap.create S
  length_le := Nat.zero_le _
  covered := by simp [memheapCreate, usedBytes]
  slack := by simp [memheapCreate]
  allocated_lt := by simp [memheapCreate]

/-- The reuse path: the counter and the used bytes grow by the size. -/
theorem reuse (hh : Counted S h) (hS : S < 2 ^ 63) {i size k : ℕ} {a : Allocation} (hk : k ≤ 63)
    (hi : h.allocs[i]? = some a) (hfits : fits size (2 ^ k) a = true) (hpos : 0 < size)
    (hsize : size ≤ S) (hc : h.allocated + size < 2 ^ 64) :
    Counted S (reuse h i a size (2 ^ k)).1 := by
  obtain ⟨hapos, haend⟩ := hh.inHeap.block a (List.mem_of_getElem? hi)
  have hlo := le_alignUp (show a.offset < 2 ^ 63 by omega) hk
  have hle := alignUp_le (show a.offset < 2 ^ 63 by omega) hk
  have hin := (hh.inHeap.reuse (by omega) hi hfits hpos (by omega)).2
  have hfree : a.used = false := by simpa using (Bool.and_eq_true_iff.mp hfits).1
  obtain ⟨extra, rest, hextra, hperm, hnew⟩ :=
    reuse_perm hi hlo (show alignUp a.offset (2 ^ k) + size < 2 ^ 64 by omega) (by omega)
  -- The fragments of the block are free, so only the allocation itself is counted.
  have hnone : usedBytes extra = 0 :=
    usedBytes_fragments fun f hf => used_of_mem_fragments (hextra.subset hf)
  have hbefore : usedBytes h.allocs = usedBytes rest := by
    simp [usedBytes_perm hperm, hfree]
  have hafter : usedBytes (Memheap.reuse h i a size (2 ^ k)).1.allocs = size + usedBytes rest := by
    simp [usedBytes_perm hnew, hnone]
  have hcount : (Memheap.reuse h i a size (2 ^ k)).1.allocated = h.allocated + size :=
    addSize_of_lt hc
  have hcov := hh.covered
  have hslack := hh.slack
  exact ⟨hin, length_reuse_le hh.length_le i size (2 ^ k) a, by omega, by omega, by omega⟩

/-- The bump path: the counter moves to the end of the block, the used bytes grow by at most the
size. -/
theorem bump (hh : Counted S h) {size align : ℕ} (hpos : 0 < size)
    (hc : addSize (alignUp h.allocated align) size ≤ h.size →
      h.allocated ≤ alignUp h.allocated align ∧ alignUp h.allocated align + size < 2 ^ 64) :
    Counted S (bump h size align).1 := by
  have hin : InHeap S (Memheap.bump h size align).1 :=
    hh.inHeap.bump hpos fun hroom => (hc hroom).2
  unfold Memheap.bump at hin ⊢
  simp only at hin ⊢
  split
  · rename_i hroom
    rw [if_pos hroom] at hin
    obtain ⟨hle, hlt⟩ := hc hroom
    have hend : alignUp h.allocated align + size ≤ S := by
      rwa [addSize_of_lt hlt, hh.inHeap.size] at hroom
    -- The table may be full, and then the block is handed out without a record.
    obtain ⟨extra, hextra, hpush⟩ :=
      pushAlloc_eq_append h.allocs ⟨alignUp h.allocated align, size, true⟩
    have hone : usedBytes extra ≤ size := by
      simpa [usedBytes] using usedBytes_sublist hextra
    have hcov := hh.covered
    refine ⟨hin, length_pushAlloc_le hh.length_le, ?_, ?_, ?_⟩
    -- A recorded block accounts for at most the bytes that the counter grows by.
    all_goals simp only [hpush, usedBytes_append, addSize_of_lt hlt]
    · omega
    · omega
    · exact hlt
  · exact hh

/-- A request keeps the counter over the used blocks. -/
theorem request (hh : Counted S h) (hS : S < 2 ^ 63) {size align : ℕ} (halign : align < 2 ^ 64)
    (hsize : size ≤ S) (hc : CounterFits h size align) :
    Counted S (memheapAlignedAlloc h size align).1 := by
  by_cases hacc : Accepted size align
  · have hpos : 0 < size := Nat.pos_of_ne_zero hacc.1
    have hfit := hc hacc
    obtain ⟨k, rfl, hk⟩ := two_pow_le_of_lt (isPowerOfTwo_of_accepted hacc.2) halign
    rcases memheapAlignedAlloc_outcome hacc (hh.inHeap.alignUp_ne (by omega) hk) with
      ⟨i, a, hi, hfind, heq⟩ | ⟨hfind, heq⟩
    · rw [hfind] at hfit
      rw [heq]
      exact hh.reuse hS hk hi (List.find?_some hfind) hpos hsize hfit
    · rw [hfind] at hfit
      rw [heq]
      exact hh.bump hpos hfit
  · rw [memheapAlignedAlloc_refused hacc]
    exact hh

/-- A free keeps the counter over the used blocks, whatever the offset, and does not wrap. -/
theorem free (hh : Counted S h) (offset : ℕ) :
    Counted S (memheapFree h offset) ∧ (memheapFree h offset).allocated ≤ h.allocated := by
  have hin := hh.inHeap.free offset
  rcases memheapFree_cases h offset with
    ⟨hsame, -⟩ | ⟨a, rest, hused, -, hperm, hnew, hcount, -⟩
  · rw [hsame]
    exact ⟨hh, le_rfl⟩
  · have hlt := hh.allocated_lt
    have hcov := hh.covered
    have hslack := hh.slack
    have hbefore : usedBytes h.allocs = a.size + usedBytes rest := by
      simp [usedBytes_perm hperm, hused]
    have hafter : usedBytes (memheapFree h offset).allocs = usedBytes rest := by
      simp [usedBytes_perm hnew]
    rw [subSize_of_le (by omega) hlt] at hcount
    have hlen : (memheapFree h offset).allocs.length ≤ maxAllocations := by
      rw [hnew.length_eq, List.length_cons, ← List.length_cons (a := a), ← hperm.length_eq]
      exact hh.length_le
    exact ⟨⟨hin, hlen, by omega, by omega, by omega⟩, by omega⟩

/-- Every call whose request meets the condition keeps the counter over the used blocks. -/
theorem call {u : Usage} (hh : Counted S u.heap) (hS : S < 2 ^ 63) {op : Op} (hop : op.SizeT)
    (hsize : op.size ≤ S) (hc : OnRequest CounterFits u op) : Counted S (u.call op).heap := by
  have hreturned : ∀ size (r : Heap × ℕ), Counted S r.1 → Counted S (u.returned size r).heap := by
    intro size r hr
    unfold Usage.returned
    split <;> exact hr
  cases op with
  | alignedAlloc size align => exact hreturned _ _ (hh.request hS hop.2 hsize hc)
  | alloc size => exact hreturned _ _ (hh.request hS (defaultAlign_lt size) hsize hc)
  | free offset => exact (hh.free offset).1

end Counted

/-! ### Runs -/

/-- The calling sequences in which the counter does not wrap. -/
def countedSequences (S : ℕ) : TransitionSystem Usage Op :=
  (sizedSequences S).restrict (OnRequest CounterFits)

/-- The invariant holds in every run in which the counter does not wrap. -/
theorem counted_of_reachable {S : ℕ} (hS : S < 2 ^ 63) {u : Usage}
    (h : (countedSequences S).Reachable u) : Counted S u.heap := by
  refine TransitionSystem.Reachable.invariant (I := fun u => Counted S u.heap) ?_ ?_ h
  · rintro s rfl
    exact Counted.create S
  · rintro s op s' - hs ⟨hc, ⟨hop, hsize⟩, rfl⟩
    exact hs.call hS hop (hs.inHeap.size ▸ hsize) hc

/-- The counter is at least the bytes of all used blocks, and no free wraps it. -/
def CounterCovers (h : Heap) : Prop :=
  usedBytes h.allocs ≤ h.allocated ∧ ∀ offset, (memheapFree h offset).allocated ≤ h.allocated

/-- The invariant says that the counter covers the used blocks. -/
theorem Counted.covers {S : ℕ} {h : Heap} (hh : Counted S h) : CounterCovers h :=
  ⟨hh.covered, fun offset => (hh.free offset).2⟩

/-- In every calling sequence in which the counter does not wrap, it covers the used blocks of
every state, whatever offsets are freed. -/
theorem allocated_covers (S : ℕ) (hS : S < 2 ^ 63) (u : Usage)
    (h : (countedSequences S).Reachable u) : CounterCovers u.heap :=
  (counted_of_reachable hS h).covers

/-- Two blocks, a free at an offset that is no block, and a block taken from a freed one. -/
theorem allocated_covers_after_reuse :
    CounterCovers (sizedCalls.exec (Usage.fresh 4096)
      [.alloc 64, .alloc 64, .free 8, .free 0, .alloc 32]).heap :=
  allocated_covers 4096 (by decide) _
    (Machine.reachable_restrict_exec _ (.init rfl) (by decide +kernel))

/-- A counter far from the end of the address space does not wrap. -/
theorem counterFits_of_le {S : ℕ} {h : Heap} (hcount : h.allocated ≤ 1025 * S)
    (hS : 1025 * S < 2 ^ 63) {size align : ℕ} (hsize : size ≤ S) (halign : align < 2 ^ 64) :
    CounterFits h size align := by
  intro hacc
  obtain ⟨k, rfl, hk⟩ := two_pow_le_of_lt (isPowerOfTwo_of_accepted hacc.2) halign
  have hlo := le_alignUp (show h.allocated < 2 ^ 63 by omega) hk
  have hle := alignUp_le (show h.allocated < 2 ^ 63 by omega) hk
  split
  · omega
  · exact fun _ => ⟨hlo, by omega⟩

/-- A heap that is small for its table never wraps the counter, so on such a heap, of which the
control buffer of 1 GiB is one, the counter covers the used blocks of every state. -/
theorem allocated_covers_small (S : ℕ) (hS : 1025 * S < 2 ^ 63) (u : Usage)
    (h : (sizedSequences S).Reachable u) : CounterCovers u.heap := by
  refine (counted_of_reachable (by omega) (S := S) (u := u) ?_).covers
  have hinv : ∀ v, (countedSequences S).Reachable v → ∀ op, op.SizeT → op.size ≤ v.heap.size →
      OnRequest CounterFits v op := by
    intro v hv op hop hsize
    have hh := counted_of_reachable (by omega) hv
    have hbound : v.heap.allocated ≤ 1025 * S := by
      have hused := usedBytes_le hh.inHeap
      have hmul := Nat.mul_le_mul_right S hh.length_le
      have hslack := hh.slack
      rw [maxAllocations] at hmul
      omega
    rw [hh.inHeap.size] at hsize
    cases op with
    | alignedAlloc size align => exact counterFits_of_le hbound hS hsize hop.2
    | alloc size => exact counterFits_of_le hbound hS hsize (defaultAlign_lt size)
    | free offset => trivial
  induction h with
  | init h0 => exact .init h0
  | step _ hstep ih => exact .step ih ⟨hinv _ ih _ hstep.1.1 hstep.1.2, hstep⟩

/-- Without the condition the counter can fall below the used blocks. On a heap of `2 ^ 62` bytes,
eight blocks that are allocated and freed in turn, each larger than the ones before it, all start
at zero. Eight requests for `2 ^ 61` bytes are then served from these blocks, and the last one
takes the counter from `7 * 2 ^ 61` to zero. -/
theorem counter_wraps :
    ¬ ∀ (S : ℕ) (u : Usage), S < 2 ^ 63 → (sizedSequences S).Reachable u →
      CounterCovers u.heap := by
  intro h
  have hreach : (sizedSequences (2 ^ 62)).Reachable
      (sizedCalls.exec (Usage.fresh (2 ^ 62)) ((List.range 8).flatMap
        (fun i => [.alloc (2 ^ 61 + 8 * i), .free 0]) ++ List.replicate 8 (.alloc (2 ^ 61)))) :=
    Machine.reachable_exec _ (.init rfl) (by decide +kernel)
  exact absurd (h (2 ^ 62) _ (by decide) hreach).1 (by decide +kernel)

end EpDemo.Memheap
