import EpDemo.Library.Transition
import Mathlib.Algebra.Group.Nat.Defs

/-!
# `EpDemo.Memheap`: the control-buffer heap of `memheap.h`

`memheap` hands out offsets into the control buffer, in which `mlx5gda_create_rc_qp` and
`mlx5gda_create_cq` place the work queues, completion queues and doorbell records.

A request is served from the table when a free block fits (`reuse`, which splits the block)
and from the bump counter `allocated` otherwise (`bump`). `memheapFree` returns a block to
the table and lowers the same counter, which is what the proofs about this heap turn on.

`size_t` values are natural numbers below `2 ^ 64`. The three operations that can wrap are
written out: `addSize`, `subSize`, and the or-plus-one rounding of `alignUp`.
-/

set_option autoImplicit false

namespace EpDemo.Memheap

open EpDemo.Library

/-- `MEMHEAP_MAX_ALLOCATIONS`: the capacity of the table. -/
def maxAllocations : ℕ := 1024

/-- `(size_t)-1`, the result of a failed request. -/
def sizeMax : ℕ := 2 ^ 64 - 1

/-- `a + b` in `size_t`. -/
def addSize (a b : ℕ) : ℕ := (a + b) % 2 ^ 64

/-- `a - b` in `size_t`. -/
def subSize (a b : ℕ) : ℕ := (a + 2 ^ 64 - b) % 2 ^ 64

/-- `struct memheap_allocation`: one table entry. -/
structure Allocation where
  offset : ℕ
  size : ℕ
  used : Bool
  deriving DecidableEq, Repr

/-- `struct memheap`. The list holds the first `alloc_count` entries of the table. -/
structure Heap where
  size : ℕ
  allocated : ℕ
  allocs : List Allocation
  deriving DecidableEq, Repr

/-- `memheap_create`. -/
def memheapCreate (size : ℕ) : Heap := { size := size, allocated := 0, allocs := [] }

/-- Round an offset up to an alignment, the way both paths of `memheap_aligned_alloc` do. -/
def alignUp (offset align : ℕ) : ℕ :=
  if offset &&& (align - 1) ≠ 0 then addSize (offset ||| (align - 1)) 1 else offset

/-- Append a table entry when the table has room. -/
def pushAlloc (allocs : List Allocation) (a : Allocation) : List Allocation :=
  if allocs.length < maxAllocations then allocs ++ [a] else allocs

/-- The test of the reuse loop: the entry is free and the request fits into it. -/
def fits (size align : ℕ) (a : Allocation) : Bool :=
  !a.used && decide (addSize (alignUp a.offset align) size ≤ addSize a.offset a.size)

/-- Serve a request from entry `i`, the free block `a`: keep what is left before and after
the aligned range as free entries and turn the entry itself into the allocation. -/
def reuse (h : Heap) (i : ℕ) (a : Allocation) (size align : ℕ) : Heap × ℕ :=
  let alignedOffset := alignUp a.offset align
  let blockEnd := addSize a.offset a.size
  let allocs :=
    if alignedOffset > a.offset then
      pushAlloc h.allocs ⟨a.offset, subSize alignedOffset a.offset, false⟩
    else h.allocs
  let allocs :=
    if addSize alignedOffset size < blockEnd then
      pushAlloc allocs
        ⟨addSize alignedOffset size, subSize blockEnd (addSize alignedOffset size), false⟩
    else allocs
  ({ h with
      allocs := allocs.set i ⟨alignedOffset, size, true⟩
      allocated := addSize h.allocated size }, alignedOffset)

/-- Serve a request from the bump counter. -/
def bump (h : Heap) (size align : ℕ) : Heap × ℕ :=
  let offset := alignUp h.allocated align
  if addSize offset size ≤ h.size then
    ({ h with
        allocs := pushAlloc h.allocs ⟨offset, size, true⟩
        allocated := addSize offset size }, offset)
  else (h, sizeMax)

/-- `memheap_aligned_alloc`. The loop stops at the first entry that fits. -/
def memheapAlignedAlloc (h : Heap) (size align : ℕ) : Heap × ℕ :=
  if size = 0 then (h, sizeMax)
  else if align = 0 ∨ align &&& (align - 1) ≠ 0 then (h, sizeMax)
  else
    let (h, ret) :=
      match h.allocs.findIdx? (fits size align) with
      | some i =>
        match h.allocs[i]? with
        | some a => reuse h i a size align
        | none => (h, sizeMax)
      | none => (h, sizeMax)
    if ret = sizeMax then bump h size align else (h, ret)

/-- The alignment `memheap_alloc` derives from a size: its lowest set bit, at most
`alignof(max_align_t)` and at least 8. -/
def defaultAlign (size : ℕ) : ℕ :=
  let align := size &&& subSize 0 size
  let align := if align > 16 then 16 else align
  if align < 8 then 8 else align

/-- `memheap_alloc`. -/
def memheapAlloc (h : Heap) (size : ℕ) : Heap × ℕ := memheapAlignedAlloc h size (defaultAlign size)

/-- `memheap_free`: the first used entry at the offset becomes a free block. -/
def memheapFree (h : Heap) (offset : ℕ) : Heap :=
  if offset = sizeMax then h
  else
    match h.allocs.findIdx? (fun a => a.used && a.offset == offset) with
    | some i =>
      match h.allocs[i]? with
      | some a =>
        { h with
            allocs := h.allocs.set i { a with used := false }
            allocated := subSize h.allocated a.size }
      | none => h
    | none => h

/-! ### Calling sequences -/

/-- One call on the heap. -/
inductive Op
  | alignedAlloc (size align : ℕ)
  | alloc (size : ℕ)
  | free (offset : ℕ)
  deriving DecidableEq, Repr

/-- A heap in use: the heap, the live allocations (returned and not yet freed) as pairs of
offset and size, and the highest end of all allocations returned so far. -/
structure Usage where
  heap : Heap
  live : List (ℕ × ℕ)
  top : ℕ
  deriving DecidableEq, Repr

/-- The usage after a request of `size` bytes that left the heap `r.1` and returned `r.2`. -/
def Usage.returned (u : Usage) (size : ℕ) (r : Heap × ℕ) : Usage :=
  if r.2 = sizeMax then { u with heap := r.1 }
  else { heap := r.1, live := (r.2, size) :: u.live, top := max u.top (r.2 + size) }

/-- The callers' side of a call: a request is at most the heap's size, the alignment is a
`size_t`, and only the offset of a live allocation is freed. -/
def Op.Legal (u : Usage) : Op → Prop
  | .alignedAlloc size align => size ≤ u.heap.size ∧ align < 2 ^ 64
  | .alloc size => size ≤ u.heap.size
  | .free offset => ∃ p ∈ u.live, p.1 = offset

instance : (u : Usage) → (op : Op) → Decidable (op.Legal u)
  | u, .alignedAlloc size align =>
    inferInstanceAs (Decidable (size ≤ u.heap.size ∧ align < 2 ^ 64))
  | u, .alloc size => inferInstanceAs (Decidable (size ≤ u.heap.size))
  | u, .free offset => inferInstanceAs (Decidable (∃ p ∈ u.live, p.1 = offset))

/-- The usage after a call. -/
def Usage.call (u : Usage) : Op → Usage
  | .alignedAlloc size align => u.returned size (memheapAlignedAlloc u.heap size align)
  | .alloc size => u.returned size (memheapAlloc u.heap size)
  | .free offset =>
    { u with
        heap := memheapFree u.heap offset
        live := u.live.eraseP (fun p => p.1 == offset) }

/-- A heap that was just created. -/
def Usage.fresh (size : ℕ) : Usage := { heap := memheapCreate size, live := [], top := 0 }

/-- Legal calls on a heap. -/
def calls : Machine Usage Op where
  enabled u op := op.Legal u
  decEnabled _ _ := inferInstance
  fire u op := u.call op

/-- All calling sequences on a heap from `memheapCreate size`. -/
def sequences (size : ℕ) : TransitionSystem Usage Op := calls.system (· = Usage.fresh size)

/-! ### Calls with arbitrary arguments -/

/-- The arguments of a call are `size_t` values. Nothing is asked of an offset that is freed. -/
def Op.SizeT : Op → Prop
  | .alignedAlloc size align => size < 2 ^ 64 ∧ align < 2 ^ 64
  | .alloc size => size < 2 ^ 64
  | .free offset => offset < 2 ^ 64

instance : (op : Op) → Decidable op.SizeT
  | .alignedAlloc size align => inferInstanceAs (Decidable (size < 2 ^ 64 ∧ align < 2 ^ 64))
  | .alloc size => inferInstanceAs (Decidable (size < 2 ^ 64))
  | .free offset => inferInstanceAs (Decidable (offset < 2 ^ 64))

/-- The bytes that a call asks for. -/
def Op.size : Op → ℕ
  | .alignedAlloc size _ => size
  | .alloc size => size
  | .free _ => 0

/-- A condition on the request that a call makes, given the size and the alignment. A call of
`memheap_free` makes none. -/
def OnRequest (C : Heap → ℕ → ℕ → Prop) (u : Usage) : Op → Prop
  | .alignedAlloc size align => C u.heap size align
  | .alloc size => C u.heap size (defaultAlign size)
  | .free _ => True

instance (C : Heap → ℕ → ℕ → Prop) [∀ h s a, Decidable (C h s a)] :
    (u : Usage) → (op : Op) → Decidable (OnRequest C u op)
  | u, .alignedAlloc size align => inferInstanceAs (Decidable (C u.heap size align))
  | u, .alloc size => inferInstanceAs (Decidable (C u.heap size (defaultAlign size)))
  | _, .free _ => inferInstanceAs (Decidable True)

/-- Calls on a heap, without the callers' discipline of `calls`. -/
def anyCalls : Machine Usage Op where
  enabled _ op := op.SizeT
  decEnabled _ _ := inferInstance
  fire u op := u.call op

/-- All sequences of calls on a heap from `memheapCreate size`. -/
def anySequences (size : ℕ) : TransitionSystem Usage Op := anyCalls.system (· = Usage.fresh size)

/-- Calls that ask for no more than the heap has. -/
def sizedCalls : Machine Usage Op where
  enabled u op := op.SizeT ∧ op.size ≤ u.heap.size
  decEnabled _ _ := inferInstance
  fire u op := u.call op

/-- All sequences of such calls on a heap from `memheapCreate size`. -/
def sizedSequences (size : ℕ) : TransitionSystem Usage Op :=
  sizedCalls.system (· = Usage.fresh size)

end EpDemo.Memheap
