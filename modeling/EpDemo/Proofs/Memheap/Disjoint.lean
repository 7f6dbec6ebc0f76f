import EpDemo.Proofs.Memheap.Table

/-!
# `EpDemo.Proofs.Memheap.Disjoint`: live allocations and the bump counter

Two live allocations of the heap can overlap. `memheap_free` lowers `allocated`, and the
bump path starts the next block at `allocated`, below the end of blocks that are still live
(`sequences_overlap`).

The overlap needs a request that the bump path serves while the counter, rounded up to the
alignment, is below the end of an allocation returned earlier. `CounterAtTop` excludes these calls
and no refused one, and under it the live allocations of every run are disjoint
(`live_disjoint_of_counterAtTop`). The invariant is `Orderly`: the table's blocks are disjoint, a
used block is a live allocation, a free block touches no live allocation, and the counter and the
free bytes together stay below twice the size of the heap. (A gap that rounding leaves stays counted
while the blocks below it are freed and taken again, so the counter alone can pass the end of the
heap.)
-/

set_option autoImplicit false

namespace EpDemo.Memheap

open EpDemo.Library

/-! ### Byte ranges -/

/-- Two byte ranges, given as offset and size, share no byte. -/
def Apart (p q : ℕ × ℕ) : Prop := p.1 + p.2 ≤ q.1 ∨ q.1 + q.2 ≤ p.1

instance (p q : ℕ × ℕ) : Decidable (Apart p q) := inferInstanceAs (Decidable (_ ∨ _))

/-- The first range lies inside the second. -/
def Within (p q : ℕ × ℕ) : Prop := q.1 ≤ p.1 ∧ p.1 + p.2 ≤ q.1 + q.2

/-- The byte range of a table entry. -/
def Allocation.range (a : Allocation) : ℕ × ℕ := (a.offset, a.size)

/-- Two ranges that are apart, in the other order. -/
theorem Apart.symm {p q : ℕ × ℕ} (h : Apart p q) : Apart q p := Or.symm h

/-- A part of a range is apart from what the range is apart from. -/
theorem Apart.within {p p' q : ℕ × ℕ} (h : Apart p q) (hp : Within p' p) : Apart p' q := by
  obtain ⟨hlo, hhi⟩ := hp
  rcases h with h | h
  · exact Or.inl (hhi.trans h)
  · exact Or.inr (h.trans hlo)

/-- Ranges with bytes in them that start at the same offset are not apart. -/
theorem Apart.ne {p q : ℕ × ℕ} (h : Apart p q) (hp : 0 < p.2) (hq : 0 < q.2) : p.1 ≠ q.1 := by
  rcases h with h | h <;> omega

/-- The live allocations of a usage are pairwise disjoint. -/
def Usage.Disjoint (u : Usage) : Prop := u.live.Pairwise Apart

instance (u : Usage) : Decidable u.Disjoint := inferInstanceAs (Decidable (List.Pairwise _ _))

/-! ### Bytes of a table -/

/-- The bytes of the free blocks of a table. -/
def freeBytes (allocs : List Allocation) : ℕ :=
  (allocs.map fun a => if a.used then 0 else a.size).sum

/-- The bytes of the used blocks of a table. -/
def usedBytes (allocs : List Allocation) : ℕ :=
  (allocs.map fun a => if a.used then a.size else 0).sum

/-- An entry adds its size to the free bytes, if it is free. -/
@[simp] theorem freeBytes_cons (a : Allocation) (l : List Allocation) :
    freeBytes (a :: l) = (if a.used then 0 else a.size) + freeBytes l := by
  simp [freeBytes]

/-- An entry adds its size to the used bytes, if it is used. -/
@[simp] theorem usedBytes_cons (a : Allocation) (l : List Allocation) :
    usedBytes (a :: l) = (if a.used then a.size else 0) + usedBytes l := by
  simp [usedBytes]

/-- The free bytes of two tables. -/
@[simp] theorem freeBytes_append (l l' : List Allocation) :
    freeBytes (l ++ l') = freeBytes l + freeBytes l' := by
  simp [freeBytes]

/-- The used bytes of two tables. -/
@[simp] theorem usedBytes_append (l l' : List Allocation) :
    usedBytes (l ++ l') = usedBytes l + usedBytes l' := by
  simp [usedBytes]

/-- The order of the entries does not matter for the free bytes. -/
theorem freeBytes_perm {l l' : List Allocation} (h : l.Perm l') : freeBytes l = freeBytes l' :=
  (h.map _).sum_eq

/-- The order of the entries does not matter for the used bytes. -/
theorem usedBytes_perm {l l' : List Allocation} (h : l.Perm l') : usedBytes l = usedBytes l' :=
  (h.map _).sum_eq

/-- With fewer entries there are no more free bytes. -/
theorem freeBytes_sublist {l l' : List Allocation} (h : l.Sublist l') :
    freeBytes l ≤ freeBytes l' :=
  (h.map _).sum_le_sum fun _ _ => Nat.zero_le _

/-- With fewer entries there are no more used bytes. -/
theorem usedBytes_sublist {l l' : List Allocation} (h : l.Sublist l') :
    usedBytes l ≤ usedBytes l' :=
  (h.map _).sum_le_sum fun _ _ => Nat.zero_le _

/-- A used block is counted in the used bytes of its table. -/
theorem size_le_usedBytes {l : List Allocation} {a : Allocation} (ha : a ∈ l)
    (hused : a.used = true) : a.size ≤ usedBytes l := by
  have h := usedBytes_sublist (List.singleton_sublist.mpr ha)
  simpa [usedBytes, hused] using h

/-- A free block is counted in the free bytes. -/
theorem size_le_freeBytes {l : List Allocation} {a : Allocation} (ha : a ∈ l)
    (hfree : a.used = false) : a.size ≤ freeBytes l := by
  have h := freeBytes_sublist (List.singleton_sublist.mpr ha)
  simpa [freeBytes, hfree] using h

/-! ### What is left of a split block -/

section Fragments

variable {a : Allocation} {o size : ℕ}

/-- A fragment is a free block inside the split block and beside the range taken from it. -/
theorem of_mem_fragments (hlo : a.offset ≤ o) (hhi : o + size ≤ a.offset + a.size)
    {f : Allocation} (hf : f ∈ fragments a o size) :
    f.used = false ∧ 0 < f.size ∧ Within f.range a.range ∧ Apart f.range (o, size) := by
  unfold fragments at hf
  rcases List.mem_append.mp hf with hf | hf
  · split at hf
    · obtain rfl := List.mem_singleton.mp hf
      refine ⟨rfl, by simp only; omega, ⟨?_, ?_⟩, Or.inl ?_⟩ <;>
        simp only [Allocation.range] <;> omega
    · simp at hf
  · split at hf
    · obtain rfl := List.mem_singleton.mp hf
      refine ⟨rfl, by simp only; omega, ⟨?_, ?_⟩, Or.inr ?_⟩ <;>
        simp only [Allocation.range] <;> omega
    · simp at hf

/-- The two fragments of a block are apart: the range that was taken lies between them. -/
theorem fragments_pairwise :
    (fragments a o size).Pairwise (fun f g => Apart f.range g.range) := by
  unfold fragments
  split <;> split <;> simp [Apart, Allocation.range]
  -- Both fragments exist: the first one ends where the range taken from the block starts.
  omega

/-- The fragments and the range taken from the block fill at most the block. -/
theorem freeBytes_fragments (hlo : a.offset ≤ o) (hhi : o + size ≤ a.offset + a.size) :
    freeBytes (fragments a o size) + size ≤ a.size := by
  unfold fragments
  split <;> split <;> simp [freeBytes] <;> omega

/-- Free entries use nothing. -/
theorem usedBytes_fragments {l : List Allocation} (hl : ∀ f ∈ l, f.used = false) :
    usedBytes l = 0 := by
  simp only [usedBytes, List.sum_eq_zero_iff, List.mem_map]
  rintro x ⟨f, hf, rfl⟩
  simp [hl f hf]

end Fragments

/-! ### The invariant -/

/-- What holds of a heap of `S` bytes in use as long as the bump path serves no request below the
end of an earlier allocation. -/
structure Orderly (S : ℕ) (u : Usage) : Prop where
  size : u.heap.size = S
  top_le : u.top ≤ S
  block : ∀ a ∈ u.heap.allocs, 0 < a.size ∧ a.offset + a.size ≤ u.top
  apart : u.heap.allocs.Pairwise (fun a b => Apart a.range b.range)
  owned : ∀ a ∈ u.heap.allocs, a.used = true → a.range ∈ u.live
  free : ∀ a ∈ u.heap.allocs, a.used = false → ∀ p ∈ u.live, Apart a.range p
  live : ∀ p ∈ u.live, 0 < p.2 ∧ p.1 + p.2 ≤ u.top
  disjoint : u.Disjoint
  counter : u.heap.allocated + freeBytes u.heap.allocs ≤ u.top + S
  bytes : freeBytes u.heap.allocs + usedBytes u.heap.allocs ≤ u.top
  covered : usedBytes u.heap.allocs ≤ u.heap.allocated

/-- The condition on a call: when a request that passes the argument checks fits no free block and
passes the test of the bump path, the counter, rounded up to the alignment, has not fallen below the
end of an earlier allocation, and the sum in the test does not wrap. -/
def CounterAtTop (u : Usage) : Op → Prop
  | .alignedAlloc size align => AtTop size align
  | .alloc size => AtTop size (defaultAlign size)
  | .free _ => True
where
  /-- The condition for one size and alignment. -/
  AtTop (size align : ℕ) : Prop :=
    Accepted size align → (∀ a ∈ u.heap.allocs, fits size align a = false) →
      addSize (alignUp u.heap.allocated align) size ≤ u.heap.size →
        u.top ≤ alignUp u.heap.allocated align ∧ alignUp u.heap.allocated align + size < 2 ^ 64

instance (u : Usage) (size align : ℕ) : Decidable (CounterAtTop.AtTop u size align) :=
  inferInstanceAs (Decidable (_ → _ → _ → _))

instance : (u : Usage) → (op : Op) → Decidable (CounterAtTop u op)
  | u, .alignedAlloc size align => inferInstanceAs (Decidable (CounterAtTop.AtTop u size align))
  | u, .alloc size => inferInstanceAs (Decidable (CounterAtTop.AtTop u size (defaultAlign size)))
  | _, .free _ => inferInstanceAs (Decidable True)

/-- The invariant holds of a fresh heap. -/
theorem Orderly.fresh (S : ℕ) : Orderly S (Usage.fresh S) := by
  constructor <;> simp [Usage.fresh, memheapCreate, freeBytes, usedBytes, Usage.Disjoint]

namespace Orderly

variable {S : ℕ} {u : Usage}

/-- The invariant does not depend on the order of the table. -/
theorem of_perm {h : Heap} {l : List Allocation} (hp : h.allocs.Perm l) {live : List (ℕ × ℕ)}
    {top : ℕ} (hu : Orderly S ⟨{ h with allocs := l }, live, top⟩) : Orderly S ⟨h, live, top⟩ where
  size := hu.size
  top_le := hu.top_le
  block a ha := hu.block a (hp.mem_iff.mp ha)
  apart := (hp.pairwise_iff fun h => Apart.symm h).mpr hu.apart
  owned a ha := hu.owned a (hp.mem_iff.mp ha)
  free a ha := hu.free a (hp.mem_iff.mp ha)
  live := hu.live
  disjoint := hu.disjoint
  counter := by
    have := hu.counter
    simpa only [freeBytes_perm hp] using this
  bytes := by
    have := hu.bytes
    simpa only [freeBytes_perm hp, usedBytes_perm hp] using this
  covered := by
    have := hu.covered
    simpa only [usedBytes_perm hp] using this

/-- The same, read the other way. -/
theorem perm {l : List Allocation} (hu : Orderly S u) (hp : u.heap.allocs.Perm l) :
    Orderly S ⟨{ u.heap with allocs := l }, u.live, u.top⟩ :=
  of_perm (h := { u.heap with allocs := l }) hp.symm hu

/-- A request served by splitting the free block `a` at `o`. -/
theorem split {a : Allocation} {rest extra : List Allocation} {alloc S o size : ℕ}
    {live : List (ℕ × ℕ)} {top : ℕ} (hu : Orderly S ⟨⟨S, alloc, a :: rest⟩, live, top⟩)
    (hfree : a.used = false) (hsize : 0 < size) (hlo : a.offset ≤ o)
    (hhi : o + size ≤ a.offset + a.size) (hextra : extra.Sublist (fragments a o size)) :
    Orderly S ⟨⟨S, alloc + size, ⟨o, size, true⟩ :: (extra ++ rest)⟩, (o, size) :: live, top⟩ := by
  have hmem : a ∈ a :: rest := List.mem_cons_self
  have hfrag : ∀ f ∈ extra, _ := fun f hf => of_mem_fragments hlo hhi (hextra.subset hf)
  have hin : Within (o, size) a.range := ⟨hlo, hhi⟩
  have hend : a.offset + a.size ≤ top := (hu.block a hmem).2
  have hrest := List.pairwise_cons.mp hu.apart
  -- Everything new lies inside `a`, so it is apart from whatever `a` was apart from.
  have hinside : ∀ b ∈ (⟨o, size, true⟩ : Allocation) :: extra, Within b.range a.range := by
    intro b hb
    rcases List.mem_cons.mp hb with rfl | hb
    · exact hin
    · exact (hfrag b hb).2.2.1
  constructor
  · rfl
  · exact hu.top_le
  · intro b hb
    simp only [List.mem_cons, List.mem_append] at hb
    rcases hb with rfl | hb | hb
    · exact ⟨hsize, hhi.trans hend⟩
    · exact ⟨(hfrag b hb).2.1, (hfrag b hb).2.2.1.2.trans hend⟩
    · exact hu.block b (List.mem_cons_of_mem _ hb)
  · rw [List.pairwise_cons, List.pairwise_append]
    refine ⟨fun b hb => ?_, fragments_pairwise.sublist hextra, hrest.2, fun f hf b hb => ?_⟩
    · rcases List.mem_append.mp hb with hb | hb
      · exact (hfrag b hb).2.2.2.symm
      · exact (hrest.1 b hb).within hin
    · exact (hrest.1 b hb).within (hinside f (List.mem_cons_of_mem _ hf))
  · intro b hb hused
    simp only [List.mem_cons, List.mem_append] at hb
    rcases hb with rfl | hb | hb
    · exact List.mem_cons_self
    · simp [(hfrag b hb).1] at hused
    · exact List.mem_cons_of_mem _ (hu.owned b (List.mem_cons_of_mem _ hb) hused)
  · intro b hb hbfree p hp
    simp only [List.mem_cons, List.mem_append] at hb
    rcases hb with rfl | hb | hb
    · simp at hbfree
    · rcases List.mem_cons.mp hp with rfl | hp
      · exact (hfrag b hb).2.2.2
      · exact (hu.free a hmem hfree p hp).within (hfrag b hb).2.2.1
    · rcases List.mem_cons.mp hp with rfl | hp
      · exact ((hrest.1 b hb).within hin).symm
      · exact hu.free b (List.mem_cons_of_mem _ hb) hbfree p hp
  · intro p hp
    rcases List.mem_cons.mp hp with rfl | hp
    · exact ⟨hsize, hhi.trans hend⟩
    · exact hu.live p hp
  · exact List.pairwise_cons.mpr
      ⟨fun p hp => (hu.free a hmem hfree p hp).within hin, hu.disjoint⟩
  · have hcount := hu.counter
    have hbytes := freeBytes_fragments hlo hhi
    have hsub := freeBytes_sublist hextra
    simp only [freeBytes_cons, hfree, freeBytes_append, if_true, if_false, Bool.false_eq_true]
      at hcount ⊢
    omega
  · have hbytes := hu.bytes
    have hpieces := freeBytes_fragments hlo hhi
    have hsub := freeBytes_sublist hextra
    have hnone := usedBytes_fragments fun f hf => (hfrag f hf).1
    simp only [freeBytes_cons, usedBytes_cons, hfree, freeBytes_append, usedBytes_append, hnone,
      if_true, if_false, Bool.false_eq_true] at hbytes ⊢
    omega
  · have hcov := hu.covered
    have hnone := usedBytes_fragments fun f hf => (hfrag f hf).1
    simp only [usedBytes_cons, hfree, usedBytes_append, hnone, if_true, if_false,
      Bool.false_eq_true] at hcov ⊢
    omega

/-- A request served above everything allocated so far. -/
theorem above {rest extra : List Allocation} {alloc S o size : ℕ} {live : List (ℕ × ℕ)} {top : ℕ}
    (hu : Orderly S ⟨⟨S, alloc, rest⟩, live, top⟩) (hsize : 0 < size) (htop : top ≤ o)
    (hhi : o + size ≤ S) (hextra : extra.Sublist [⟨o, size, true⟩]) :
    Orderly S ⟨⟨S, o + size, rest ++ extra⟩, (o, size) :: live, max top (o + size)⟩ := by
  have hnew : ∀ b ∈ extra, b = ⟨o, size, true⟩ := fun b hb =>
    List.mem_singleton.mp (hextra.subset hb)
  have hbelow : ∀ b ∈ rest, Apart b.range (o, size) := fun b hb =>
    Or.inl ((hu.block b hb).2.trans htop)
  have hmax : max top (o + size) = o + size := max_eq_right (by omega)
  -- Only used bytes are new, and all bytes of the table lie below `top`.
  have hfreeExtra : freeBytes extra = 0 := by
    simp only [freeBytes, List.sum_eq_zero_iff, List.mem_map]
    rintro x ⟨b, hb, rfl⟩
    simp [hnew b hb]
  have husedExtra : usedBytes extra ≤ size := by
    simpa [usedBytes] using usedBytes_sublist hextra
  have hbytes : freeBytes rest + usedBytes rest ≤ top := hu.bytes
  rw [hmax]
  constructor
  · rfl
  · exact hhi
  · intro b hb
    rcases List.mem_append.mp hb with hb | hb
    · obtain ⟨hpos, hend⟩ : 0 < b.size ∧ b.offset + b.size ≤ top := hu.block b hb
      exact ⟨hpos, by simp only; omega⟩
    · rw [hnew b hb]
      exact ⟨hsize, le_rfl⟩
  · rw [List.pairwise_append]
    refine ⟨hu.apart, (List.pairwise_singleton _ _).sublist hextra, fun b hb c hc => ?_⟩
    rw [hnew c hc]
    exact hbelow b hb
  · intro b hb hused
    rcases List.mem_append.mp hb with hb | hb
    · exact List.mem_cons_of_mem _ (hu.owned b hb hused)
    · rw [hnew b hb]
      exact List.mem_cons_self
  · intro b hb hfree p hp
    rcases List.mem_append.mp hb with hb | hb
    · rcases List.mem_cons.mp hp with rfl | hp
      · exact hbelow b hb
      · exact hu.free b hb hfree p hp
    · simp [hnew b hb] at hfree
  · intro p hp
    rcases List.mem_cons.mp hp with rfl | hp
    · exact ⟨hsize, le_rfl⟩
    · obtain ⟨hpos, hend⟩ : 0 < p.2 ∧ p.1 + p.2 ≤ top := hu.live p hp
      exact ⟨hpos, by simp only; omega⟩
  · refine List.pairwise_cons.mpr ⟨fun p hp => ?_, hu.disjoint⟩
    exact Or.inr ((hu.live p hp).2.trans htop)
  · simp only [freeBytes_append, hfreeExtra]
    omega
  · simp only [freeBytes_append, usedBytes_append, hfreeExtra]
    omega
  · simp only [usedBytes_append]
    omega

/-- The live allocation that `free` removes is apart from every other one. -/
theorem apart_of_mem_eraseP (hu : Orderly S u) {q : ℕ × ℕ} (hq : q ∈ u.live) :
    ∀ p ∈ u.live.eraseP (fun p => p.1 == q.1), Apart q p := by
  obtain ⟨r, l₁, l₂, -, hr, hlive, herase⟩ :=
    List.exists_of_eraseP (p := fun p => p.1 == q.1) hq (by simp)
  have hperm : u.live.Perm (r :: (l₁ ++ l₂)) := hlive ▸ List.perm_middle
  have hdisj : (r :: (l₁ ++ l₂)).Pairwise Apart :=
    (hperm.pairwise_iff fun h => Apart.symm h).mp hu.disjoint
  have hqr : q = r := by
    rcases List.mem_cons.mp (hperm.mem_iff.mp hq) with h | h
    · exact h
    · have hrlive : r ∈ u.live := hperm.mem_iff.mpr List.mem_cons_self
      have hne := (List.rel_of_pairwise_cons hdisj h).ne (hu.live r hrlive).1 (hu.live q hq).1
      exact absurd (by simpa using hr) hne
  rw [herase, hqr]
  exact fun p hp => List.rel_of_pairwise_cons hdisj hp

/-- The live allocation at `offset` is freed and the table entry for it becomes free. -/
theorem release {a : Allocation} {rest : List Allocation} {alloc S : ℕ} {live : List (ℕ × ℕ)}
    {top : ℕ} (hu : Orderly S ⟨⟨S, alloc, a :: rest⟩, live, top⟩) (hused : a.used = true) :
    Orderly S ⟨⟨S, alloc - a.size, { a with used := false } :: rest⟩,
      live.eraseP (fun p => p.1 == a.offset), top⟩ := by
  have hmem : a ∈ a :: rest := List.mem_cons_self
  have hrest := List.pairwise_cons.mp hu.apart
  have hsub := List.eraseP_sublist (l := live) (p := fun p => p.1 == a.offset)
  -- `a` is live, it is what `eraseP` removes, and nothing else that is live touches it.
  have hgone : ∀ p ∈ live.eraseP (fun p => p.1 == a.offset), Apart a.range p :=
    apart_of_mem_eraseP hu (hu.owned a hmem hused)
  constructor
  · rfl
  · exact hu.top_le
  · exact fun b hb => by
      rcases List.mem_cons.mp hb with rfl | hb
      · exact hu.block a hmem
      · exact hu.block b (List.mem_cons_of_mem _ hb)
  · exact List.pairwise_cons.mpr ⟨hrest.1, hrest.2⟩
  · intro b hb hbused
    rcases List.mem_cons.mp hb with rfl | hb
    · simp at hbused
    · have hb' := List.mem_cons_of_mem a hb
      have hne : b.offset ≠ a.offset :=
        (hrest.1 b hb).symm.ne (hu.block b hb').1 (hu.block a hmem).1
      exact (List.mem_eraseP_of_neg (by simpa [Allocation.range] using hne)).mpr
        (hu.owned b hb' hbused)
  · intro b hb hbfree p hp
    rcases List.mem_cons.mp hb with rfl | hb
    · exact hgone p hp
    · exact hu.free b (List.mem_cons_of_mem _ hb) hbfree p (hsub.subset hp)
  · exact fun p hp => hu.live p (hsub.subset hp)
  · exact hu.disjoint.sublist hsub
  · have hcount := hu.counter
    have hcov := hu.covered
    simp only [freeBytes_cons, usedBytes_cons, hused, if_true, if_false, Bool.false_eq_true]
      at hcount hcov ⊢
    omega
  · have hbytes := hu.bytes
    simp only [freeBytes_cons, usedBytes_cons, hused, if_true, if_false, Bool.false_eq_true]
      at hbytes ⊢
    omega
  · have hcov := hu.covered
    simp only [usedBytes_cons, hused, if_true, if_false, Bool.false_eq_true] at hcov ⊢
    omega

/-- A request keeps the invariant. -/
theorem request (hS : S + S < 2 ^ 64) (hu : Orderly S u) {size align : ℕ}
    (hsize : size ≤ u.heap.size) (halign : align < 2 ^ 64)
    (hc : CounterAtTop.AtTop u size align) :
    Orderly S (u.returned size (memheapAlignedAlloc u.heap size align)) := by
  obtain ⟨⟨S', alloc, allocs⟩, live, top⟩ := u
  obtain rfl : S' = S := hu.size
  have htop : top ≤ S' := hu.top_le
  have hcount : alloc + freeBytes allocs ≤ top + S' := hu.counter
  have hblock : ∀ a ∈ allocs, 0 < a.size ∧ a.offset + a.size ≤ top := hu.block
  simp only at hsize
  have hlow : ∀ a ∈ allocs, a.offset < 2 ^ 63 := fun a ha => by
    have := hblock a ha
    omega
  rcases memheapAlignedAlloc_cases size (h := ⟨S', alloc, allocs⟩) halign hlow with
    hfail | ⟨hacc, k, rfl, hk, ⟨i, a, hi, hfits, hreuse⟩ | ⟨hnone, hbump⟩⟩
  · rw [hfail]
    exact hu
  · -- The free block `a` serves the request.
    have ha : a ∈ allocs := List.mem_of_getElem? hi
    have hend : a.offset + a.size ≤ top := (hblock a ha).2
    have hlo := le_alignUp (hlow a ha) hk
    have hle := alignUp_le (hlow a ha) hk
    obtain ⟨hfree, hfit⟩ := Bool.and_eq_true_iff.mp hfits
    have hbytes := size_le_freeBytes ha (by simpa using hfree)
    rw [decide_eq_true_iff, addSize_of_lt (by omega), addSize_of_lt (by omega)] at hfit
    obtain ⟨extra, rest, hextra, hperm, hnew⟩ := reuse_perm (h := ⟨S', alloc, allocs⟩) hi hlo
      (show alignUp a.offset (2 ^ k) + size < 2 ^ 64 by omega) (by omega)
    have hret : (reuse ⟨S', alloc, allocs⟩ i a size (2 ^ k)).2 = alignUp a.offset (2 ^ k) := rfl
    rw [hreuse, Usage.returned, if_neg (by rw [hret, sizeMax]; omega), hret,
      max_eq_left (hfit.trans hend)]
    refine of_perm hnew ?_
    simp only [reuse, addSize_of_lt (show alloc + size < 2 ^ 64 by omega)]
    exact split (hu.perm hperm) (by simpa using hfree) (Nat.pos_of_ne_zero hacc.1) hlo hfit hextra
  · -- No block fits: the bump counter serves the request, or the heap is exhausted.
    rw [hbump, bump]
    simp only
    split_ifs with hroom
    · obtain ⟨extra, hextra, hpush⟩ :=
        pushAlloc_eq_append allocs ⟨alignUp alloc (2 ^ k), size, true⟩
      obtain ⟨hat, hfit⟩ : top ≤ alignUp alloc (2 ^ k) ∧ alignUp alloc (2 ^ k) + size < 2 ^ 64 :=
        hc hacc hnone hroom
      simp only [addSize_of_lt hfit] at hroom ⊢
      rw [Usage.returned, if_neg (by simp only [sizeMax]; omega), hpush]
      exact above hu (Nat.pos_of_ne_zero hacc.1) hat hroom hextra
    · exact hu

/-- A free of a live allocation keeps the invariant. -/
theorem free_call (hS : S + S < 2 ^ 64) (hu : Orderly S u) {offset : ℕ}
    (hlive : ∃ p ∈ u.live, p.1 = offset) : Orderly S (u.call (.free offset)) := by
  obtain ⟨q, hq, rfl⟩ := hlive
  have hqtop := hu.live q hq
  have htop := hu.top_le
  rcases memheapFree_cases u.heap q.1 with
    ⟨hsame, hnone⟩ | ⟨a, rest, hused, hoff, hperm, hnew, hcount, hsize⟩
  · -- The table was full when this allocation was made, so it has no entry.
    have hno : ∀ a ∈ u.heap.allocs, a.used = true → a.offset ≠ q.1 := by
      rcases hnone with hmax | hno
      · rw [sizeMax] at hmax
        omega
      · exact hno
    have hsub := List.eraseP_sublist (l := u.live) (p := fun p => p.1 == q.1)
    rw [Usage.call, hsame]
    exact {
      hu with
      owned := fun a ha hused =>
        (List.mem_eraseP_of_neg (by simpa [Allocation.range] using hno a ha hused)).mpr
          (hu.owned a ha hused)
      free := fun a ha hfree p hp => hu.free a ha hfree p (hsub.subset hp)
      live := fun p hp => hu.live p (hsub.subset hp)
      disjoint := hu.disjoint.sublist hsub }
  · have hu' := hu.perm hperm
    have hcov := hu'.covered
    have hctr := hu'.counter
    simp only [usedBytes_cons, hused, if_true] at hcov hctr
    refine of_perm hnew ?_
    rw [hcount, hsize, hu.size, subSize_of_le (by omega) (by omega), ← hoff]
    have hrel := release (S := S) (by simpa only [hu.size] using hu') hused
    exact hrel

/-- Every legal call that meets the condition keeps the invariant. -/
theorem call (hS : S + S < 2 ^ 64) (hu : Orderly S u) {op : Op} (hlegal : op.Legal u)
    (hc : CounterAtTop u op) : Orderly S (u.call op) := by
  cases op with
  | alignedAlloc size align => exact hu.request hS hlegal.1 hlegal.2 hc
  | alloc size => exact hu.request hS hlegal (defaultAlign_lt size) hc
  | free offset => exact hu.free_call hS hlegal

end Orderly

/-! ### Runs -/

/-- The invariant holds in every state of a run whose calls meet the condition. -/
theorem orderly_of_reachable {S : ℕ} (hS : S + S < 2 ^ 64) {u : Usage}
    (h : ((sequences S).restrict CounterAtTop).Reachable u) : Orderly S u := by
  refine TransitionSystem.Reachable.invariant ?_ ?_ h
  · rintro s rfl
    exact Orderly.fresh S
  · rintro s op s' - hs ⟨hc, hlegal, rfl⟩
    exact hs.call hS hlegal hc

/-- In every run on a heap of `S` bytes in which the bump path serves no request with the counter,
rounded up, below the end of an earlier allocation, live allocations occupy disjoint ranges. -/
theorem live_disjoint_of_counterAtTop (S : ℕ) (hS : S + S < 2 ^ 64) (u : Usage)
    (h : ((sequences S).restrict CounterAtTop).Reachable u) : u.Disjoint :=
  (orderly_of_reachable hS h).disjoint

/-- Two blocks, the first freed, a request that is refused, one that rounding takes past the second
block, and the space of the first taken again: every call meets the condition. -/
theorem live_disjoint_after_reuse :
    (calls.exec (Usage.fresh 4096)
      [.alloc 64, .alloc 64, .free 0, .alignedAlloc 3100 1024, .alignedAlloc 256 128, .alloc 32,
        .alloc 32]).Disjoint :=
  live_disjoint_of_counterAtTop 4096 (by decide) _
    (Machine.reachable_restrict_exec _ (.init rfl) (by decide +kernel))

/-- Without the condition two live allocations can overlap: after `alloc(64)`, `alloc(64)`,
`free(0)`, a request of 128 bytes fits no free block and is placed at 64, on top of the
second block. -/
theorem sequences_overlap :
    ¬ ∀ (S : ℕ) (u : Usage), S + S < 2 ^ 64 → (sequences S).Reachable u → u.Disjoint := by
  intro h
  have hreach : (sequences 4096).Reachable (calls.exec (Usage.fresh 4096) _) :=
    Machine.reachable_exec [.alloc 64, .alloc 64, .free 0, .alloc 128] (.init rfl)
      (by decide +kernel)
  exact absurd (h 4096 _ (by decide) hreach) (by decide +kernel)

end EpDemo.Memheap
