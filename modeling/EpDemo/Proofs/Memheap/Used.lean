import EpDemo.Proofs.Memheap.Replay

/-!
# `EpDemo.Proofs.Memheap.Used`: the used entries of the table

What a caller holds of a heap is the used entries of its table. A request that is served adds one
used entry, the range that it returns, and keeps the others (`request_used`). This holds of every
heap, whatever calls were made on it, as long as the table has a spare entry.

`memheap_free` looks for a used entry by its offset. It takes back the range that was handed out at
the offset when no other used entry starts there (`free_used`). `Unshared` is that this is so for a
list of requests, and such a list is undone by freeing what it was given (`freeAll_issue`).
-/

set_option autoImplicit false

namespace EpDemo.Memheap

open EpDemo.Library

/-- The ranges of the used entries of a table. -/
def usedRanges (allocs : List Allocation) : List (ℕ × ℕ) :=
  (allocs.filter Allocation.used).map Allocation.range

/-- The used ranges of two tables. -/
@[simp] theorem usedRanges_append (l l' : List Allocation) :
    usedRanges (l ++ l') = usedRanges l ++ usedRanges l' := by
  simp [usedRanges]

/-- A used entry shows its range. -/
theorem usedRanges_cons_used {a : Allocation} (l : List Allocation) (h : a.used = true) :
    usedRanges (a :: l) = a.range :: usedRanges l := by
  simp [usedRanges, h]

/-- A free entry shows nothing. -/
theorem usedRanges_cons_free {a : Allocation} (l : List Allocation) (h : a.used = false) :
    usedRanges (a :: l) = usedRanges l := by
  simp [usedRanges, h]

/-- A table of free entries shows nothing. -/
theorem usedRanges_eq_nil {l : List Allocation} (h : ∀ a ∈ l, a.used = false) :
    usedRanges l = [] := by
  rw [usedRanges, List.map_eq_nil_iff, List.filter_eq_nil_iff]
  exact fun a ha => by simp [h a ha]

/-- Tables with the same entries show the same ranges. -/
theorem usedRanges_perm {l l' : List Allocation} (h : l.Perm l') :
    (usedRanges l).Perm (usedRanges l') :=
  (h.filter _).map _

/-! ### Requests -/

/-- The alignment is an even power of two. -/
def EvenAlign (align : ℕ) : Prop := ∃ k, align = 2 ^ k ∧ 0 < k ∧ k ≤ 63

/-- Serving a request from a free block changes the entry of the block and adds at most two free
entries. -/
theorem reuse_allocs (h : Heap) (i : ℕ) (a : Allocation) (size align : ℕ) :
    ∃ extra, (∀ b ∈ extra, b.used = false) ∧ extra.length ≤ 2 ∧
      (reuse h i a size align).1.allocs =
        (h.allocs ++ extra).set i ⟨alignUp a.offset align, size, true⟩ := by
  -- Each of the two appends adds at most one entry, and the entry is free.
  have hpush : ∀ (c : Prop) [Decidable c] (l : List Allocation) (b : Allocation),
      b.used = false → ∃ extra, (∀ b ∈ extra, b.used = false) ∧ extra.length ≤ 1 ∧
        (if c then pushAlloc l b else l) = l ++ extra := by
    intro c _ l b hb
    by_cases hc : c
    · obtain ⟨extra, hsub, heq⟩ := pushAlloc_eq_append l b
      refine ⟨extra, fun b' hb' => ?_, hsub.length_le, by rw [if_pos hc, heq]⟩
      rw [List.mem_singleton.mp (hsub.subset hb'), hb]
    · exact ⟨[], by simp, by simp, by rw [if_neg hc, List.append_nil]⟩
  -- The bytes before the block and the bytes behind it.
  obtain ⟨front, hfront, hlen₁, heq₁⟩ := hpush (alignUp a.offset align > a.offset) h.allocs
    ⟨a.offset, subSize (alignUp a.offset align) a.offset, false⟩ rfl
  obtain ⟨back, hback, hlen₂, heq₂⟩ :=
    hpush (addSize (alignUp a.offset align) size < addSize a.offset a.size) (h.allocs ++ front)
      ⟨addSize (alignUp a.offset align) size,
        subSize (addSize a.offset a.size) (addSize (alignUp a.offset align) size), false⟩ rfl
  refine ⟨front ++ back, fun b hb => ?_, by rw [List.length_append]; omega, ?_⟩
  · rcases List.mem_append.mp hb with hb | hb
    · exact hfront b hb
    · exact hback b hb
  · simp only [reuse]
    rw [heq₁, heq₂, List.append_assoc]

/-- The used entries after a request is served from the free block `a`. -/
theorem reuse_used {h : Heap} {i : ℕ} {a : Allocation} (hi : h.allocs[i]? = some a)
    (hfree : a.used = false) (size align : ℕ) :
    (usedRanges (reuse h i a size align).1.allocs).Perm
        ((alignUp a.offset align, size) :: usedRanges h.allocs) ∧
      (reuse h i a size align).1.allocs.length ≤ h.allocs.length + 2 := by
  obtain ⟨extra, hextra, hlen, heq⟩ := reuse_allocs h i a size align
  obtain ⟨rest, hperm, hset⟩ := set_append_perm hi ⟨alignUp a.offset align, size, true⟩ extra
  rw [heq]
  constructor
  · have hold : (usedRanges h.allocs).Perm (usedRanges rest) := by
      rw [← usedRanges_cons_free rest hfree]
      exact usedRanges_perm hperm
    calc (usedRanges ((h.allocs ++ extra).set i _)).Perm (usedRanges (_ :: (extra ++ rest))) :=
          usedRanges_perm hset
      _ = (alignUp a.offset align, size) :: usedRanges rest := by
        rw [usedRanges_cons_used _ rfl, usedRanges_append, usedRanges_eq_nil hextra]
        rfl
      _ |>.Perm ((alignUp a.offset align, size) :: usedRanges h.allocs) := hold.symm.cons _
  · rw [List.length_set, List.length_append]
    omega

/-- A request with an even alignment, on a table with a spare entry: it is refused and nothing
changes, or the range that it returns is one more used entry. -/
theorem request_used (h : Heap) (size : ℕ) {align : ℕ} (heven : EvenAlign align)
    (hroom : h.allocs.length < maxAllocations) :
    memheapAlignedAlloc h size align = (h, sizeMax) ∨
      (memheapAlignedAlloc h size align).2 ≠ sizeMax ∧
      (usedRanges (memheapAlignedAlloc h size align).1.allocs).Perm
        (((memheapAlignedAlloc h size align).2, size) :: usedRanges h.allocs) ∧
      (memheapAlignedAlloc h size align).1.allocs.length ≤ h.allocs.length + 2 := by
  obtain ⟨k, rfl, hk, hk'⟩ := heven
  by_cases hacc : Accepted size (2 ^ k)
  · have hret : ∀ a ∈ h.allocs, alignUp a.offset (2 ^ k) ≠ sizeMax := fun a _ =>
      alignUp_ne_sizeMax_of_pos hk hk'
    rcases memheapAlignedAlloc_outcome hacc hret with ⟨i, a, hi, hfind, heq⟩ | ⟨-, heq⟩
    · -- A free block serves the request.
      have hfits : fits size (2 ^ k) a = true := List.find?_some hfind
      have hfree : a.used = false := by simpa using (Bool.and_eq_true_iff.mp hfits).1
      rw [heq]
      exact Or.inr ⟨alignUp_ne_sizeMax_of_pos hk hk', reuse_used hi hfree size _⟩
    · rw [heq]
      by_cases hfits : addSize (alignUp h.allocated (2 ^ k)) size ≤ h.size
      · -- The bump counter serves it, with a new entry at the end of the table.
        have hpush : ∀ a, pushAlloc h.allocs a = h.allocs ++ [a] := fun a => if_pos hroom
        rw [bump_eq hfits, hpush]
        refine Or.inr ⟨alignUp_ne_sizeMax_of_pos hk hk', ?_, by simp⟩
        rw [usedRanges_append, usedRanges_cons_used [] rfl]
        exact List.perm_append_comm
      · exact Or.inl (bump_eq_of_not hfits)
  · exact Or.inl (memheapAlignedAlloc_refused hacc)

/-- A request with an even alignment that is refused changes nothing. -/
theorem request_refused {h : Heap} {size align : ℕ} (heven : EvenAlign align)
    (hfail : (memheapAlignedAlloc h size align).2 = sizeMax) :
    (memheapAlignedAlloc h size align).1 = h := by
  obtain ⟨k, rfl, hk, hk'⟩ := heven
  by_cases hacc : Accepted size (2 ^ k)
  · have hret : ∀ a ∈ h.allocs, alignUp a.offset (2 ^ k) ≠ sizeMax := fun a _ =>
      alignUp_ne_sizeMax_of_pos hk hk'
    rcases memheapAlignedAlloc_outcome hacc hret with ⟨i, a, -, -, heq⟩ | ⟨-, heq⟩
    · rw [heq] at hfail
      exact absurd hfail (alignUp_ne_sizeMax_of_pos hk hk')
    · rw [heq] at hfail ⊢
      by_cases hfits : addSize (alignUp h.allocated (2 ^ k)) size ≤ h.size
      · rw [bump_eq hfits] at hfail
        exact absurd hfail (alignUp_ne_sizeMax_of_pos hk hk')
      · rw [bump_eq_of_not hfits]
  · rw [memheapAlignedAlloc_refused hacc]

/-! ### Frees -/

/-- Freeing an offset takes back the used entry there, when only one used entry starts there. -/
theorem free_used {h : Heap} {p : ℕ × ℕ} {rest : List (ℕ × ℕ)}
    (hused : (usedRanges h.allocs).Perm (p :: rest)) (hne : p.1 ≠ sizeMax)
    (honly : ∀ q ∈ rest, q.1 ≠ p.1) :
    (usedRanges (memheapFree h p.1).allocs).Perm rest := by
  have hmem : p ∈ usedRanges h.allocs := hused.mem_iff.mpr List.mem_cons_self
  rcases memheapFree_cases h p.1 with ⟨-, hnone⟩ | ⟨a, others, hu, hoff, hperm, hnew, -, -⟩
  · -- The entry of `p` is used and starts at the offset.
    obtain ⟨a, ha, rfl⟩ := List.mem_map.mp hmem
    obtain ⟨ha, hu⟩ := List.mem_filter.mp ha
    rcases hnone with hmax | hno
    · exact absurd hmax hne
    · exact absurd rfl (hno a ha hu)
  · have hold := (usedRanges_perm hperm).symm.trans hused
    rw [usedRanges_cons_used others hu] at hold
    have hrange : a.range = p := by
      rcases List.mem_cons.mp (hold.mem_iff.mp List.mem_cons_self) with heq | hrest
      · exact heq
      · exact absurd hoff (honly _ hrest)
    have hafter := usedRanges_perm hnew
    rw [usedRanges_cons_free others rfl] at hafter
    rw [hrange] at hold
    exact hafter.trans hold.cons_inv

/-- Freeing a list of offsets at each of which one used entry starts. -/
theorem freeAll_used {kept : List (ℕ × ℕ)} (taken : List (ℕ × ℕ)) :
    ∀ {h : Heap}, (usedRanges h.allocs).Perm (taken ++ kept) → (taken.map Prod.fst).Nodup →
      (∀ p ∈ taken, p.1 ≠ sizeMax ∧ ∀ q ∈ kept, q.1 ≠ p.1) →
      (usedRanges (freeAll h (taken.map Prod.fst)).allocs).Perm kept := by
  induction taken with
  | nil => exact fun hused _ _ => hused
  | cons p taken ih =>
    intro h hused hnodup honly
    rw [List.map_cons, List.nodup_cons] at hnodup
    obtain ⟨hne, hkept⟩ := honly p List.mem_cons_self
    have hfree := free_used hused hne fun q hq => by
      rcases List.mem_append.mp hq with hq | hq
      · exact fun heq => hnodup.1 (heq ▸ List.mem_map_of_mem hq)
      · exact hkept q hq
    exact ih hfree hnodup.2 fun q hq => honly q (List.mem_cons_of_mem _ hq)

/-! ### Requests that are undone -/

/-- Each request that is served gets an offset at which no used entry starts yet. -/
def Unshared : Heap → List (ℕ × ℕ) → Prop
  | _, [] => True
  | h, (size, align) :: rest =>
    (memheapAlignedAlloc h size align).2 ≠ sizeMax →
      (∀ q ∈ usedRanges h.allocs, q.1 ≠ (memheapAlignedAlloc h size align).2) ∧
        Unshared (memheapAlignedAlloc h size align).1 rest

instance decidableUnshared : (h : Heap) → (reqs : List (ℕ × ℕ)) → Decidable (Unshared h reqs)
  | _, [] => inferInstanceAs (Decidable True)
  | h, (size, align) :: rest =>
    have := decidableUnshared (memheapAlignedAlloc h size align).1 rest
    inferInstanceAs (Decidable (_ → _ ∧ _))

/-- The first requests of a sequence share nothing when the sequence does not. -/
theorem Unshared.take {reqs : List (ℕ × ℕ)} :
    ∀ {h : Heap} (k : ℕ), Unshared h reqs → Unshared h (reqs.take k) := by
  induction reqs with
  | nil => exact fun k hun => by simpa using hun
  | cons r reqs ih =>
    intro h k hun
    cases k with
    | zero => exact trivial
    | succ k =>
      intro hserved
      obtain ⟨hhead, htail⟩ := hun hserved
      exact ⟨hhead, ih k htail⟩

/-- Requests that are all served add one used entry each. -/
theorem issue_used (reqs : List (ℕ × ℕ)) :
    ∀ {h : Heap}, (∀ r ∈ reqs, EvenAlign r.2) →
      h.allocs.length + 2 * reqs.length ≤ maxAllocations → sizeMax ∉ (issue h reqs).2 →
      ∃ taken : List (ℕ × ℕ), taken.length = reqs.length ∧
        taken.map Prod.fst = (issue h reqs).2 ∧
        (usedRanges (issue h reqs).1.allocs).Perm (taken ++ usedRanges h.allocs) ∧
        (Unshared h reqs → (taken.map Prod.fst).Nodup ∧
          ∀ p ∈ taken, ∀ q ∈ usedRanges h.allocs, q.1 ≠ p.1) := by
  induction reqs with
  | nil => exact fun _ _ _ => ⟨[], rfl, rfl, .refl _, fun _ => ⟨.nil, by simp⟩⟩
  | cons r reqs ih =>
    obtain ⟨size, align⟩ := r
    intro h heven hlen hok
    simp only [issue, List.mem_cons, not_or] at hok ⊢
    obtain ⟨hserved, hok⟩ := hok
    rw [List.length_cons] at hlen
    have hhead : EvenAlign align := heven _ List.mem_cons_self
    rcases request_used h size hhead (by omega) with hrefused | ⟨-, hused, hgrow⟩
    · rw [hrefused] at hserved
      exact absurd rfl hserved
    · obtain ⟨taken, htlen, hfst, hperm, hfresh⟩ :=
        ih (fun r hr => heven r (List.mem_cons_of_mem _ hr)) (by omega) hok
      refine ⟨((memheapAlignedAlloc h size align).2, size) :: taken, ?_, ?_, ?_, ?_⟩
      · rw [List.length_cons, List.length_cons, htlen]
      · rw [List.map_cons, hfst]
      · exact hperm.trans ((hused.append_left taken).trans List.perm_middle)
      · intro hun
        obtain ⟨hhead, htail⟩ := hun (Ne.symm hserved)
        obtain ⟨hnodup, hapart⟩ := hfresh htail
        -- The rest of the requests see the first one among the used entries.
        have hold : ∀ q ∈ (_, size) :: usedRanges h.allocs, ∀ p ∈ taken, q.1 ≠ p.1 :=
          fun q hq p hp => hapart p hp q (hused.mem_iff.mpr hq)
        refine ⟨List.nodup_cons.mpr ⟨fun hmem => ?_, hnodup⟩, fun p hp q hq => ?_⟩
        · obtain ⟨p, hp, heq⟩ := List.mem_map.mp hmem
          exact hold _ List.mem_cons_self p hp heq.symm
        · rcases List.mem_cons.mp hp with rfl | hp
          · exact hhead q hq
          · exact hold q (List.mem_cons_of_mem _ hq) p hp

/-- Freeing what the requests were given leaves the used entries that there were before. -/
theorem freeAll_issue {h : Heap} {reqs : List (ℕ × ℕ)} (heven : ∀ r ∈ reqs, EvenAlign r.2)
    (hlen : h.allocs.length + 2 * reqs.length ≤ maxAllocations) (hok : sizeMax ∉ (issue h reqs).2)
    (hun : Unshared h reqs) :
    (usedRanges (freeAll (issue h reqs).1 (issue h reqs).2).allocs).Perm (usedRanges h.allocs) := by
  obtain ⟨taken, -, hfst, hperm, hfresh⟩ := issue_used reqs heven hlen hok
  obtain ⟨hnodup, hapart⟩ := hfresh hun
  rw [← hfst] at hok ⊢
  refine freeAll_used taken hperm hnodup fun p hp => ⟨fun hmax => hok ?_, hapart p hp⟩
  exact hmax ▸ List.mem_map_of_mem hp

/-- Requests that are served and not freed leave other used entries than before. -/
theorem issue_not_perm {h : Heap} {reqs : List (ℕ × ℕ)} (heven : ∀ r ∈ reqs, EvenAlign r.2)
    (hlen : h.allocs.length + 2 * reqs.length ≤ maxAllocations) (hok : sizeMax ∉ (issue h reqs).2)
    (hne : reqs ≠ []) :
    ¬(usedRanges (issue h reqs).1.allocs).Perm (usedRanges h.allocs) := by
  obtain ⟨taken, htlen, -, hperm, -⟩ := issue_used reqs heven hlen hok
  intro hsame
  have hcount := (hsame.symm.trans hperm).length_eq
  have hpos := List.length_pos_of_ne_nil hne
  rw [List.length_append] at hcount
  omega

/-! ### Runs -/

/-- In an orderly heap no two allocations start at one offset, so requests that meet
`CounterAtTop` are unshared. -/
theorem Orderly.unshared {S : ℕ} (hS : S + S < 2 ^ 64) (reqs : List (ℕ × ℕ)) :
    ∀ {u : Usage}, Orderly S u →
      (calls.guarded CounterAtTop).Legal u (reqs.map fun r => .alignedAlloc r.1 r.2) →
      Unshared u.heap reqs := by
  -- By induction on the requests, along the run that serves them.
  induction reqs with
  | nil => exact fun _ _ => trivial
  | cons r reqs ih =>
    obtain ⟨size, align⟩ := r
    intro u hu hlegal
    obtain ⟨⟨hcounter, hsize, halign⟩, hrest⟩ := hlegal
    have hnext := hu.request hS hsize halign hcounter
    intro hserved
    -- The new block does not overlap any live one, so that no owned offset is returned again.
    refine ⟨fun q hq => ?_, ?_⟩
    · rw [Usage.returned, if_neg hserved] at hnext
      obtain ⟨a, ha, rfl⟩ := List.mem_map.mp hq
      obtain ⟨ha, hused⟩ := List.mem_filter.mp ha
      have hlive := hu.owned a ha hused
      have hapart := List.rel_of_pairwise_cons hnext.disjoint hlive
      exact (hapart.ne (hnext.live _ List.mem_cons_self).1 (hu.live _ hlive).1).symm
    · have hheap : (u.returned size (memheapAlignedAlloc u.heap size align)).heap =
          (memheapAlignedAlloc u.heap size align).1 := by
        rw [Usage.returned, if_neg hserved]
      rw [← hheap]
      exact ih hnext hrest

end EpDemo.Memheap
