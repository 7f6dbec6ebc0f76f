import EpDemo.Proofs.Memheap.Disjoint
import Mathlib.Data.List.Nodup

/-!
# `EpDemo.Proofs.Memheap.Replay`: the same requests get the same layout

A list of requests that all succeed on a fresh heap is served by the bump counter, one entry of
the table after the other (`LaidOut`). Freeing all of them, in whatever order, leaves the table
with the same entries, all free (`freeAll_eq`). When the list is issued again, the entries before
the one of the current request are used again and that entry is the first free one, so the
first-fit search stops there. It fits exactly: there is nothing to split off, and the counter is
not consulted (`issue_again`). The counter ends where it was, because every free took off what the
request adds again.
-/

set_option autoImplicit false

namespace EpDemo.Memheap

/-- Issue a list of requests, given as sizes and alignments. -/
def issue : Heap → List (ℕ × ℕ) → Heap × List ℕ
  | h, [] => (h, [])
  | h, (size, align) :: rest =>
    let first := memheapAlignedAlloc h size align
    let others := issue first.1 rest
    (others.1, first.2 :: others.2)

/-- A sequence of requests is its first request and then the others. -/
theorem issue_cons {h h₁ h₂ : Heap} {size align o : ℕ} {rest : List (ℕ × ℕ)} {os : List ℕ}
    (hfirst : memheapAlignedAlloc h size align = (h₁, o)) (hrest : issue h₁ rest = (h₂, os)) :
    issue h ((size, align) :: rest) = (h₂, o :: os) := by
  simp only [issue, hfirst, hrest]

/-- Two lists of requests, one after the other. -/
theorem issue_append {reqs reqs' : List (ℕ × ℕ)} {os' : List ℕ} :
    ∀ {h h₁ h₂ : Heap} {os : List ℕ}, issue h reqs = (h₁, os) → issue h₁ reqs' = (h₂, os') →
      issue h (reqs ++ reqs') = (h₂, os ++ os') := by
  induction reqs with
  | nil =>
    intro h h₁ h₂ os hfirst hrest
    obtain ⟨rfl, rfl⟩ : h = h₁ ∧ [] = os := Prod.mk.inj hfirst
    exact hrest
  | cons r reqs ih =>
    intro h h₁ h₂ os hfirst hrest
    obtain ⟨hheap, rfl⟩ := Prod.mk.inj hfirst
    exact issue_cons rfl (ih (Prod.ext hheap rfl) hrest)

/-- Free a list of offsets. -/
def freeAll (h : Heap) (offsets : List ℕ) : Heap := offsets.foldl memheapFree h

/-- A request that the callers of the heap make: at most the heap's size, and aligned to a power
of two. -/
def Sized (S : ℕ) (r : ℕ × ℕ) : Prop := r.1 ≤ S ∧ r.2 < 2 ^ 64 ∧ r.2.isPowerOfTwo

/-- `LaidOut S c reqs l`: the blocks `l`, from `c` upwards and inside a heap of `S` bytes, serve
the requests `reqs` one after the other. -/
inductive LaidOut (S : ℕ) : ℕ → List (ℕ × ℕ) → List Allocation → Prop
  | nil {c : ℕ} : LaidOut S c [] []
  | cons {c o size align : ℕ} {reqs : List (ℕ × ℕ)} {l : List Allocation} :
      Accepted size align → align < 2 ^ 64 → align ∣ o → c ≤ o → o + size ≤ S →
      LaidOut S (o + size) reqs l →
      LaidOut S c ((size, align) :: reqs) (⟨o, size, true⟩ :: l)

/-! ### What a layout looks like -/

namespace LaidOut

variable {S c : ℕ} {reqs : List (ℕ × ℕ)} {l : List Allocation}

/-- The blocks are used, have bytes in them and lie above `c`. -/
theorem block (h : LaidOut S c reqs l) :
    ∀ a ∈ l, a.used = true ∧ 0 < a.size ∧ c ≤ a.offset ∧ a.offset + a.size ≤ S := by
  induction h with
  | nil => simp
  | cons hacc _ _ hc hS _ ih =>
    intro a ha
    rcases List.mem_cons.mp ha with rfl | ha
    · exact ⟨rfl, Nat.pos_of_ne_zero hacc.1, hc, hS⟩
    · obtain ⟨hused, hpos, hlo, hhi⟩ := ih a ha
      exact ⟨hused, hpos, by omega, hhi⟩

/-- Every block ends where the next one starts, or before. -/
theorem pairwise (h : LaidOut S c reqs l) :
    l.Pairwise fun a b => a.offset + a.size ≤ b.offset := by
  induction h with
  | nil => exact .nil
  | cons _ _ _ _ _ hrest ih => exact .cons (fun b hb => (hrest.block b hb).2.2.1) ih

/-- The blocks are disjoint. -/
theorem disjoint (h : LaidOut S c reqs l) : (l.map Allocation.range).Pairwise Apart :=
  List.pairwise_map.mpr (h.pairwise.imp Or.inl)

/-- No two blocks start at one offset. -/
theorem nodup (h : LaidOut S c reqs l) : (l.map Allocation.offset).Nodup := by
  induction h with
  | nil => exact .nil
  | cons hacc _ _ _ _ hrest ih =>
    rw [List.map_cons, List.nodup_cons]
    refine ⟨fun hmem => ?_, ih⟩
    obtain ⟨b, hb, hoff⟩ := List.mem_map.mp hmem
    have hlo := (hrest.block b hb).2.2.1
    have hpos := Nat.pos_of_ne_zero hacc.1
    simp only at hoff
    omega

/-- The first `k` blocks serve the first `k` requests. -/
theorem take (h : LaidOut S c reqs l) : ∀ k, LaidOut S c (reqs.take k) (l.take k) := by
  induction h with
  | nil => exact fun k => by simpa using LaidOut.nil
  | cons hacc halign hdvd hc hS _ ih =>
    intro k
    cases k with
    | zero => exact .nil
    | succ k => exact .cons hacc halign hdvd hc hS (ih k)

/-- Block `k` serves request `k`. -/
theorem get (h : LaidOut S c reqs l) : ∀ {k size align : ℕ}, reqs[k]? = some (size, align) →
    Accepted size align ∧ align < 2 ^ 64 ∧
      ∃ o, l[k]? = some ⟨o, size, true⟩ ∧ align ∣ o ∧ o + size ≤ S := by
  induction h with
  | nil => exact fun hk => by simp at hk
  | @cons c o size align reqs l hacc halign hdvd hc hS _ ih =>
    intro k size' align' hk
    cases k with
    | zero =>
      obtain ⟨rfl, rfl⟩ : size = size' ∧ align = align' := by simpa using hk
      exact ⟨hacc, halign, o, rfl, hdvd, hS⟩
    | succ k => exact ih (by simpa using hk)

/-- The blocks have the sizes that were requested. -/
theorem map_size (h : LaidOut S c reqs l) : l.map Allocation.size = reqs.map Prod.fst := by
  induction h with
  | nil => rfl
  | cons _ _ _ _ _ _ ih => rw [List.map_cons, List.map_cons, ih]

end LaidOut

/-! ### The first time -/

/-- A multiple of the alignment is not rounded. -/
theorem alignUp_of_dvd {x k : ℕ} (h : 2 ^ k ∣ x) : alignUp x (2 ^ k) = x := by
  rw [alignUp_two_pow, if_pos (Nat.mod_eq_zero_of_dvd h)]

/-- Requests that succeed on a heap whose blocks are all used are laid out above the counter, as
long as the table has room for their entries. -/
theorem issue_laidOut {S : ℕ} (hS : S < 2 ^ 63) (reqs : List (ℕ × ℕ)) :
    ∀ {c : ℕ} {allocs : List Allocation}, c ≤ S → (∀ a ∈ allocs, a.used = true) →
      allocs.length + reqs.length ≤ maxAllocations → (∀ r ∈ reqs, Sized S r) →
      sizeMax ∉ (issue ⟨S, c, allocs⟩ reqs).2 →
      ∃ l c', LaidOut S c reqs l ∧ c + usedBytes l ≤ c' ∧ c' ≤ S ∧
        issue ⟨S, c, allocs⟩ reqs = (⟨S, c', allocs ++ l⟩, l.map Allocation.offset) := by
  induction reqs with
  | nil =>
    intro c allocs hc _ _ _ _
    exact ⟨[], c, .nil, by simp [usedBytes], hc, by simp [issue]⟩
  | cons r reqs ih =>
    obtain ⟨size, align⟩ := r
    intro c allocs hc hused hlen hsized hok
    obtain ⟨hsize, halign, -⟩ := hsized _ List.mem_cons_self
    simp only [issue, List.mem_cons, not_or] at hok
    obtain ⟨hfirst, hothers⟩ := hok
    have hacc : Accepted size align := accepted_of_ne (Ne.symm hfirst)
    obtain ⟨k, rfl, hk⟩ := two_pow_le_of_lt (isPowerOfTwo_of_accepted hacc.2) halign
    have hlo := le_alignUp (show c < 2 ^ 63 by omega) hk
    have hle := alignUp_le (show c < 2 ^ 63 by omega) hk
    -- No block is free, so the request reaches the bump path.
    have hnone : allocs.find? (fits size (2 ^ k)) = none :=
      List.find?_eq_none.mpr fun a ha => by simp [fits, hused a ha]
    have hbump := memheapAlignedAlloc_eq_bump (h := ⟨S, c, allocs⟩) hacc hnone
    by_cases hroom : addSize (alignUp c (2 ^ k)) size ≤ S
    · have hsum : addSize (alignUp c (2 ^ k)) size = alignUp c (2 ^ k) + size :=
        addSize_of_lt (by omega)
      have hpush : ∀ a, pushAlloc allocs a = allocs ++ [a] := fun a =>
        if_pos (by rw [List.length_cons] at hlen; omega)
      rw [bump_eq hroom, hsum, hpush] at hbump
      rw [hsum] at hroom
      rw [hbump] at hothers
      obtain ⟨l, c', hl, hbytes, hc', heq⟩ := ih hroom
        (fun a ha => by
          rcases List.mem_append.mp ha with ha | ha
          · exact hused a ha
          · rw [List.mem_singleton.mp ha])
        (by
          rw [List.length_append, List.length_singleton]
          rw [List.length_cons] at hlen
          omega)
        (fun r hr => hsized r (List.mem_cons_of_mem _ hr)) hothers
      refine ⟨⟨alignUp c (2 ^ k), size, true⟩ :: l, c',
        .cons hacc halign (dvd_alignUp hk) hlo hroom hl, ?_, hc', ?_⟩
      · simp only [usedBytes_cons, if_true]
        omega
      · rw [issue_cons hbump heq, List.append_assoc, List.singleton_append, List.map_cons]
    · rw [hbump, bump_eq_of_not hroom] at hfirst
      exact absurd rfl hfirst

/-- Requests for which the heap has room above the counter are all served, however much of it the
rounding takes. -/
theorem issue_served {S : ℕ} (hS : S < 2 ^ 63) (reqs : List (ℕ × ℕ)) :
    ∀ {c : ℕ} {allocs : List Allocation}, (∀ a ∈ allocs, a.used = true) →
      (∀ r ∈ reqs, Accepted r.1 r.2 ∧ r.2 < 2 ^ 64) →
      c + (reqs.map fun r => r.1 + r.2).sum ≤ S → sizeMax ∉ (issue ⟨S, c, allocs⟩ reqs).2 := by
  -- By induction on the requests, with every recorded block in use and enough bytes left.
  induction reqs with
  | nil => exact fun _ _ _ => List.not_mem_nil
  | cons r reqs ih =>
    obtain ⟨size, align⟩ := r
    intro c allocs hused hacc hroom
    obtain ⟨hhead, halign⟩ := hacc _ List.mem_cons_self
    simp only [List.map_cons, List.sum_cons] at hroom
    simp only at hhead halign
    obtain ⟨k, rfl, hk⟩ := two_pow_le_of_lt (isPowerOfTwo_of_accepted hhead.2) halign
    -- Rounding up skips fewer bytes than the alignment, which the sum counts.
    have hle := alignUp_lt c k
    have hsum : addSize (alignUp c (2 ^ k)) size = alignUp c (2 ^ k) + size :=
      addSize_of_lt (by omega)
    -- No block is free, so that the request goes to the end.
    have hnone : allocs.find? (fits size (2 ^ k)) = none :=
      List.find?_eq_none.mpr fun a ha => by simp [fits, hused a ha]
    have hbump := memheapAlignedAlloc_eq_bump (h := ⟨S, c, allocs⟩) hhead hnone
    rw [bump_eq (by show addSize (alignUp c (2 ^ k)) size ≤ S; omega)] at hbump
    -- The new entry is in use as well.
    have hnext : ∀ a ∈ pushAlloc allocs ⟨alignUp c (2 ^ k), size, true⟩, a.used = true := by
      intro a ha
      unfold pushAlloc at ha
      split at ha
      · rcases List.mem_append.mp ha with ha | ha
        · exact hused a ha
        · rw [List.mem_singleton.mp ha]
      · exact hused a ha
    have hrest := ih (c := alignUp c (2 ^ k) + size) hnext
      (fun r hr => hacc r (List.mem_cons_of_mem _ hr)) (by omega)
    simp only [issue, hbump, hsum, List.mem_cons, not_or]
    refine ⟨?_, hrest⟩
    rw [sizeMax]
    omega

/-- Requests that are all served after others were. -/
theorem issue_served_of_append {reqs reqs' : List (ℕ × ℕ)} {h h₁ : Heap} {os : List ℕ}
    (hfirst : issue h reqs = (h₁, os)) (hserved : sizeMax ∉ (issue h (reqs ++ reqs')).2) :
    sizeMax ∉ (issue h₁ reqs').2 := by
  have happend := issue_append hfirst (show issue h₁ reqs' = (_, _) from rfl)
  rw [happend] at hserved
  exact fun hmem => hserved (List.mem_append_right _ hmem)

/-! ### Freeing everything -/

/-- A table in which the entries at the given offsets were freed. -/
def freedAt (offsets : List ℕ) (l : List Allocation) : List Allocation :=
  l.map fun a => if a.offset ∈ offsets then a.freed else a

/-- Two entries that start at one offset are one entry. -/
theorem index_eq_of_nodup {l : List Allocation} (hnodup : (l.map Allocation.offset).Nodup)
    {i j : ℕ} {a b : Allocation} (hi : l[i]? = some a) (hj : l[j]? = some b)
    (hab : a.offset = b.offset) : i = j := by
  obtain ⟨hlt, -⟩ := List.getElem?_eq_some_iff.mp hi
  refine (List.getElem?_inj (by simpa using hlt) hnodup).mp ?_
  rw [List.getElem?_map, List.getElem?_map, hi, hj, Option.map_some, Option.map_some, hab]

/-- Freeing one more entry of the table. -/
theorem set_freedAt {l : List Allocation} {offsets : List ℕ} {i : ℕ} {a : Allocation}
    (hnodup : (l.map Allocation.offset).Nodup) (hi : l[i]? = some a) :
    (freedAt offsets l).set i a.freed = freedAt (a.offset :: offsets) l := by
  apply List.ext_getElem?
  intro j
  rw [List.getElem?_set, freedAt, freedAt, List.getElem?_map, List.getElem?_map]
  by_cases hij : i = j
  · subst hij
    obtain ⟨hlt, rfl⟩ := List.getElem?_eq_some_iff.mp hi
    rw [if_pos rfl, List.getElem?_eq_getElem hlt, Option.map_some, if_pos List.mem_cons_self,
      if_pos (by simpa using hlt)]
  · rw [if_neg hij]
    cases hj : l[j]? with
    | none => rfl
    | some b =>
      have hne : b.offset ≠ a.offset := fun hab => hij (index_eq_of_nodup hnodup hi hj hab.symm)
      simp [hne]

/-- Each entry of the table is free when its offset was freed, and used otherwise. -/
theorem getElem?_freedAt {l : List Allocation} {offsets : List ℕ} {i : ℕ} {a : Allocation}
    (h : (freedAt offsets l)[i]? = some a) : ∃ b, l[i]? = some b ∧ a.offset = b.offset ∧
      a = if b.offset ∈ offsets then b.freed else b := by
  rw [freedAt, List.getElem?_map, Option.map_eq_some_iff] at h
  obtain ⟨b, hb, rfl⟩ := h
  refine ⟨b, hb, ?_, rfl⟩
  split <;> rfl

/-- One free: the entry at the offset becomes free, and the counter falls by its size. -/
theorem memheapFree_freedAt {S c : ℕ} {l : List Allocation} {offsets : List ℕ} {a : Allocation}
    (hnodup : (l.map Allocation.offset).Nodup) (hused : ∀ b ∈ l, b.used = true) (ha : a ∈ l)
    (hne : a.offset ≠ sizeMax) (hnew : a.offset ∉ offsets) (hc : c < 2 ^ 64) (hsize : a.size ≤ c) :
    memheapFree ⟨S, c, freedAt offsets l⟩ a.offset =
      ⟨S, c - a.size, freedAt (a.offset :: offsets) l⟩ := by
  obtain ⟨i, hi⟩ := List.mem_iff_getElem?.mp ha
  have hentry : (freedAt offsets l)[i]? = some a := by
    rw [freedAt, List.getElem?_map, hi, Option.map_some, if_neg hnew]
  rw [memheapFree_eq_set (h := ⟨S, c, freedAt offsets l⟩) hentry (hused a ha) hne]
  · rw [subSize_of_le hsize hc, set_freedAt hnodup hi]
  · intro j b hj _ hoff
    obtain ⟨b', hb', hoff', -⟩ := getElem?_freedAt hj
    exact index_eq_of_nodup hnodup hb' hi (hoff'.symm.trans hoff)

/-- The bytes of the entries at the given offsets. -/
def bytesAt (offsets : List ℕ) (l : List Allocation) : ℕ :=
  (l.map fun a => if a.offset ∈ offsets then a.size else 0).sum

/-- One more offset adds the bytes of its entry, when no two entries start at one offset. -/
theorem bytesAt_cons {l : List Allocation} {offsets : List ℕ} {a : Allocation}
    (hnodup : (l.map Allocation.offset).Nodup) (ha : a ∈ l) (hnew : a.offset ∉ offsets) :
    bytesAt (a.offset :: offsets) l = a.size + bytesAt offsets l := by
  induction l with
  | nil => exact absurd ha List.not_mem_nil
  | cons b l ih =>
    rw [List.map_cons, List.nodup_cons] at hnodup
    obtain ⟨hhead, htail⟩ := hnodup
    simp only [bytesAt, List.map_cons, List.sum_cons]
    rcases List.mem_cons.mp ha with rfl | ha
    · -- The other entries start elsewhere.
      have hrest : l.map (fun b => if b.offset ∈ a.offset :: offsets then b.size else 0) =
          l.map (fun b => if b.offset ∈ offsets then b.size else 0) := by
        refine List.map_congr_left fun b hb => ?_
        have hba : b.offset ≠ a.offset := fun heq => hhead (heq ▸ List.mem_map_of_mem hb)
        simp [hba]
      rw [hrest, if_pos List.mem_cons_self, if_neg hnew, Nat.zero_add]
    · have hba : b.offset ≠ a.offset := fun heq => hhead (heq ▸ List.mem_map_of_mem ha)
      have hrest := ih htail ha
      simp only [bytesAt] at hrest
      rw [hrest]
      simp only [List.mem_cons, hba, false_or]
      omega

/-- The bytes of some used entries are at most those of all. -/
theorem bytesAt_le (offsets : List ℕ) {l : List Allocation} (hused : ∀ a ∈ l, a.used = true) :
    bytesAt offsets l ≤ usedBytes l := by
  refine List.sum_le_sum fun a ha => ?_
  rw [if_pos (hused a ha)]
  split <;> omega

/-- Freeing more of the entries, in any order. -/
theorem freeAll_freedAt {S c : ℕ} {l : List Allocation} (hnodup : (l.map Allocation.offset).Nodup)
    (hused : ∀ a ∈ l, a.used = true) (hne : ∀ a ∈ l, a.offset ≠ sizeMax) (hc : c < 2 ^ 64)
    (hbytes : usedBytes l ≤ c) (order : List ℕ) :
    ∀ {freed : List ℕ}, (order ++ freed).Nodup → (∀ o ∈ order, o ∈ l.map Allocation.offset) →
      freeAll ⟨S, c - bytesAt freed l, freedAt freed l⟩ order =
        ⟨S, c - bytesAt (order.reverse ++ freed) l, freedAt (order.reverse ++ freed) l⟩ := by
  -- By induction on the order, where freed collects the offsets freed so far.
  induction order with
  | nil => exact fun _ _ => rfl
  | cons o order ih =>
    intro freed horder hmem
    obtain ⟨a, ha, rfl⟩ := List.mem_map.mp (hmem o List.mem_cons_self)
    rw [List.cons_append, List.nodup_cons] at horder
    obtain ⟨hfresh, horder⟩ := horder
    have hnew : a.offset ∉ freed := fun h => hfresh (List.mem_append_right _ h)
    have hbound := bytesAt_le (a.offset :: freed) hused
    -- Only the block with this offset changes, and the counter loses its bytes.
    have hstep := bytesAt_cons hnodup ha hnew
    have hfirst := memheapFree_freedAt (S := S) (c := c - bytesAt freed l) hnodup hused ha
      (hne a ha) hnew (by omega) (by omega)
    have hnext : (order ++ a.offset :: freed).Nodup :=
      List.nodup_middle.mpr (List.nodup_cons.mpr ⟨hfresh, horder⟩)
    have hrest := ih hnext fun o ho => hmem o (List.mem_cons_of_mem _ ho)
    rw [hstep, ← Nat.sub_sub, Nat.sub_right_comm, ← hfirst] at hrest
    show freeAll (memheapFree _ a.offset) order = _
    rw [hrest, List.reverse_cons, List.append_assoc, List.singleton_append]

/-- Freeing all entries, in any order. -/
theorem freeAll_eq {S c : ℕ} {l : List Allocation} (hnodup : (l.map Allocation.offset).Nodup)
    (hused : ∀ a ∈ l, a.used = true) (hne : ∀ a ∈ l, a.offset ≠ sizeMax) (hc : c < 2 ^ 64)
    (hbytes : usedBytes l ≤ c) {order : List ℕ} (hperm : order.Perm (l.map Allocation.offset)) :
    freeAll ⟨S, c, l⟩ order = ⟨S, c - usedBytes l, l.map Allocation.freed⟩ := by
  have hfold := freeAll_freedAt (S := S) hnodup hused hne hc hbytes order
    (show (order ++ []).Nodup by simpa using hperm.nodup_iff.mpr hnodup)
    fun o ho => hperm.mem_iff.mp ho
  have hnone : freedAt [] l = l ∧ bytesAt [] l = 0 := by simp [freedAt, bytesAt]
  have hall : ∀ a ∈ l, a.offset ∈ order.reverse ++ [] := fun a ha => by
    simpa using hperm.mem_iff.mpr (List.mem_map_of_mem ha)
  have htable : freedAt (order.reverse ++ []) l = l.map Allocation.freed :=
    List.map_congr_left fun a ha => if_pos (hall a ha)
  have htotal : bytesAt (order.reverse ++ []) l = usedBytes l := by
    refine congrArg List.sum (List.map_congr_left fun a ha => ?_)
    rw [if_pos (hall a ha), if_pos (hused a ha)]
  rwa [hnone.1, hnone.2, htable, htotal, Nat.sub_zero] at hfold

/-! ### The second time -/

/-- The first free block of a table is what a request for it gets, whole. -/
theorem memheapAlignedAlloc_exact {S c o size k : ℕ} {front : List Allocation}
    (tail : List Allocation)
    (hacc : Accepted size (2 ^ k)) (hused : ∀ a ∈ front, a.used = true) (hdvd : 2 ^ k ∣ o)
    (hend : o + size < 2 ^ 64) :
    (front ++ ⟨o, size, false⟩ :: tail).find? (fits size (2 ^ k)) = some ⟨o, size, false⟩ ∧
      memheapAlignedAlloc ⟨S, c, front ++ ⟨o, size, false⟩ :: tail⟩ size (2 ^ k) =
        (⟨S, addSize c size, front ++ ⟨o, size, true⟩ :: tail⟩, o) := by
  have hpos := Nat.pos_of_ne_zero hacc.1
  have hround : alignUp o (2 ^ k) = o := alignUp_of_dvd hdvd
  have hfits : fits size (2 ^ k) ⟨o, size, false⟩ = true := by
    simp [fits, hround]
  have hskip : ∀ a ∈ front, fits size (2 ^ k) a = false := fun a ha => by
    simp [fits, hused a ha]
  have hidx : (front ++ ⟨o, size, false⟩ :: tail).findIdx? (fits size (2 ^ k)) =
      some front.length := by
    have hfront : front.findIdx? (fits size (2 ^ k)) = none :=
      List.findIdx?_eq_none_iff.mpr hskip
    simp [List.findIdx?_append, hfront, List.findIdx?_cons, hfits]
  constructor
  · have hfront : front.find? (fits size (2 ^ k)) = none :=
      List.find?_eq_none.mpr fun a ha => by simp [hskip a ha]
    simp [List.find?_append, hfront, hfits]
  · rw [memheapAlignedAlloc_eq_reuse hacc (a := ⟨o, size, false⟩) (by simp) hidx
      (by simp only [hround, sizeMax]; omega)]
    -- Nothing is left of the block before or after the range, so the table only changes there.
    simp only [reuse, hround, gt_iff_lt, lt_irrefl, if_false]
    simp

/-- Requests that are laid out in a table of free blocks get the same blocks again. -/
theorem issue_again {S c : ℕ} {reqs : List (ℕ × ℕ)} {l : List Allocation} (hS : S < 2 ^ 63)
    (h : LaidOut S c reqs l) :
    ∀ (c' : ℕ) (front tail : List Allocation), (∀ a ∈ front, a.used = true) →
      c' + usedBytes l < 2 ^ 64 →
      issue ⟨S, c', front ++ l.map Allocation.freed ++ tail⟩ reqs =
        (⟨S, c' + usedBytes l, front ++ l ++ tail⟩, l.map Allocation.offset) := by
  -- By induction on the layout. In front stand the blocks that are taken again already.
  induction h with
  | nil =>
    intro c' front tail _ _
    simp [issue, usedBytes]
  | @cons c o size align reqs l hacc halign hdvd hc hend hrest ih =>
    intro c' front tail hused hbytes
    obtain ⟨k, rfl, -⟩ := two_pow_le_of_lt (isPowerOfTwo_of_accepted hacc.2) halign
    simp only [usedBytes_cons, if_true] at hbytes ⊢
    -- The first free block is the block of the same request, and it fits exactly.
    have hfirst := (memheapAlignedAlloc_exact (S := S) (c := c') (l.map Allocation.freed ++ tail)
      hacc hused hdvd (by omega)).2
    rw [addSize_of_lt (by omega)] at hfirst
    -- That block is now in front, and the rest of the table is free.
    have hall : ∀ a ∈ front ++ [⟨o, size, true⟩], a.used = true := by
      intro a ha
      rcases List.mem_append.mp ha with ha | ha
      · exact hused a ha
      · rw [List.mem_singleton.mp ha]
    have hothers := ih (c' + size) _ tail hall (by omega)
    rw [List.map_cons, List.map_cons, List.append_assoc, List.cons_append]
    refine issue_cons hfirst (Eq.trans ?_ (hothers.trans ?_))
    · rw [List.append_assoc, List.append_assoc, List.singleton_append]
    · rw [Nat.add_assoc, List.append_assoc front, List.singleton_append]

/-- Issuing `reqs` on a heap gives what it gave the first time. On the way, every request finds a
free block that fits, and no block of the table changes its place or its size. -/
def SameLayout (first : Heap × List ℕ) (emptied : Heap) (reqs : List (ℕ × ℕ)) : Prop :=
  issue emptied reqs = first ∧
    ∀ k r, reqs[k]? = some r →
      ((issue emptied (reqs.take k)).1.allocs.find? (fits r.1 r.2)).isSome ∧
        (issue emptied (reqs.take k)).1.allocs.map Allocation.range =
          first.1.allocs.map Allocation.range

/-- Freed blocks keep their place and size. -/
theorem map_range_freed (l : List Allocation) :
    (l.map Allocation.freed).map Allocation.range = l.map Allocation.range := by
  rw [List.map_map]
  rfl

/-- A list of requests that succeeds on a fresh heap, freed in any order and issued again. -/
theorem sameLayout {S : ℕ} (hS : S < 2 ^ 63) {reqs : List (ℕ × ℕ)}
    (hlen : reqs.length ≤ maxAllocations) (hsized : ∀ r ∈ reqs, Sized S r)
    (hok : sizeMax ∉ (issue (memheapCreate S) reqs).2) {order : List ℕ}
    (hperm : order.Perm (issue (memheapCreate S) reqs).2) :
    SameLayout (issue (memheapCreate S) reqs) (freeAll (issue (memheapCreate S) reqs).1 order)
      reqs := by
  -- The first round appends one entry for each request.
  obtain ⟨l, c, hl, hbytes, hc, hfirst⟩ := issue_laidOut hS reqs (Nat.zero_le S)
    (fun a ha => absurd ha List.not_mem_nil) (by simpa using hlen) hsized hok
  rw [List.nil_append] at hfirst
  have hcreate : issue (memheapCreate S) reqs = (⟨S, c, l⟩, l.map Allocation.offset) := hfirst
  rw [hcreate] at hperm ⊢
  have hne : ∀ a ∈ l, a.offset ≠ sizeMax := fun a ha => by
    obtain ⟨-, -, -, hend⟩ := hl.block a ha
    rw [sizeMax]
    omega
  -- After all frees the table has the same entries, all of them free.
  have hempty : freeAll ⟨S, c, l⟩ order = ⟨S, c - usedBytes l, l.map Allocation.freed⟩ :=
    freeAll_eq hl.nodup (fun a ha => (hl.block a ha).1) hne (by omega) (by omega) hperm
  rw [hempty]
  constructor
  · -- Asking again in the same order takes each block back.
    have hagain := issue_again hS hl (c - usedBytes l) [] [] (by simp) (by omega)
    rw [List.nil_append, List.append_nil, List.nil_append, List.append_nil,
      Nat.sub_add_cancel (by omega)] at hagain
    exact hagain
  · -- Before the k-th request the first k blocks are in use again.
    rintro k ⟨size, align⟩ hk
    obtain ⟨hacc, halign, o, ho, hdvd, hend⟩ := hl.get hk
    obtain ⟨j, rfl, -⟩ := two_pow_le_of_lt (isPowerOfTwo_of_accepted hacc.2) halign
    have htable : (issue ⟨S, c - usedBytes l, l.map Allocation.freed⟩ (reqs.take k)).1.allocs =
        l.take k ++ (l.drop k).map Allocation.freed := by
      have hsub : usedBytes (l.take k) ≤ usedBytes l := usedBytes_sublist (List.take_sublist k l)
      have hagain := issue_again hS (hl.take k) (c - usedBytes l) []
        ((l.drop k).map Allocation.freed) (by simp) (by omega)
      rw [List.nil_append, List.nil_append, ← List.map_append, List.take_append_drop] at hagain
      rw [hagain]
    rw [htable]
    obtain ⟨hlt, hget⟩ := List.getElem?_eq_some_iff.mp ho
    constructor
    · rw [List.drop_eq_getElem_cons hlt, hget, List.map_cons]
      have hused : ∀ a ∈ l.take k, a.used = true := fun a ha =>
        (hl.block a (List.mem_of_mem_take ha)).1
      have hexact := (memheapAlignedAlloc_exact (S := S) (c := c)
        ((l.drop (k + 1)).map Allocation.freed) hacc hused hdvd (by omega)).1
      exact Option.isSome_of_eq_some hexact
    · rw [List.map_append, map_range_freed, ← List.map_append, List.take_append_drop]

end EpDemo.Memheap
