import EpDemo.Mlx5gda
import EpDemo.Proofs.Memheap.Used

/-!
# `EpDemo.Proofs.Mlx5gda.Create`: a queue pair that cannot be created

`mlx5gda_create_rc_qp` makes four requests to the control-buffer heap: the first two in
`mlx5gda_create_cq`, for the completion queue and its doorbell record, and two of its own. When a
step fails after `mlx5gda_create_cq` has returned, the label `fail` frees what the requests were
given, and the objects of the device are destroyed (`Undone`). The label `fail` of
`mlx5gda_create_cq` itself frees no memory: what it had taken stays taken (`Kept`).

`mlx5gdaCreateRcQp_cases` is the outcome of a creation: undone, kept, or a queue pair. Both kinds
of failure leave the same objects as before.
-/

set_option autoImplicit false

namespace EpDemo.Mlx5gda

open EpDemo.Library EpDemo.Memheap

/-! ### The requests of a creation -/

/-- The bytes of a queue for `wqe` entries. -/
def queueBytes (wqe : ℤ) : ℕ := roundUpPow2 wqe.toNat * queueEntryBytes

/-- The requests of one creation, in the order in which they are made. -/
def creationRequests (wqe : ℤ) : List (ℕ × ℕ) :=
  [(queueBytes wqe, 2 ^ adapterPageShift), (dbrBytes, defaultAlign dbrBytes),
    (queueBytes wqe, 2 ^ adapterPageShift), (dbrBytes, defaultAlign dbrBytes)]

/-- The alignment of a page is an even power of two. -/
theorem evenAlign_page : EvenAlign (2 ^ adapterPageShift) := ⟨12, rfl, by decide, by decide⟩

/-- So is the default alignment of a doorbell record. -/
theorem evenAlign_dbr : EvenAlign (defaultAlign dbrBytes) := ⟨3, by decide, by decide, by decide⟩

/-- So are the alignments of all requests of a creation. -/
theorem evenAlign_of_mem {wqe : ℤ} : ∀ r ∈ creationRequests wqe, EvenAlign r.2 := by
  intro r hr
  simp only [creationRequests, List.mem_cons, List.not_mem_nil, or_false] at hr
  rcases hr with rfl | rfl | rfl | rfl
  · exact evenAlign_page
  · exact evenAlign_dbr
  · exact evenAlign_page
  · exact evenAlign_dbr

/-- The request for the completion queue is served. -/
def CqServed (h : Heap) (wqe : ℤ) : Prop :=
  0 < wqe ∧ (memheapAlignedAlloc h (queueBytes wqe) (2 ^ adapterPageShift)).2 ≠ sizeMax

/-- The steps of `mlx5gda_create_cq` after that request all succeed. -/
def CqCompletes (h : Heap) (wqe : ℤ) (ans : CqAnswers) : Prop :=
  ans.memset = true ∧
    (memheapAlloc (memheapAlignedAlloc h (queueBytes wqe) (2 ^ adapterPageShift)).1 dbrBytes).2 ≠
      sizeMax ∧
    ans.malloc = true ∧ ans.queryEqn = true ∧ ans.allocUar = true ∧ ans.synchronize = true ∧
    ans.objCreate = true

/-- The creation fails in `mlx5gda_create_cq` after the memory of the completion queue was
taken. -/
def FailsInCq (h : Heap) (wqe : ℤ) (ans : QpAnswers) : Prop :=
  ans.calloc = true ∧ ans.queryPort = true ∧ ans.generalCmd = true ∧ ans.cqeVersion = 1 ∧
    CqServed h wqe ∧ ¬CqCompletes h wqe ans.cq

instance (h : Heap) (wqe : ℤ) : Decidable (CqServed h wqe) :=
  inferInstanceAs (Decidable (_ ∧ _))

instance (h : Heap) (wqe : ℤ) (ans : CqAnswers) : Decidable (CqCompletes h wqe ans) :=
  inferInstanceAs (Decidable (_ ∧ _))

instance (h : Heap) (wqe : ℤ) (ans : QpAnswers) : Decidable (FailsInCq h wqe ans) :=
  inferInstanceAs (Decidable (_ ∧ _))

/-! ### The completion queue -/

/-- The first `k` requests of a creation were served and are still taken in `d'`. The objects are
those of `d`. -/
structure Kept (d : Device) (wqe : ℤ) (k : ℕ) (d' : Device) : Prop where
  served : sizeMax ∉ (issue d.heap ((creationRequests wqe).take k)).2
  heap : d'.heap = (issue d.heap ((creationRequests wqe).take k)).1
  objects : d.objects.Settled d'.objects
  next_le : d.objects.next ≤ d'.objects.next
  qps : d'.qpState = d.qpState ∧ d'.issued = d.issued

/-- The first `k` requests of a creation were served and were freed again in `d'`. The objects are
those of `d`. -/
structure Undone (d : Device) (wqe : ℤ) (k : ℕ) (d' : Device) : Prop where
  served : sizeMax ∉ (issue d.heap ((creationRequests wqe).take k)).2
  heap : d'.heap = freeAll (issue d.heap ((creationRequests wqe).take k)).1
    (issue d.heap ((creationRequests wqe).take k)).2
  objects : d.objects.Settled d'.objects
  next_le : d.objects.next ≤ d'.objects.next
  qps : d'.qpState = d.qpState ∧ d'.issued = d.issued

/-- The completion queue `cq` was created: two requests were served, and there are two objects
more. -/
structure CqCreated (d : Device) (wqe : ℤ) (cq : Cq) (d' : Device) : Prop where
  offsets : cq.cqOffset ≠ sizeMax ∧ cq.dbrOffset ≠ sizeMax
  heap : issue d.heap ((creationRequests wqe).take 2) = (d'.heap, [cq.cqOffset, cq.dbrOffset])
  uar : cq.uar = d.objects.next
  mcq : cq.mcq = d.objects.next + 1
  objects : d'.objects = (d.objects.acquire .uar).acquire .cq
  qps : d'.qpState = d.qpState ∧ d'.issued = d.issued

/-- Memory that was taken is all that changed. -/
theorem Kept.of_issue {d : Device} {wqe : ℤ} {k : ℕ} {h : Heap} {os : List ℕ}
    (hissue : issue d.heap ((creationRequests wqe).take k) = (h, os)) (hserved : sizeMax ∉ os) :
    Kept d wqe k { d with heap := h } where
  served := by rw [hissue]; exact hserved
  heap := by rw [hissue]
  objects := .refl _
  next_le := le_rfl
  qps := ⟨rfl, rfl⟩

/-- A UAR was created and destroyed as well. -/
theorem Kept.of_uar {d : Device} {wqe : ℤ} {k : ℕ} {h : Heap} {os : List ℕ}
    (hissue : issue d.heap ((creationRequests wqe).take k) = (h, os)) (hserved : sizeMax ∉ os) :
    Kept d wqe k
      (Device.destroy (Device.create { d with heap := h } .uar).1 .uar d.objects.next) where
  served := by rw [hissue]; exact hserved
  heap := by rw [hissue]; rfl
  objects := ⟨[(.uar, d.objects.next)], List.nodup_singleton _, rfl, .refl _⟩
  next_le := Nat.le_succ _
  qps := ⟨rfl, rfl⟩

/-- The outcomes of `mlx5gda_create_cq`. -/
theorem mlx5gdaCreateCq_cases (d : Device) (wqe : ℤ) (ans : CqAnswers) :
    (¬CqServed d.heap wqe ∧ mlx5gdaCreateCq d wqe ans = (d, none)) ∨
    (CqServed d.heap wqe ∧ ¬CqCompletes d.heap wqe ans ∧
      ∃ k d', (k = 1 ∨ k = 2) ∧ Kept d wqe k d' ∧ mlx5gdaCreateCq d wqe ans = (d', none)) ∨
    (CqServed d.heap wqe ∧ CqCompletes d.heap wqe ans ∧
      ∃ cq d', CqCreated d wqe cq d' ∧ mlx5gdaCreateCq d wqe ans = (d', some cq)) := by
  by_cases hwqe : wqe ≤ 0
  · exact Or.inl ⟨fun h => absurd h.1 (by omega), if_pos hwqe⟩
  obtain ⟨h₁, o₁, hfirst⟩ : ∃ h₁ o₁,
      memheapAlignedAlloc d.heap (queueBytes wqe) (2 ^ adapterPageShift) = (h₁, o₁) := ⟨_, _, rfl⟩
  obtain ⟨h₂, o₂, hsecond⟩ : ∃ h₂ o₂, memheapAlloc h₁ dbrBytes = (h₂, o₂) := ⟨_, _, rfl⟩
  have hissue₁ : issue d.heap ((creationRequests wqe).take 1) = (h₁, [o₁]) :=
    issue_cons hfirst rfl
  have hissue₂ : issue d.heap ((creationRequests wqe).take 2) = (h₂, [o₁, o₂]) :=
    issue_cons hfirst (issue_cons (show memheapAlignedAlloc h₁ dbrBytes _ = _ from hsecond) rfl)
  have htake₁ : d.alignedAlloc (roundUpPow2 wqe.toNat * queueEntryBytes) (2 ^ adapterPageShift) =
      ({ d with heap := h₁ }, o₁) := by
    rw [Device.alignedAlloc, ← queueBytes, hfirst]
  have htake₂ : Device.alloc { d with heap := h₁ } dbrBytes = ({ d with heap := h₂ }, o₂) := by
    rw [Device.alloc, hsecond]
  unfold mlx5gdaCreateCq CqServed CqCompletes
  rw [if_neg hwqe, hfirst, hsecond]
  simp only [htake₁, htake₂]
  by_cases ho₁ : o₁ = sizeMax
  · left
    have hsame : h₁ = d.heap := by
      have hrefused := request_refused evenAlign_page (congrArg Prod.snd hfirst |>.trans ho₁)
      rwa [hfirst] at hrefused
    rw [if_pos ho₁, hsame]
    exact ⟨fun h => h.2 ho₁, rfl⟩
  have hserved : 0 < wqe ∧ o₁ ≠ sizeMax := ⟨by omega, ho₁⟩
  have hone : sizeMax ∉ [o₁] := by simpa using Ne.symm ho₁
  right
  rw [if_neg ho₁]
  cases hmemset : ans.memset with
  | false => exact Or.inl ⟨hserved, by simp, 1, _, Or.inl rfl, .of_issue hissue₁ hone, rfl⟩
  | true =>
    simp only [Bool.not_true, Bool.false_eq_true, if_false]
    by_cases ho₂ : o₂ = sizeMax
    · -- The doorbell record is refused, and the memory of the queue stays taken.
      have hsame : h₂ = h₁ := by
        have hrefused := request_refused evenAlign_dbr (congrArg Prod.snd hsecond |>.trans ho₂)
        exact (congrArg Prod.fst hsecond).symm.trans hrefused
      rw [if_pos ho₂, hsame]
      exact Or.inl ⟨hserved, by simp [ho₂], 1, _, Or.inl rfl, .of_issue hissue₁ hone, rfl⟩
    have htwo : sizeMax ∉ [o₁, o₂] := by simpa using ⟨Ne.symm ho₁, Ne.symm ho₂⟩
    rw [if_neg ho₂]
    cases hmalloc : ans.malloc with
    | false => exact Or.inl ⟨hserved, by simp, 2, _, Or.inr rfl, .of_issue hissue₂ htwo, rfl⟩
    | true =>
    cases hqueryEqn : ans.queryEqn with
    | false => exact Or.inl ⟨hserved, by simp, 2, _, Or.inr rfl, .of_issue hissue₂ htwo, rfl⟩
    | true =>
    cases hallocUar : ans.allocUar with
    | false => exact Or.inl ⟨hserved, by simp, 2, _, Or.inr rfl, .of_issue hissue₂ htwo, rfl⟩
    | true =>
    cases hsync : ans.synchronize with
    | false => exact Or.inl ⟨hserved, by simp, 2, _, Or.inr rfl, .of_uar hissue₂ htwo, rfl⟩
    | true =>
    cases hobj : ans.objCreate with
    | false => exact Or.inl ⟨hserved, by simp, 2, _, Or.inr rfl, .of_uar hissue₂ htwo, rfl⟩
    | true =>
      exact Or.inr ⟨hserved, ⟨trivial, ho₂, rfl, rfl, rfl, rfl, rfl⟩,
        ⟨d.objects.next + 1, d.objects.next, ans.cqn, roundUpPow2 wqe.toNat, o₁, o₂⟩,
        ((Device.create { d with heap := h₂ } .uar).1.create .cq).1,
        ⟨⟨ho₁, ho₂⟩, hissue₂, rfl, rfl, rfl, rfl, rfl⟩, rfl⟩

/-! ### The queue pair -/

/-- The offsets that a queue pair owns, in the order in which they were requested. -/
def Qp.offsets (qp : Qp) : List ℕ :=
  [qp.sendCq.cqOffset, qp.sendCq.dbrOffset, qp.wqOffset, qp.dbrOffset]

/-- The test before a free is one that `memheap_free` makes itself. -/
theorem Device.heap_free_if (d : Device) (offset : ℕ) :
    (if offset ≠ sizeMax then d.free offset else d).heap = memheapFree d.heap offset := by
  by_cases h : offset = sizeMax
  · rw [if_neg (not_not.mpr h)]
    exact (if_pos h).symm
  · rw [if_pos h]
    rfl

/-- A free changes the heap only. -/
theorem Device.objects_free_if (d : Device) (offset : ℕ) :
    (if offset ≠ sizeMax then d.free offset else d).objects = d.objects ∧
      (if offset ≠ sizeMax then d.free offset else d).qpState = d.qpState ∧
      (if offset ≠ sizeMax then d.free offset else d).issued = d.issued := by
  split
  · exact ⟨rfl, rfl, rfl⟩
  · exact ⟨rfl, rfl, rfl⟩

/-- The label `fail` of `mlx5gda_create_rc_qp`, once the completion queue was created. -/
theorem createRcQpFail_some (d : Device) (uar : Option ℕ) (cq : Cq) (wqOffset dbrOffset : ℕ) :
    (createRcQpFail d uar (some cq) wqOffset dbrOffset).heap =
        freeAll d.heap [cq.cqOffset, cq.dbrOffset, wqOffset, dbrOffset] ∧
      (createRcQpFail d uar (some cq) wqOffset dbrOffset).objects =
        ((uar.elim d.objects fun id => d.objects.release (.uar, id)).release
          (.cq, cq.mcq)).release (.uar, cq.uar) ∧
      (createRcQpFail d uar (some cq) wqOffset dbrOffset).qpState = d.qpState ∧
      (createRcQpFail d uar (some cq) wqOffset dbrOffset).issued = d.issued := by
  unfold createRcQpFail
  simp only [Device.heap_free_if, Device.objects_free_if]
  cases uar with
  | none => exact ⟨rfl, rfl, rfl, rfl⟩
  | some id => exact ⟨rfl, rfl, rfl, rfl⟩

/-- `mlx5gda_destroy_qp` frees the offsets of the queue pair and destroys its four objects. -/
theorem mlx5gdaDestroyQp_eq (d : Device) (qp : Qp) :
    (mlx5gdaDestroyQp d qp).heap = freeAll d.heap qp.offsets ∧
      (mlx5gdaDestroyQp d qp).objects =
        (((d.objects.release (.qp, qp.mqp)).release (.uar, qp.uar)).release
          (.cq, qp.sendCq.mcq)).release (.uar, qp.sendCq.uar) ∧
      (mlx5gdaDestroyQp d qp).qpState = Function.update d.qpState qp.mqp none ∧
      (mlx5gdaDestroyQp d qp).issued = d.issued := by
  unfold mlx5gdaDestroyQp
  simp only [Device.heap_free_if, Device.objects_free_if]
  exact ⟨rfl, rfl, rfl, rfl⟩

/-- The queue pair `qp` was created: four requests were served, there are four objects more, and
the new queue pair is in RESET. -/
structure QpCreated (d : Device) (wqe : ℤ) (qp : Qp) (d' : Device) : Prop where
  served : sizeMax ∉ qp.offsets
  heap : issue d.heap (creationRequests wqe) = (d'.heap, qp.offsets)
  cqUar : qp.sendCq.uar = d.objects.next
  mcq : qp.sendCq.mcq = d.objects.next + 1
  uar : qp.uar = d.objects.next + 2
  mqp : qp.mqp = d.objects.next + 3
  objects : d'.objects = (((d.objects.acquire .uar).acquire .cq).acquire .uar).acquire .qp
  qpState : d'.qpState = Function.update d.qpState qp.mqp (some .reset)
  issued : d'.issued = d.issued

/-- Destroying a completion queue settles the ledger that `mlx5gda_create_cq` left. A UAR that was
created after it is settled too. -/
theorem CqCreated.settled {d d₁ : Device} {wqe : ℤ} {cq : Cq} (hcq : CqCreated d wqe cq d₁)
    {l : Ledger Obj}
    (hl : l = d₁.objects ∨ l = (d₁.objects.acquire .uar).release (.uar, d₁.objects.next)) :
    d.objects.Settled ((l.release (.cq, cq.mcq)).release (.uar, cq.uar)) := by
  rw [hcq.objects] at hl
  rw [hcq.uar, hcq.mcq]
  rcases hl with rfl | rfl
  · refine ⟨[(.cq, d.objects.next + 1), (.uar, d.objects.next)], by simp, rfl, ?_⟩
    exact (List.Perm.swap _ _ _)
  · refine ⟨[(.uar, d.objects.next + 2), (.cq, d.objects.next + 1), (.uar, d.objects.next)],
      by simp, rfl, ?_⟩
    exact (List.reverse_perm [_, _, _]).append_right _

/-- A failure after the completion queue was created is undone. -/
theorem CqCreated.undone {d d₁ d₂ : Device} {wqe : ℤ} {cq : Cq} (hcq : CqCreated d wqe cq d₁)
    {uar : Option ℕ} {wqOffset dbrOffset k : ℕ}
    (hserved : sizeMax ∉ (issue d.heap ((creationRequests wqe).take k)).2)
    (hheap : freeAll d₂.heap [cq.cqOffset, cq.dbrOffset, wqOffset, dbrOffset] =
      freeAll (issue d.heap ((creationRequests wqe).take k)).1
        (issue d.heap ((creationRequests wqe).take k)).2)
    (hobjects : uar.elim d₂.objects (fun id => d₂.objects.release (.uar, id)) = d₁.objects ∨
      uar.elim d₂.objects (fun id => d₂.objects.release (.uar, id)) =
        (d₁.objects.acquire .uar).release (.uar, d₁.objects.next))
    (hqps : d₂.qpState = d₁.qpState ∧ d₂.issued = d₁.issued) :
    Undone d wqe k (createRcQpFail d₂ uar (some cq) wqOffset dbrOffset) := by
  obtain ⟨hheap', hobjects', hstate, hissued⟩ := createRcQpFail_some d₂ uar cq wqOffset dbrOffset
  have hnext : d₁.objects.next = d.objects.next + 2 := by rw [hcq.objects]; rfl
  -- The heap, the objects, the next object number and the queue pairs.
  refine ⟨hserved, hheap'.trans hheap, ?_, ?_, ?_⟩
  · rw [hobjects']
    exact hcq.settled hobjects
  · rw [hobjects', Ledger.next_release, Ledger.next_release]
    -- The access region was not allocated yet, or it is released again.
    rcases hobjects with heq | heq
    · rw [heq]
      omega
    · rw [heq, Ledger.next_release, Ledger.next_acquire]
      omega
  · rw [hstate, hissued, hqps.1, hqps.2]
    exact hcq.qps

/-- A failure before the completion queue is created changes nothing. -/
theorem Undone.refl (d : Device) (wqe : ℤ) : Undone d wqe 0 d where
  served := List.not_mem_nil
  heap := rfl
  objects := .refl _
  next_le := le_rfl
  qps := ⟨rfl, rfl⟩

/-- The outcomes of `mlx5gda_create_rc_qp` once the completion queue was created. -/
theorem mlx5gdaCreateRcQp_of_cq {d d₁ : Device} {wqe : ℤ} {ans : QpAnswers} {cq : Cq}
    (hwqe : ¬wqe ≤ 0) (hready : ans.calloc = true ∧ ans.queryPort = true ∧ ans.generalCmd = true ∧
      ans.cqeVersion = 1)
    (hcq : CqCreated d wqe cq d₁) (heq : mlx5gdaCreateCq d wqe ans.cq = (d₁, some cq)) :
    (∃ k d', k ≤ 4 ∧ Undone d wqe k d' ∧ mlx5gdaCreateRcQp d wqe ans = (d', none)) ∨
      ∃ qp d', QpCreated d wqe qp d' ∧ mlx5gdaCreateRcQp d wqe ans = (d', some qp) := by
  -- The two blocks of the completion queue are the first two requests.
  obtain ⟨ho₁, ho₂⟩ := hcq.offsets
  have htwo : sizeMax ∉ [cq.cqOffset, cq.dbrOffset] := by simpa using ⟨Ne.symm ho₁, Ne.symm ho₂⟩
  have hserved₂ : sizeMax ∉ (issue d.heap ((creationRequests wqe).take 2)).2 := by
    rw [hcq.heap]
    exact htwo
  -- Then the source asks for the ring and for the doorbell record.
  obtain ⟨h₃, o₃, hthird⟩ : ∃ h₃ o₃,
      memheapAlignedAlloc d₁.heap (queueBytes wqe) (2 ^ adapterPageShift) = (h₃, o₃) := ⟨_, _, rfl⟩
  obtain ⟨h₄, o₄, hfourth⟩ : ∃ h₄ o₄, memheapAlloc h₃ dbrBytes = (h₄, o₄) := ⟨_, _, rfl⟩
  have hissue₃ : issue d.heap ((creationRequests wqe).take 3) =
      (h₃, [cq.cqOffset, cq.dbrOffset, o₃]) := issue_append hcq.heap (issue_cons hthird rfl)
  have hissue₄ : issue d.heap (creationRequests wqe) =
      (h₄, [cq.cqOffset, cq.dbrOffset, o₃, o₄]) :=
    issue_append hissue₃
      (issue_cons (show memheapAlignedAlloc h₃ dbrBytes _ = _ from hfourth) rfl)
  -- From here the cases follow the order in which the source can fail.
  unfold mlx5gdaCreateRcQp
  simp only [if_neg hwqe, hready.1, hready.2.1, hready.2.2.1, hready.2.2.2, Bool.not_true,
    Bool.false_eq_true, if_false, ne_eq, not_true_eq_false, heq]
  -- mlx5dv_devx_alloc_uar fails, with nothing but the completion queue to undo.
  cases hallocUar : ans.allocUar with
  | false =>
    refine Or.inl ⟨2, createRcQpFail d₁ none (some cq) sizeMax sizeMax, by omega,
      hcq.undone hserved₂ ?_ (Or.inl rfl) ⟨rfl, rfl⟩, rfl⟩
    rw [hcq.heap]
    rfl
  | true =>
  -- cudaHostRegister fails, and create_uar frees the region itself.
  cases hregister : ans.hostRegister with
  | false =>
    have hcreate : createUar d₁ true false =
        ({ d₁ with objects := (d₁.objects.acquire .uar).release (.uar, d₁.objects.next) }, none) :=
      rfl
    simp only [hcreate]
    refine Or.inl ⟨2, createRcQpFail
      { d₁ with objects := (d₁.objects.acquire .uar).release (.uar, d₁.objects.next) } none
      (some cq) sizeMax sizeMax, by omega, hcq.undone hserved₂ ?_ (Or.inr rfl) ⟨rfl, rfl⟩, rfl⟩
    rw [hcq.heap]
    rfl
  | true =>
  have hcreate : createUar d₁ true true =
      ({ d₁ with objects := d₁.objects.acquire .uar }, some d₁.objects.next) := rfl
  have htake₃ : Device.alignedAlloc { d₁ with objects := d₁.objects.acquire .uar }
      (roundUpPow2 wqe.toNat * queueEntryBytes) (2 ^ adapterPageShift) =
      ({ d₁ with heap := h₃, objects := d₁.objects.acquire .uar }, o₃) := by
    rw [Device.alignedAlloc, ← queueBytes, hthird]
  have htake₄ : Device.alloc { d₁ with heap := h₃, objects := d₁.objects.acquire .uar } dbrBytes =
      ({ d₁ with heap := h₄, objects := d₁.objects.acquire .uar }, o₄) := by
    rw [Device.alloc, hfourth]
  simp only [hcreate, htake₃, htake₄]
  -- There is no room for the ring, and the heap stays as it was.
  by_cases ho₃ : o₃ = sizeMax
  · have hsame : h₃ = d₁.heap := by
      have hrefused := request_refused evenAlign_page (congrArg Prod.snd hthird |>.trans ho₃)
      rwa [hthird] at hrefused
    rw [if_pos ho₃, hsame]
    refine Or.inl ⟨2, createRcQpFail { d₁ with objects := d₁.objects.acquire .uar }
      (some d₁.objects.next) (some cq) sizeMax sizeMax, by omega,
      hcq.undone hserved₂ ?_ (Or.inr rfl) ⟨rfl, rfl⟩, rfl⟩
    rw [hcq.heap]
    rfl
  have hserved₃ : sizeMax ∉ (issue d.heap ((creationRequests wqe).take 3)).2 := by
    rw [hissue₃]
    simpa using ⟨Ne.symm ho₁, Ne.symm ho₂, Ne.symm ho₃⟩
  rw [if_neg ho₃]
  -- There is room for the ring, but not for the doorbell record.
  by_cases ho₄ : o₄ = sizeMax
  · have hsame : h₄ = h₃ := by
      have hrefused := request_refused evenAlign_dbr (congrArg Prod.snd hfourth |>.trans ho₄)
      exact (congrArg Prod.fst hfourth).symm.trans hrefused
    rw [if_pos ho₄, hsame]
    refine Or.inl ⟨3, createRcQpFail
      { d₁ with heap := h₃, objects := d₁.objects.acquire .uar } (some d₁.objects.next) (some cq)
      o₃ sizeMax, by omega, hcq.undone hserved₃ ?_ (Or.inr rfl) ⟨rfl, rfl⟩, rfl⟩
    rw [hissue₃]
    rfl
  have hserved₄ : sizeMax ∉ [cq.cqOffset, cq.dbrOffset, o₃, o₄] := by
    simpa using ⟨Ne.symm ho₁, Ne.symm ho₂, Ne.symm ho₃, Ne.symm ho₄⟩
  rw [if_neg ho₄]
  -- The last step is create_qp, where all four blocks are given back.
  cases hlast : (!ans.memset || !ans.synchronize || !ans.objCreate) with
  | true =>
    have htake : (creationRequests wqe).take 4 = creationRequests wqe := rfl
    refine Or.inl ⟨4, createRcQpFail
      { d₁ with heap := h₄, objects := d₁.objects.acquire .uar } (some d₁.objects.next) (some cq)
      o₃ o₄, le_rfl, hcq.undone ?_ ?_ (Or.inr rfl) ⟨rfl, rfl⟩, rfl⟩
    · rw [htake, hissue₄]
      exact hserved₄
    · rw [htake, hissue₄]
  | false =>
    -- All steps succeed, and every field of the queue pair is known.
    refine Or.inr ⟨⟨d₁.objects.next + 1, cq, d₁.objects.next, ans.linkLayer, ans.qpn,
      roundUpPow2 wqe.toNat, o₃, o₄⟩, _, ⟨hserved₄, hissue₄, hcq.uar, hcq.mcq, ?_, ?_, ?_, ?_, ?_⟩,
      rfl⟩
    · rw [hcq.objects]
      rfl
    · rw [hcq.objects]
      rfl
    · show (d₁.objects.acquire .uar).acquire .qp = _
      rw [hcq.objects]
    · show Function.update d₁.qpState _ _ = _
      rw [hcq.qps.1]
      rfl
    · exact hcq.qps.2

/-- Without the tests that come before the completion queue nothing is done. -/
theorem mlx5gdaCreateRcQp_of_not {d : Device} {wqe : ℤ} {ans : QpAnswers}
    (h : ¬(0 < wqe ∧ ans.calloc = true ∧ ans.queryPort = true ∧ ans.generalCmd = true ∧
      ans.cqeVersion = 1)) : mlx5gdaCreateRcQp d wqe ans = (d, none) := by
  unfold mlx5gdaCreateRcQp
  split_ifs <;> simp_all

/-- The outcomes of `mlx5gda_create_rc_qp`: a failure that is undone, a failure that keeps memory,
or a queue pair. -/
theorem mlx5gdaCreateRcQp_cases (d : Device) (wqe : ℤ) (ans : QpAnswers) :
    (¬FailsInCq d.heap wqe ans ∧
      ∃ k d', k ≤ 4 ∧ Undone d wqe k d' ∧ mlx5gdaCreateRcQp d wqe ans = (d', none)) ∨
    (FailsInCq d.heap wqe ans ∧
      ∃ k d', (k = 1 ∨ k = 2) ∧ Kept d wqe k d' ∧ mlx5gdaCreateRcQp d wqe ans = (d', none)) ∨
    (¬FailsInCq d.heap wqe ans ∧
      ∃ qp d', QpCreated d wqe qp d' ∧ mlx5gdaCreateRcQp d wqe ans = (d', some qp)) := by
  by_cases hready : 0 < wqe ∧ ans.calloc = true ∧ ans.queryPort = true ∧ ans.generalCmd = true ∧
      ans.cqeVersion = 1
  swap
  · -- The completion queue is not reached.
    have hno : ¬FailsInCq d.heap wqe ans := fun h =>
      hready ⟨h.2.2.2.2.1.1, h.1, h.2.1, h.2.2.1, h.2.2.2.1⟩
    exact Or.inl ⟨hno, 0, d, by omega, .refl d wqe, mlx5gdaCreateRcQp_of_not hready⟩
  obtain ⟨hwqe, hready⟩ := hready
  have hwqe' : ¬wqe ≤ 0 := by omega
  have hfails : FailsInCq d.heap wqe ans ↔
      CqServed d.heap wqe ∧ ¬CqCompletes d.heap wqe ans.cq := by
    simp [FailsInCq, hready]
  rw [hfails]
  rcases mlx5gdaCreateCq_cases d wqe ans.cq with
    ⟨hserved, heq⟩ | ⟨hserved, hfailed, k, d', hk, hkept, heq⟩ | ⟨hserved, hdone, cq, d₁, hcq, heq⟩
  · refine Or.inl ⟨fun h => hserved h.1, 0, d, by omega, .refl d wqe, ?_⟩
    simp [mlx5gdaCreateRcQp, hwqe', hready, heq]
  · refine Or.inr (Or.inl ⟨⟨hserved, hfailed⟩, k, d', hk, hkept, ?_⟩)
    simp [mlx5gdaCreateRcQp, hwqe', hready, heq]
  · have hno : ¬(CqServed d.heap wqe ∧ ¬CqCompletes d.heap wqe ans.cq) := fun h => h.2 hdone
    rcases mlx5gdaCreateRcQp_of_cq hwqe' hready hcq heq with hnone | hsome
    · exact Or.inl ⟨hno, hnone⟩
    · exact Or.inr (Or.inr ⟨hno, hsome⟩)

/-- Every call outside the heap succeeds during the creation. -/
def QpAnswers.Succeeds (ans : QpAnswers) : Prop :=
  (ans.calloc = true ∧ ans.queryPort = true ∧ ans.generalCmd = true ∧ ans.cqeVersion = 1) ∧
    (ans.cq.memset = true ∧ ans.cq.malloc = true ∧ ans.cq.queryEqn = true ∧
      ans.cq.allocUar = true ∧ ans.cq.synchronize = true ∧ ans.cq.objCreate = true) ∧
    ans.allocUar = true ∧ ans.hostRegister = true ∧ ans.memset = true ∧ ans.synchronize = true ∧
    ans.objCreate = true

/-- When every call succeeds and the heap serves the four requests, there is a queue pair. -/
theorem mlx5gdaCreateRcQp_succeeds {d : Device} {wqe : ℤ} {ans : QpAnswers} (hwqe : 0 < wqe)
    (hans : ans.Succeeds) (hserved : sizeMax ∉ (issue d.heap (creationRequests wqe)).2) :
    ∃ qp d', QpCreated d wqe qp d' ∧ mlx5gdaCreateRcQp d wqe ans = (d', some qp) := by
  have hsome : (mlx5gdaCreateRcQp d wqe ans).2 ≠ none := by
    obtain ⟨hready, ⟨hmemset, hmalloc, hqueryEqn, hallocUar, hsync, hobj⟩, hallocUar', hregister,
      hmemset', hsync', hobj'⟩ := hans
    simp only [issue, creationRequests, queueBytes, List.mem_cons, List.not_mem_nil, or_false,
      not_or] at hserved
    obtain ⟨ho₁, ho₂, ho₃, ho₄⟩ := hserved
    simp [mlx5gdaCreateRcQp, mlx5gdaCreateCq, createUar, Device.alignedAlloc, Device.alloc,
      Device.create, memheapAlloc, not_le.mpr hwqe, hready, hmemset, hmalloc, hqueryEqn, hallocUar,
      hsync, hobj, hallocUar', hregister, hmemset', hsync', hobj', Ne.symm ho₁, Ne.symm ho₂,
      Ne.symm ho₃, Ne.symm ho₄]
  rcases mlx5gdaCreateRcQp_cases d wqe ans with
    ⟨-, k, d', -, -, heq⟩ | ⟨-, k, d', -, -, heq⟩ | ⟨-, hcreated⟩
  · rw [heq] at hsome
    exact absurd rfl hsome
  · rw [heq] at hsome
    exact absurd rfl hsome
  · exact hcreated

/-- A queue pair is there only when every call succeeded. -/
theorem QpAnswers.succeeds_of_some {d d' : Device} {wqe : ℤ} {ans : QpAnswers} {qp : Qp}
    (h : mlx5gdaCreateRcQp d wqe ans = (d', some qp)) : ans.Succeeds := by
  -- The checks at the start of the function refuse everything else.
  by_cases hready : 0 < wqe ∧ ans.calloc = true ∧ ans.queryPort = true ∧ ans.generalCmd = true ∧
      ans.cqeVersion = 1
  swap
  · rw [mlx5gdaCreateRcQp_of_not hready] at h
    cases h
  obtain ⟨hwqe, hcalloc, hport, hcmd, hversion⟩ := hready
  have hwqe' : ¬wqe ≤ 0 := by omega
  simp only [mlx5gdaCreateRcQp, hwqe', hcalloc, hport, hcmd, hversion, Bool.not_true,
    Bool.false_eq_true, if_false, ne_eq, not_true_eq_false] at h
  -- The completion queue has to be created, since otherwise the function fails.
  rcases mlx5gdaCreateCq_cases d wqe ans.cq with
    ⟨-, heq⟩ | ⟨-, -, k, d₁, -, -, heq⟩ | ⟨-, hcq, cq, d₁, -, heq⟩
  · simp [heq] at h
  · simp [heq] at h
  · obtain ⟨hmemset, -, hmalloc, hqueryEqn, hallocUar, hsync, hobj⟩ := hcq
    refine ⟨⟨hcalloc, hport, hcmd, hversion⟩,
      ⟨hmemset, hmalloc, hqueryEqn, hallocUar, hsync, hobj⟩, ?_⟩
    -- The remaining steps, in the order of the source.
    simp only [heq] at h
    cases huar : ans.allocUar with
    | false => simp [huar, createUar] at h
    | true =>
    cases hregister : ans.hostRegister with
    | false => simp [huar, hregister, createUar] at h
    | true =>
    cases hlast : (!ans.memset || !ans.synchronize || !ans.objCreate) with
    | true =>
      simp only [huar, hregister, hlast, createUar, Bool.not_true, Bool.false_eq_true, if_false,
        if_true] at h
      split_ifs at h <;> cases h
    | false => simpa [and_assoc] using hlast

/-! ### What a failed creation leaves -/

/-- The used entries of the heap are those that there were before, and every object that was created
was destroyed exactly once. -/
def Restored (d d' : Device) : Prop :=
  (usedRanges d'.heap.allocs).Perm (usedRanges d.heap.allocs) ∧ d.objects.Settled d'.objects

section

variable {d d' : Device} {wqe : ℤ} {k : ℕ}

/-- A creation makes at most four requests. -/
theorem length_take_creationRequests (wqe : ℤ) (k : ℕ) :
    ((creationRequests wqe).take k).length ≤ 4 :=
  (List.length_take_le' _ _).trans_eq rfl

/-- A failure that is undone restores the heap, when no other used entry starts at an offset that
was handed out. -/
theorem Undone.restored (h : Undone d wqe k d') (hroom : d.heap.allocs.length + 8 ≤ maxAllocations)
    (hun : Unshared d.heap (creationRequests wqe)) : Restored d d' := by
  have hlen := length_take_creationRequests wqe k
  refine ⟨?_, h.objects⟩
  rw [h.heap]
  exact freeAll_issue (fun r hr => evenAlign_of_mem r (List.mem_of_mem_take hr)) (by omega)
    h.served (hun.take k)

/-- A failure that keeps memory does not restore the heap. -/
theorem Kept.not_restored (h : Kept d wqe k d') (hk : 0 < k)
    (hroom : d.heap.allocs.length + 8 ≤ maxAllocations) : ¬Restored d d' := by
  have hlen := length_take_creationRequests wqe k
  rintro ⟨hperm, -⟩
  rw [h.heap] at hperm
  refine issue_not_perm (fun r hr => evenAlign_of_mem r (List.mem_of_mem_take hr)) (by omega)
    h.served ?_ hperm
  obtain ⟨k, rfl⟩ : ∃ n, k = n + 1 := ⟨k - 1, by omega⟩
  simp [creationRequests]

end

/-- A creation that fails in `mlx5gda_create_cq` after the memory of the completion queue was taken
does not restore the heap, on any heap whose table has room for what four requests can add to it.
One that fails elsewhere restores heap and objects when no other used entry starts at an offset that
is handed out, which `unshared_of_reachable` says of the runs that meet `CounterAtTop`. -/
theorem failed_creation_restored_iff (d : Device) (wqe : ℤ) (ans : QpAnswers)
    (hroom : d.heap.allocs.length + 8 ≤ maxAllocations)
    (hnone : (mlx5gdaCreateRcQp d wqe ans).2 = none) :
    (Restored d (mlx5gdaCreateRcQp d wqe ans).1 → ¬FailsInCq d.heap wqe ans) ∧
      (Unshared d.heap (creationRequests wqe) →
        (Restored d (mlx5gdaCreateRcQp d wqe ans).1 ↔ ¬FailsInCq d.heap wqe ans)) := by
  rcases mlx5gdaCreateRcQp_cases d wqe ans with
    ⟨hno, k, d', -, hundone, heq⟩ | ⟨hfails, k, d', hk, hkept, heq⟩ | ⟨-, qp, d', -, heq⟩
  · rw [heq]
    exact ⟨fun _ => hno, fun hun => iff_of_true (hundone.restored hroom hun) hno⟩
  · have hnot := hkept.not_restored (by omega) hroom
    rw [heq]
    exact ⟨fun hres => absurd hres hnot, fun _ => iff_of_false hnot (not_not.mpr hfails)⟩
  · rw [heq] at hnone
    exact absurd hnone (Option.some_ne_none qp)

/-- The last step fails, on a heap that was just created. -/
theorem failed_creation_restored :
    Restored (.fresh (2 ^ 30))
      (mlx5gdaCreateRcQp (.fresh (2 ^ 30)) 16384
        { QpAnswers.success .infiniband 1 1 with objCreate := false }).1 :=
  ((failed_creation_restored_iff _ _ _ (by decide) (by decide +kernel)).2
    (by decide +kernel)).mpr (by decide +kernel)

/-- When the completion queue itself cannot be created, its memory and its doorbell record stay
taken. -/
theorem failed_cq_keeps_memory :
    ¬ ∀ (S : ℕ) (u : Usage) (d : Device) (wqe : ℤ) (ans : QpAnswers), (sequences S).Reachable u →
      d.heap = u.heap → d.heap.allocs.length + 8 ≤ maxAllocations →
      (mlx5gdaCreateRcQp d wqe ans).2 = none → Restored d (mlx5gdaCreateRcQp d wqe ans).1 := by
  intro h
  have hrestored := h (2 ^ 30) (.fresh (2 ^ 30)) (.fresh (2 ^ 30)) 16384
    { QpAnswers.success .infiniband 1 1 with cq := { CqAnswers.success 1 with objCreate := false } }
    (.init rfl) rfl (by decide) (by decide +kernel)
  exact absurd hrestored.1 (by decide +kernel)

/-- In the runs of the heap whose calls meet `CounterAtTop`, requests that meet it too are
unshared. -/
theorem unshared_of_reachable {S : ℕ} (hS : S + S < 2 ^ 64) {u : Usage}
    (h : ((sequences S).restrict CounterAtTop).Reachable u) {wqe : ℤ}
    (hlegal : (calls.guarded CounterAtTop).Legal u
      ((creationRequests wqe).map fun r => .alignedAlloc r.1 r.2)) :
    Unshared u.heap (creationRequests wqe) :=
  (orderly_of_reachable hS h).unshared hS _ hlegal

end EpDemo.Mlx5gda
