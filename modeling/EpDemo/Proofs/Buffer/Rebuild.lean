import EpDemo.Proofs.Buffer.Calls
import EpDemo.Proofs.Buffer.FaultFree
import EpDemo.Proofs.Memheap.Replay

/-!
# `EpDemo.Proofs.Buffer.Rebuild`: the layout of the control buffer over rebuilds

`sameLayout` says of the heap alone that freeing everything and issuing the same requests again
gives the same offsets. `init_ibgda` issues the requests of `USE_QP_COUNT` creations on a fresh
heap, `update_local_qpns` frees exactly what they were given and issues them again. So every
`EpBuffer` that is reached without a failed rebuild is `Packed`: heap and offsets are those that the
fresh heap gives, and two of them agree slot by slot (`Packed.offsets_eq`).
-/

set_option autoImplicit false

namespace EpDemo.Lifecycle

open EpDemo.Library EpDemo.Memheap EpDemo.Mlx5gda
open EpDemo.Buffer (IpcBuffer maxQpCount)

/-! ### The memory of a slot -/

/-- The memory of the queue pair of a slot: completion queue, its doorbell record, work queue,
doorbell record. -/
def slotRanges (slot : Option Qp) : List (ℕ × ℕ) :=
  (slotOffsets slot).zip ((creationRequests qpDepth).map Prod.fst)

/-- The ranges of all slots are the offsets of all slots with the sizes that were requested. -/
theorem zip_offsets {qps : List (Option Qp)} (hfull : ∀ slot ∈ qps, ∃ qp, slot = some qp) :
    (qps.flatMap slotOffsets).zip ((setupRequests qps.length).map Prod.fst) =
      qps.flatMap slotRanges := by
  induction qps with
  | nil => rfl
  | cons slot qps ih =>
    obtain ⟨qp, rfl⟩ := hfull slot List.mem_cons_self
    have hrest := ih fun slot hslot => hfull slot (List.mem_cons_of_mem _ hslot)
    have hlen : (slotOffsets (some qp)).length = ((creationRequests qpDepth).map Prod.fst).length :=
      rfl
    have hsplit : setupRequests (qps.length + 1) =
        creationRequests qpDepth ++ setupRequests qps.length := by
      rw [Nat.add_comm, setupRequests_add]
      rfl
    rw [List.flatMap_cons, List.flatMap_cons, List.length_cons, hsplit, List.map_append,
      List.zip_append hlen, hrest]
    rfl

/-- The requests of the creations are ones that the callers of the heap make. -/
theorem sized_setupRequests (n : ℕ) : ∀ r ∈ setupRequests n, Sized ctrlBufSize r := by
  intro r hr
  have hsizes : ∀ r ∈ creationRequests qpDepth, r.1 ≤ ctrlBufSize ∧ Accepted r.1 r.2 := by
    decide +kernel
  obtain ⟨hsize, hacc⟩ := hsizes r (mem_setupRequests hr)
  obtain ⟨k, heq, hpos, hk⟩ := evenAlign_of_mem r (mem_setupRequests hr)
  refine ⟨hsize, ?_, isPowerOfTwo_of_accepted hacc.2⟩
  rw [heq]
  exact Nat.pow_lt_pow_right (by decide) (by omega)

/-- Each queue pair makes four requests. -/
theorem length_setupRequests (n : ℕ) : (setupRequests n).length = 4 * n := by
  induction n with
  | zero => rfl
  | succ n ih =>
    rw [setupRequests_succ, List.length_append, ih]
    rfl

/-- The table has an entry for each request. -/
theorem length_setupRequests_le {n : ℕ} (hn : n ≤ maxQpCount) :
    (setupRequests n).length ≤ maxAllocations := by
  rw [length_setupRequests]
  simp only [maxQpCount] at hn
  simp only [maxAllocations]
  omega

namespace EpBuffer

/-! ### The layout -/

/-- Every slot has a queue pair, and heap and offsets are those that a fresh heap gives. -/
structure Packed (ep : EpBuffer) : Prop where
  length : ep.qps.length = ep.useQpCount
  full : ∀ slot ∈ ep.qps, ∃ qp, slot = some qp
  heap : issue (memheapCreate ctrlBufSize) (setupRequests ep.useQpCount) =
    (ep.device.heap, ep.qps.flatMap slotOffsets)
  served : sizeMax ∉ ep.qps.flatMap slotOffsets

/-- The loops that set up queue pairs leave no slot without one. -/
theorem full_of_done {d : Device} {setups : ℕ → SetupAnswers} {n : ℕ} {ep : EpBuffer}
    (h : Done d setups n ep) (hlen : ep.qps.length = n) :
    ∀ slot ∈ ep.qps, ∃ qp, slot = some qp := by
  intro slot hslot
  obtain ⟨i, hi, rfl⟩ := List.mem_iff_getElem.mp hslot
  obtain ⟨qp, hqp, -⟩ := h.ready i (hlen ▸ hi)
  rw [List.getElem?_eq_getElem hi] at hqp
  exact ⟨qp, Option.some.inj hqp⟩

/-- `init_ibgda` packs the slots. -/
theorem packed_of_new {config : IpcBuffer} {ans : NewAnswers} {ep : EpBuffer}
    (h : new config ans = (ep, none)) (henabled : ep.ibgdaDisabled = false) : Packed ep := by
  obtain ⟨-, hsound, -, hsetup⟩ := new_cases h
  obtain ⟨-, -, -, hdone⟩ := hsetup henabled
  have hlen := hsound.enabled henabled
  have htake : ep.qps.take ep.useQpCount = ep.qps := List.take_of_length_le hlen.le
  have hheap := hdone.heap
  have hserved := hdone.served
  rw [htake] at hheap hserved
  exact ⟨hlen, full_of_done hdone hlen, hheap, hserved⟩

namespace Packed

variable {ep ep' : EpBuffer}

/-- The heap that the first loop of `update_local_qpns` leaves gives the same layout again. -/
theorem emptied (h : Packed ep) :
    issue ep.emptiedHeap (setupRequests ep.useQpCount) =
      (ep.device.heap, ep.qps.flatMap slotOffsets) := by
  have hserved : sizeMax ∉
      (issue (memheapCreate ctrlBufSize) (setupRequests ep.useQpCount)).2 := by
    rw [h.heap]
    exact h.served
  have hsame := (sameLayout (by decide) (length_setupRequests_le ep.useQpCount_le)
    (sized_setupRequests _) hserved (.refl _)).1
  rw [h.heap] at hsame
  exact hsame

/-- A heap that is packed serves `update_local_qpns`: the requests are those that filled it. -/
theorem servesUpdate (h : Packed ep) : ep.ServesUpdate := by
  rw [ServesUpdate, Serves, h.emptied]
  exact h.served

/-- A rebuild without a failure. -/
theorem update (h : Packed ep) (setups : ℕ → SetupAnswers)
    (hnone : (ep.updateLocalQpns setups).2 = none) : Packed (ep.updateLocalQpns setups).1 := by
  rcases updateLocalQpns_cases setups h.length.le with
    ⟨hlt, -⟩ | ⟨-, t, ht, ⟨t', heq, hset, hlen⟩ | ⟨i, u, t', e, heq, -⟩⟩
  · exact absurd h.length (by omega)
  · have huse : t'.useQpCount = ep.useQpCount := (ht.frame.trans hset.frame).useQpCount
    have hheap := hset.done.heap
    rw [ht.heap_eq h.length, h.emptied, List.take_of_length_le hlen.le] at hheap
    obtain ⟨hsame, hoffsets⟩ := Prod.mk.inj hheap
    rw [heq]
    refine ⟨hlen.trans huse.symm, full_of_done hset.done hlen, ?_, hoffsets ▸ h.served⟩
    rw [huse, h.heap, hsame, hoffsets]
  · rw [heq] at hnone
    cases hnone

/-- A call that keeps the queue pairs and the heap. -/
theorem of_kept (h : Packed ep) (hconfig : ep'.config = ep.config)
    (hheap : ep'.device.heap = ep.device.heap) (hqps : ep'.qps = ep.qps) : Packed ep' := by
  have huse : ep'.useQpCount = ep.useQpCount := by rw [useQpCount, useQpCount, hconfig]
  constructor
  · rw [hqps, huse, h.length]
  · rw [hqps]
    exact h.full
  · rw [huse, hheap, hqps]
    exact h.heap
  · rw [hqps]
    exact h.served

/-- Any two that have as many slots agree slot by slot. -/
theorem offsets_eq (h : Packed ep) (h' : Packed ep') (huse : ep'.useQpCount = ep.useQpCount) :
    ∀ i < ep.useQpCount, ∃ qp qp', ep.qps[i]? = some (some qp) ∧ ep'.qps[i]? = some (some qp') ∧
      qp'.offsets = qp.offsets := by
  have hflat : (ep.qps.map slotOffsets).flatten = (ep'.qps.map slotOffsets).flatten := by
    have hheap := h'.heap
    rw [huse, h.heap] at hheap
    exact (Prod.mk.inj hheap).2
  -- Every slot owns four offsets, so the list of all offsets determines those of each slot.
  have hfour : ∀ u : EpBuffer, Packed u →
      (u.qps.map slotOffsets).map List.length = List.replicate u.useQpCount 4 := by
    intro u hu
    rw [List.map_map, List.eq_replicate_iff]
    refine ⟨by rw [List.length_map, hu.length], fun n hn => ?_⟩
    obtain ⟨slot, hslot, rfl⟩ := List.mem_map.mp hn
    obtain ⟨qp, rfl⟩ := hu.full slot hslot
    rfl
  have hmap : ep.qps.map slotOffsets = ep'.qps.map slotOffsets :=
    List.eq_iff_flatten_eq.mpr ⟨hflat, by rw [hfour ep h, hfour ep' h', huse]⟩
  intro i hi
  have hlt : i < ep.qps.length := h.length.symm ▸ hi
  have hlt' : i < ep'.qps.length := h'.length.symm ▸ huse.symm ▸ hi
  obtain ⟨qp, hqp⟩ := h.full _ (List.getElem_mem hlt)
  obtain ⟨qp', hqp'⟩ := h'.full _ (List.getElem_mem hlt')
  have hget : ep.qps[i]? = some (some qp) := by rw [List.getElem?_eq_getElem hlt, hqp]
  have hget' : ep'.qps[i]? = some (some qp') := by rw [List.getElem?_eq_getElem hlt', hqp']
  have hslot := congrArg (fun l => l[i]?) hmap
  simp only [List.getElem?_map, hget, hget', Option.map_some, Option.some.injEq] at hslot
  exact ⟨qp, qp', hget, hget', hslot.symm⟩

/-- The memory of the queue pairs is pairwise disjoint. -/
theorem disjoint (h : Packed ep) : (ep.qps.flatMap slotRanges).Pairwise Apart := by
  have hserved : sizeMax ∉
      (issue (memheapCreate ctrlBufSize) (setupRequests ep.useQpCount)).2 := by
    rw [h.heap]
    exact h.served
  obtain ⟨l, c, hl, -, -, hissue⟩ := issue_laidOut (S := ctrlBufSize) (by decide)
    (setupRequests ep.useQpCount) (Nat.zero_le _) (fun a ha => absurd ha List.not_mem_nil)
    (by simpa using length_setupRequests_le ep.useQpCount_le) (sized_setupRequests _) hserved
  have hoffsets : ep.qps.flatMap slotOffsets = l.map Allocation.offset := by
    have hheap := h.heap
    rw [show issue (memheapCreate ctrlBufSize) _ = _ from hissue] at hheap
    exact (Prod.mk.inj hheap).2.symm
  have hranges : ep.qps.flatMap slotRanges = l.map Allocation.range := by
    rw [← zip_offsets h.full, hoffsets, h.length, ← hl.map_size, List.zip_map']
    rfl
  rw [hranges]
  exact hl.disjoint

/-- A rebuild in which every call succeeds. -/
theorem rebuild (h : Packed ep) : ∃ t,
    ep.updateLocalQpns (fun i => .success .infiniband i i) = (t, none) ∧ Packed t ∧
      t.ibgdaDisabled = ep.ibgdaDisabled := by
  obtain ⟨t, t', ht, heq, hset, -⟩ := updateLocalQpns_succeeds h.length
    (fun i _ => SetupAnswers.succeed_success .infiniband i) h.servesUpdate
  have hpacked := h.update (fun i => .success .infiniband i i) (by rw [heq])
  rw [heq] at hpacked
  exact ⟨t', heq, hpacked, hset.disabled.trans ht.disabled⟩

end Packed

/-! ### Runs -/

/-- A call of `update_local_qpns` runs to its end. -/
def RebuildSucceeds (ep : EpBuffer) : Call → Prop
  | .updateLocalQpns setups => (ep.updateLocalQpns setups).2 = none
  | _ => True

/-- A call that goes well keeps the queue pairs packed. -/
theorem Packed.call {ep : EpBuffer} (h : Packed ep) {c : Call} (hc : RebuildSucceeds ep c) :
    (ep.call c).1.config = ep.config ∧ Packed (ep.call c).1 := by
  cases c with
  | updateLocalQpns setups =>
    refine ⟨?_, h.update _ hc⟩
    rcases updateLocalQpns_outcome setups h.length with
      ⟨t, heq, hup, -⟩ | ⟨t, heq, hup, -⟩ | ⟨t, heq, hup, -⟩
    · simpa only [EpBuffer.call, heq] using hup.frame.config
    · simpa only [EpBuffer.call, heq] using hup.frame.config
    · simpa only [EpBuffer.call, heq] using hup.frame.config
  | syncIb args lids =>
    have hcon := ep.syncQps_connecting args (.ib lids)
    exact ⟨hcon.frame.config, h.of_kept hcon.frame.config hcon.heap hcon.qps⟩
  | syncRoce args subnetPrefixes interfaceIds =>
    have hcon := ep.syncQps_connecting args (.roce subnetPrefixes interfaceIds)
    exact ⟨hcon.frame.config, h.of_kept hcon.frame.config hcon.heap hcon.qps⟩
  | syncNvlinkIpcHandles ipc ans =>
    have hopen := ep.syncNvlinkIpcHandles_opening ipc ans
    exact ⟨hopen.config, h.of_kept hopen.config (congrArg Device.heap hopen.device) hopen.qps⟩

/-- In every run from `ep` without a failed rebuild the slots are packed. -/
theorem packed_of_reachable {ep ep' : EpBuffer} (h : Packed ep)
    (hr : ((callMachine.system (· = ep)).restrict RebuildSucceeds).Reachable ep') :
    ep'.config = ep.config ∧ Packed ep' := by
  refine TransitionSystem.Reachable.invariant (I := fun u => u.config = ep.config ∧ Packed u)
    ?_ ?_ hr
  · rintro u rfl
    exact ⟨rfl, h⟩
  · rintro u c u' - ⟨hconfig, hu⟩ ⟨hc, -, rfl⟩
    obtain ⟨hconfig', hu'⟩ := hu.call hc
    exact ⟨hconfig'.trans hconfig, hu'⟩

/-- Requests that were all served by a fresh heap are served the same way once they were all freed,
in whatever order, from the same entries of the table. So from a constructor that leaves IBGDA
enabled, every run without a failed rebuild gives the queue pair of every slot the offsets that it
had at the start, and the memory of the queue pairs is pairwise disjoint. -/
theorem same_layout_every_round :
    (∀ (S : ℕ) (reqs : List (ℕ × ℕ)) (order : List ℕ), S < 2 ^ 63 →
      reqs.length ≤ maxAllocations → (∀ r ∈ reqs, Sized S r) →
      sizeMax ∉ (issue (memheapCreate S) reqs).2 →
      order.Perm (issue (memheapCreate S) reqs).2 →
      SameLayout (issue (memheapCreate S) reqs) (freeAll (issue (memheapCreate S) reqs).1 order)
        reqs) ∧
    ∀ (config : IpcBuffer) (ans : NewAnswers) (ep ep' : EpBuffer), new config ans = (ep, none) →
      ep.ibgdaDisabled = false →
      ((callMachine.system (· = ep)).restrict RebuildSucceeds).Reachable ep' →
      (∀ i < ep.useQpCount, ∃ qp qp', ep.qps[i]? = some (some qp) ∧
        ep'.qps[i]? = some (some qp') ∧ qp'.offsets = qp.offsets) ∧
      (ep'.qps.flatMap slotRanges).Pairwise Apart := by
  constructor
  · -- The heap alone.
    intro S reqs order hS hlen hsized hok hperm
    exact sameLayout hS hlen hsized hok hperm
  · -- The `EpBuffer`: both layouts are that of a fresh heap.
    intro config ans ep ep' hnew henabled hr
    have hpacked := packed_of_new hnew henabled
    obtain ⟨hconfig, hpacked'⟩ := packed_of_reachable hpacked hr
    have huse : ep'.useQpCount = ep.useQpCount := by rw [useQpCount, useQpCount, hconfig]
    exact ⟨hpacked.offsets_eq hpacked' huse, hpacked'.disjoint⟩

/-- Three requests that are freed in another order, and two rebuilds after a constructor in which
nothing fails. -/
theorem same_layout_twoRounds :
    SameLayout (issue (memheapCreate 4096) [(100, 8), (64, 256), (8, 8)])
        (freeAll (issue (memheapCreate 4096) [(100, 8), (64, 256), (8, 8)]).1 [256, 320, 0])
        [(100, 8), (64, 256), (8, 8)] ∧
      ∃ ep, new twoRanks (.success (.success .infiniband)) = (ep, none) ∧
        ∀ i < ep.useQpCount, ∃ qp qp', ep.qps[i]? = some (some qp) ∧
          ((ep.updateLocalQpns fun i => .success .infiniband i i).1.updateLocalQpns
            fun i => .success .infiniband i i).1.qps[i]? = some (some qp') ∧
          qp'.offsets = qp.offsets := by
  -- A rebuild in which nothing fails is a step of a run.
  have hround : ∀ ep u : EpBuffer, Packed u →
      ((callMachine.system (· = ep)).restrict RebuildSucceeds).Reachable u →
      Packed (u.updateLocalQpns fun i => .success .infiniband i i).1 ∧
        ((callMachine.system (· = ep)).restrict RebuildSucceeds).Reachable
          (u.updateLocalQpns fun i => .success .infiniband i i).1 := by
    intro ep u hu hr
    obtain ⟨t, heq, hpacked, -⟩ := hu.rebuild
    have hnone : (u.updateLocalQpns fun i => .success .infiniband i i).2 = none := by rw [heq]
    have hrebuild : RebuildSucceeds u (.updateLocalQpns fun i => .success .infiniband i i) := hnone
    have hcont : callMachine.enabled u (.updateLocalQpns fun i => .success .infiniband i i) := by
      show Continues (u.updateLocalQpns fun i => .success .infiniband i i).2
      rw [hnone]
      trivial
    refine ⟨?_, .step hr ⟨hrebuild, hcont, rfl⟩⟩
    rw [heq]
    exact hpacked
  constructor
  · exact same_layout_every_round.1 4096 _ [256, 320, 0] (by decide) (by decide)
      (fun r hr => by
        simp only [List.mem_cons, List.not_mem_nil, or_false] at hr
        rcases hr with rfl | rfl | rfl
        · exact ⟨by decide, by decide, 3, rfl⟩
        · exact ⟨by decide, by decide, 8, rfl⟩
        · exact ⟨by decide, by decide, 3, rfl⟩)
      (by decide +kernel) (by decide +kernel)
  · obtain ⟨ep, hnew, hflag⟩ := new_succeeds twoRanks (InitAnswers.succeed_success .infiniband _)
    obtain ⟨hfirst, hr⟩ := hround ep ep (packed_of_new hnew hflag) (.init rfl)
    obtain ⟨-, hr'⟩ := hround ep _ hfirst hr
    exact ⟨ep, hnew, (same_layout_every_round.2 twoRanks _ ep _ hnew hflag hr').1⟩

end EpBuffer

end EpDemo.Lifecycle
