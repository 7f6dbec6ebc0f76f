import EpDemo.Proofs.Buffer.Construct

/-!
# `EpDemo.Proofs.Buffer.FaultFree`: calls in which nothing fails

The loops over the queue pairs stop when a call fails or when the control-buffer heap is exhausted
(`Stopped.fault`). A heap that was just created is not: `USE_QP_COUNT` is at most 256, and 256 queue
pairs take less than `CTRL_BUF_SIZE`, the rounding included (`serves_memheapCreate`). So a
constructor in which every call succeeds returns with IBGDA enabled (`new_succeeds`), and
`update_local_qpns` runs to its end on a heap that serves its requests once the queue pairs were
destroyed (`updateLocalQpns_succeeds`).
-/

set_option autoImplicit false

namespace EpDemo.Lifecycle

open EpDemo.Library EpDemo.Memheap EpDemo.Mlx5gda
open EpDemo.Buffer (IpcBuffer maxQpCount)

/-! ### The heap of the control buffer -/

/-- All queue pairs ask the heap for the same few sizes. -/
theorem mem_setupRequests {n : ℕ} {r : ℕ × ℕ} (h : r ∈ setupRequests n) :
    r ∈ creationRequests qpDepth := by
  obtain ⟨reqs, hreqs, hr⟩ := List.mem_flatten.mp h
  exact List.eq_of_mem_replicate hreqs ▸ hr

/-- The bytes of `n` queue pairs, with all that the rounding can take. -/
theorem sum_setupRequests (n : ℕ) :
    ((setupRequests n).map fun r => r.1 + r.2).sum = n * 2105376 := by
  induction n with
  | zero => rfl
  | succ n ih =>
    have hone : ((creationRequests qpDepth).map fun r => r.1 + r.2).sum = 2105376 := by
      decide +kernel
    rw [setupRequests_succ, List.map_append, List.sum_append, ih, hone]
    omega

/-- The heap that `init_ibgda` creates serves 256 queue pairs. -/
theorem serves_memheapCreate {n : ℕ} (hn : n ≤ maxQpCount) :
    Serves (memheapCreate ctrlBufSize) n := by
  refine issue_served (by decide) _ (fun a ha => absurd ha List.not_mem_nil) (fun r hr => ?_) ?_
  · have hall : ∀ r ∈ creationRequests qpDepth, Accepted r.1 r.2 ∧ r.2 < 2 ^ 64 := by
      decide +kernel
    exact hall r (mem_setupRequests hr)
  · rw [sum_setupRequests]
    simp only [maxQpCount] at hn
    show 0 + n * 2105376 ≤ 1024 * 1024 * 1024
    omega

namespace EpBuffer

/-- No more queue pairs are used than there are. -/
theorem useQpCount_le (ep : EpBuffer) : ep.useQpCount ≤ maxQpCount := Nat.div_mul_le_self ..

/-! ### The constructor -/

/-- When every answer is a success, `init_ibgda` returns zero and does not disable itself. -/
theorem initIbgda_succeeds {ep : EpBuffer} {ans : InitAnswers} (hqps : ep.qps = [])
    (hans : ans.Succeed ep.useQpCount) :
    ∃ t, ep.initIbgda ans = (t, none) ∧ t.ibgdaDisabled = ep.ibgdaDisabled := by
  obtain ⟨hpd, hheap, hsetups⟩ := hans
  obtain ⟨hconfig, hqps', -, hflag, -, -, -, hdevice⟩ := prepared_eq ep ans
  rw [initIbgda_of_pd hpd, initMemory_of_heap hheap]
  rcases initSlots_cases ans.setups (hqps'.trans hqps) with
    ⟨t, heq, hset, -⟩ | ⟨i, u, t, e, -, hi, hstop, -⟩
  · exact ⟨t, heq, hset.disabled.trans hflag⟩
  · have hserves : Serves (ep.prepared ans).device.heap (ep.prepared ans).useQpCount := by
      rw [hdevice]
      exact serves_memheapCreate (useQpCount_le _)
    have huse : (ep.prepared ans).useQpCount = ep.useQpCount := by rw [useQpCount, hconfig]; rfl
    exact absurd ⟨hsetups i (huse ▸ hi), hserves⟩ (hstop.fault _ hi)

/-- A constructor in which nothing fails returns, and IBGDA is enabled. -/
theorem new_succeeds (config : IpcBuffer) {init : InitAnswers}
    (hinit : init.Succeed (Buffer.useQpCount maxQpCount config.numRanks)) :
    ∃ ep, new config (.success init) = (ep, none) ∧ ep.ibgdaDisabled = false := by
  obtain ⟨b, hb⟩ : ∃ b, (blank config).allocGdrBuffer (.success init) = (b, none) := by
    unfold allocGdrBuffer
    split
    · exact ⟨_, rfl⟩
    · exact ⟨_, rfl⟩
  obtain ⟨a, ha⟩ : ∃ a, b.allocArrays (.success init) = (a, none) := ⟨_, rfl⟩
  -- The allocations leave the queue pairs to `init_ibgda`.
  have hsame : SameQueues (blank config) a := by
    have hsb := sameQueues_allocGdrBuffer (blank config) (.success init)
    have hsa : SameQueues b (b.allocArrays (.success init)).1 := sameQueues_forEach_cudaCheck b _
    rw [hb] at hsb
    rw [ha] at hsa
    exact hsb.trans hsa
  have huse : a.useQpCount = Buffer.useQpCount maxQpCount config.numRanks := by
    rw [useQpCount, hsame.config]
    rfl
  obtain ⟨t, ht, hflag⟩ := initIbgda_succeeds hsame.qps (huse ▸ hinit)
  obtain ⟨ep, hep⟩ : ∃ ep, t.allocWorkspace (.success init) = (ep, none) := ⟨_, rfl⟩
  have hlast : SameQueues t (t.allocWorkspace (.success init)).1 := sameQueues_forEach_cudaCheck t _
  rw [hep] at hlast
  refine ⟨ep, ?_, ?_⟩
  · -- The constructor is these steps, one after the other.
    have hstart : forEach cudaCheck [.call (NewAnswers.success init).getDevice,
        .call (NewAnswers.success init).getAttribute] (blank config) = (blank config, none) := rfl
    have htry : a.tryIbgda (NewAnswers.success init).init = (t, none) := by
      rw [tryIbgda, show (NewAnswers.success init).init = init from rfl, ht]
    rw [new, hstart, andThen_none, hb, andThen_none, ha, andThen_none, htry, andThen_none, hep]
  · rw [hlast.ibgdaDisabled, hflag, hsame.ibgdaDisabled]
    rfl

/-- The answers `InitAnswers.success` are among those in which nothing fails, whatever the steps
answer that are not looked at. -/
theorem InitAnswers.succeed_success (linkLayer : LinkLayer) (n : ℕ) :
    (InitAnswers.success linkLayer).Succeed n :=
  ⟨⟨rfl, rfl, rfl, rfl, rfl, rfl⟩, ⟨rfl, rfl, rfl⟩,
    fun _ _ => ⟨⟨⟨rfl, rfl, rfl, rfl⟩, ⟨rfl, rfl, rfl, rfl, rfl, rfl⟩, rfl, rfl, rfl, rfl, rfl⟩,
      rfl, rfl⟩⟩

/-- The answers for one slot in which nothing fails. -/
theorem SetupAnswers.succeed_success (linkLayer : LinkLayer) (i : ℕ) :
    (SetupAnswers.success linkLayer i i).Succeed :=
  (InitAnswers.succeed_success linkLayer (i + 1)).2.2 i (Nat.lt_succ_self i)

/-- Rank 0 of two. -/
def twoRanks : IpcBuffer where
  rank := 0
  numRanks := 2
  deviceId := 0
  useFabricMem := false
  rank_lt := Nat.zero_lt_two

/-! ### `update_local_qpns` -/

/-- The heap serves `update_local_qpns`, which frees the memory of all queue pairs first. -/
def ServesUpdate (ep : EpBuffer) : Prop := Serves ep.emptiedHeap ep.useQpCount

/-- `update_local_qpns` in which nothing fails. -/
theorem updateLocalQpns_succeeds {ep : EpBuffer} {setups : ℕ → SetupAnswers}
    (hlen : ep.qps.length = ep.useQpCount) (hans : ∀ i < ep.useQpCount, (setups i).Succeed)
    (hserves : ep.ServesUpdate) :
    ∃ t t', Emptied ep ep.useQpCount t ∧ ep.updateLocalQpns setups = (t', none) ∧
      Setting t setups ep.useQpCount t' ∧ t'.qps.length = ep.useQpCount := by
  rcases updateLocalQpns_cases setups hlen.le with
    ⟨hlt, -⟩ | ⟨-, t, ht, ⟨t', heq, hset, hlen'⟩ | ⟨i, u, t', e, -, hi, hstop, -⟩⟩
  · omega
  · exact ⟨t, t', ht, heq, hset, hlen'⟩
  · have hheap : Serves t.device.heap ep.useQpCount := by
      rw [ht.heap_eq hlen]
      exact hserves
    exact absurd ⟨hans i hi, hheap⟩ (hstop.fault _ hi)

end EpBuffer

end EpDemo.Lifecycle
