import EpDemo.Proofs.Buffer.Rebuild

/-!
# `EpDemo.Proofs.Buffer.Enabled`: what an `EpBuffer` with IBGDA enabled has

`ibgda_disabled_` is set where `init_ibgda` returns `-1` and where `update_local_qpns` returns
early. It is not set at the failures that these functions only print (`mlx5dv_init_obj`,
`ibv_reg_mr`), at those that they do not look at (`cudaMemcpy`), nor when `cudaStreamSynchronize`
throws between two slots of a rebuild. Without these, IBGDA that is enabled is set up in full, after
every sequence of calls (`enabled_fully_set_up`).
-/

set_option autoImplicit false

namespace EpDemo.Lifecycle

open EpDemo.Library EpDemo.Memheap EpDemo.Mlx5gda
open EpDemo.Buffer (IpcBuffer maxQpCount)

namespace EpBuffer

/-- The memory region and the protection domain are there, every slot has a queue pair that reached
INIT, and the device was given the context of that queue pair. -/
structure FullySetUp (ep : EpBuffer) : Prop where
  mr : ep.pointers .mr ≠ none
  pd : ep.pdInitialised = true
  qps : ∀ i < ep.useQpCount, ∃ qp, ep.qps[i]? = some (some qp) ∧
    ReachedInit (ep.device.qpState qp.mqp) ∧ ep.qpDevctxs i = some (.ofQp qp)

/-- When `init_ibgda` runs to its end, the steps succeed too whose failure it goes on after. -/
def StartsFully (config : IpcBuffer) (ans : NewAnswers) : Prop :=
  ans.init.Succeed (Buffer.useQpCount maxQpCount config.numRanks) →
    ans.init.initObj = true ∧ ans.init.regMr = true ∧
      ∀ i < Buffer.useQpCount maxQpCount config.numRanks, (ans.init.setups i).memcpy = true

/-- While IBGDA is enabled, `update_local_qpns` does not throw, and when it runs to its end the
copies to the device succeed. -/
def UpdatesFully (ep : EpBuffer) : Call → Prop
  | .updateLocalQpns setups => ep.ibgdaDisabled = false →
      (∀ i < ep.useQpCount, ¬ThrowsAt setups ep.emptiedHeap i) ∧
        ((∀ i < ep.useQpCount, (setups i).Succeed) → Serves ep.emptiedHeap ep.useQpCount →
          ∀ i < ep.useQpCount, (setups i).memcpy = true)
  | _ => True

/-- The constructor sets up in full what it leaves enabled. -/
theorem fullySetUp_of_new {config : IpcBuffer} {ans : NewAnswers} {ep : EpBuffer}
    (h : new config ans = (ep, none)) (hstart : StartsFully config ans)
    (henabled : ep.ibgdaDisabled = false) : FullySetUp ep := by
  obtain ⟨hconfig, -, -, hsetup⟩ := new_cases h
  obtain ⟨hsucceed, hpd, hmr, hdone⟩ := hsetup henabled
  have huse : ep.useQpCount = Buffer.useQpCount maxQpCount config.numRanks := by
    rw [useQpCount, hconfig]
  obtain ⟨hobj, hreg, hcopy⟩ := hstart (huse ▸ hsucceed)
  refine ⟨?_, hpd.trans hobj, fun i hi => ?_⟩
  · rw [ne_eq, hmr, hreg]
    simp
  · obtain ⟨qp, hslot, hstate, hctx⟩ := hdone.ready i hi
    exact ⟨qp, hslot, Or.inl hstate, hctx (hcopy i (huse ▸ hi))⟩

/-- A call keeps the members that it does not write, and the states of the queue pairs do not fall
back. -/
theorem FullySetUp.of_kept {ep ep' : EpBuffer} (h : FullySetUp ep)
    (hconfig : ep'.config = ep.config) (hpointers : ep'.pointers = ep.pointers)
    (hpd : ep'.pdInitialised = ep.pdInitialised) (hqps : ep'.qps = ep.qps)
    (hctxs : ep'.qpDevctxs = ep.qpDevctxs)
    (hreached : ∀ id, ReachedInit (ep.device.qpState id) → ReachedInit (ep'.device.qpState id)) :
    FullySetUp ep' := by
  refine ⟨hpointers ▸ h.mr, hpd.trans h.pd, fun i hi => ?_⟩
  have huse : ep'.useQpCount = ep.useQpCount := by rw [useQpCount, useQpCount, hconfig]
  obtain ⟨qp, hslot, hstate, hctx⟩ := h.qps i (huse ▸ hi)
  rw [hqps, hctxs]
  exact ⟨qp, hslot, hreached _ hstate, hctx⟩

/-- A rebuild that leaves IBGDA enabled sets up all slots again. -/
theorem FullySetUp.update {ep : EpBuffer} (h : FullySetUp ep) {setups : ℕ → SetupAnswers}
    (hlen : ep.qps.length = ep.useQpCount)
    (hthrow : ∀ i < ep.useQpCount, ¬ThrowsAt setups ep.emptiedHeap i)
    (hcopy : (∀ i < ep.useQpCount, (setups i).Succeed) → Serves ep.emptiedHeap ep.useQpCount →
      ∀ i < ep.useQpCount, (setups i).memcpy = true)
    (henabled : (ep.updateLocalQpns setups).1.ibgdaDisabled = false) :
    FullySetUp (ep.updateLocalQpns setups).1 := by
  rcases updateLocalQpns_outcome setups hlen with
    ⟨t, heq, hup, -, hsucceed, hserves, hready⟩ | ⟨t, heq, -, hdisabled⟩ |
    ⟨t, heq, -, -, i, hi, hthrew⟩
  · rw [heq]
    refine ⟨hup.frame.pointers ▸ h.mr, hup.frame.pdInitialised.trans h.pd, fun i hi => ?_⟩
    have hi' : i < ep.useQpCount := hup.frame.useQpCount ▸ hi
    obtain ⟨qp, hslot, hstate, hctx⟩ := hready i hi'
    exact ⟨qp, hslot, Or.inl hstate, hctx (hcopy hsucceed hserves i hi')⟩
  · rw [heq, hdisabled] at henabled
    cases henabled
  · exact absurd hthrew (hthrow i hi)

/-- One call keeps what IBGDA that is enabled has. -/
theorem FullySetUp.call {ep : EpBuffer} (hsound : Sound ep)
    (h : ep.ibgdaDisabled = false → FullySetUp ep) {c : Call} (hc : UpdatesFully ep c)
    (hcont : Continues (ep.call c).2) (henabled : (ep.call c).1.ibgdaDisabled = false) :
    FullySetUp (ep.call c).1 := by
  cases c with
  | updateLocalQpns setups =>
    have hlen : ep.qps.length = ep.useQpCount := by
      rcases updateLocalQpns_cases setups hsound.length_le with ⟨-, t, heq, -⟩ | ⟨hlen, -⟩
      · simp only [EpBuffer.call] at hcont
        rw [heq] at hcont
        exact absurd hcont id
      · exact hlen
    -- Nothing clears the flag, so it was not set before.
    have hbefore : ep.ibgdaDisabled = false := by
      simp only [EpBuffer.call] at henabled
      rcases updateLocalQpns_outcome setups hlen with
        ⟨t, heq, -, hflag, -⟩ | ⟨t, heq, -, hflag⟩ | ⟨t, heq, -, hflag, -⟩
      · rw [heq] at henabled
        exact hflag.symm.trans henabled
      · rw [heq, hflag] at henabled
        cases henabled
      · rw [heq] at henabled
        exact hflag.symm.trans henabled
    obtain ⟨hthrow, hcopy⟩ := hc hbefore
    exact (h hbefore).update hlen hthrow hcopy henabled
  | syncIb args lids =>
    have hcon := ep.syncQps_connecting args (.ib lids)
    exact (h (hcon.ibgdaDisabled.symm.trans henabled)).of_kept hcon.frame.config
      hcon.frame.pointers hcon.frame.pdInitialised hcon.qps hcon.qpDevctxs hcon.reached
  | syncRoce args subnetPrefixes interfaceIds =>
    have hcon := ep.syncQps_connecting args (.roce subnetPrefixes interfaceIds)
    exact (h (hcon.ibgdaDisabled.symm.trans henabled)).of_kept hcon.frame.config
      hcon.frame.pointers hcon.frame.pdInitialised hcon.qps hcon.qpDevctxs hcon.reached
  | syncNvlinkIpcHandles ipc ans =>
    have hopen := ep.syncNvlinkIpcHandles_opening ipc ans
    refine (h (hopen.ibgdaDisabled.symm.trans henabled)).of_kept hopen.config hopen.pointers
      hopen.pdInitialised hopen.qps hopen.qpDevctxs fun id hid => ?_
    rw [show (ep.call (.syncNvlinkIpcHandles ipc ans)).1.device = ep.device from hopen.device]
    exact hid

/-- In every run in which the steps succeed whose failure does not disable IBGDA, IBGDA that is
enabled is set up in full between any two calls. -/
theorem enabled_fully_set_up {config : IpcBuffer} {ep : EpBuffer}
    (h : ((lives config (StartsFully config)).restrict UpdatesFully).Reachable ep)
    (henabled : ep.ibgdaDisabled = false) : FullySetUp ep := by
  have hinv : Sound ep ∧ (ep.ibgdaDisabled = false → FullySetUp ep) := by
    refine TransitionSystem.Reachable.invariant
      (I := fun u => Sound u ∧ (u.ibgdaDisabled = false → FullySetUp u)) ?_ ?_ h
    · rintro u ⟨ans, hstart, hnew⟩
      exact ⟨(new_cases hnew).2.1, fullySetUp_of_new hnew hstart⟩
    · rintro u c u' - ⟨hsound, hfull⟩ ⟨hc, hcont, rfl⟩
      exact ⟨(hsound.call hcont).2, FullySetUp.call hsound hfull hc hcont⟩
  exact hinv.2 henabled

/-- A constructor and a rebuild in which nothing fails. -/
theorem enabled_fully_set_up_twoRanks : ∃ ep t : EpBuffer,
    ep.updateLocalQpns (fun i => .success .infiniband i i) = (t, none) ∧
      ((lives twoRanks (StartsFully twoRanks)).restrict UpdatesFully).Reachable t ∧
      t.ibgdaDisabled = false ∧ FullySetUp t := by
  obtain ⟨ep, hnew, hflag⟩ := new_succeeds twoRanks (InitAnswers.succeed_success .infiniband _)
  obtain ⟨t, heq, -, hkept⟩ := (packed_of_new hnew hflag).rebuild
  have hupdate : UpdatesFully ep (.updateLocalQpns fun i => .success .infiniband i i) :=
    fun _ => ⟨fun i _ hthrow => (nomatch hthrow.2.1.2),
      fun _ _ _ _ => rfl⟩
  have hstep : (lives twoRanks (StartsFully twoRanks)).step ep
      (.updateLocalQpns fun i => .success .infiniband i i) t := by
    refine ⟨?_, (congrArg Prod.fst heq).symm⟩
    show Continues (ep.updateLocalQpns _).2
    rw [heq]
    trivial
  have hreach : ((lives twoRanks (StartsFully twoRanks)).restrict UpdatesFully).Reachable t :=
    .step (.init ⟨_, fun _ => ⟨rfl, rfl, fun _ _ => rfl⟩, hnew⟩) ⟨hupdate, hstep⟩
  have henabled := hkept.trans hflag
  exact ⟨ep, t, heq, hreach, henabled, enabled_fully_set_up hreach henabled⟩

/-- The memory region cannot be registered, and everything else succeeds. -/
theorem enabled_without_mr :
    ¬ ∀ (config : IpcBuffer) (ep : EpBuffer), (lives config fun _ => True).Reachable ep →
      ep.ibgdaDisabled = false → FullySetUp ep := by
  intro h
  obtain ⟨ep, hnew, hflag⟩ := new_succeeds twoRanks
    (show InitAnswers.Succeed { InitAnswers.success .infiniband with regMr := false } _ from
      InitAnswers.succeed_success .infiniband _)
  obtain ⟨-, -, -, hsetup⟩ := new_cases hnew
  obtain ⟨-, -, hmr, -⟩ := hsetup hflag
  exact (h twoRanks ep (.init ⟨_, trivial, hnew⟩) hflag).mr (hmr.mpr rfl)

end EpBuffer

end EpDemo.Lifecycle
