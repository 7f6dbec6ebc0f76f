import EpDemo.Proofs.Buffer.Rebuild

/-!
# `EpDemo.Proofs.Buffer.Recovery`: does `update_local_qpns` recover from a failure

`update_local_qpns` assumes what only a complete `init_ibgda` leaves: its first loop reads all
`USE_QP_COUNT` entries of `qps`, which `init_ibgda` appends one by one. And nothing clears
`ibgda_disabled_` once a failure has set it. So a rebuild in which every inner call succeeds gives
live queue pairs exactly when no entry is missing, and enables IBGDA exactly when it was enabled
before (`recovers_iff`).
-/

set_option autoImplicit false

namespace EpDemo.Lifecycle

open EpDemo.Library EpDemo.Memheap EpDemo.Mlx5gda
open EpDemo.Buffer (IpcBuffer)

namespace EpBuffer

/-- Every call that `update_local_qpns` makes succeeds. -/
def InnerCallsSucceed (ep : EpBuffer) (setups : ℕ → SetupAnswers) : Prop :=
  (∀ i < ep.useQpCount, (setups i).Succeed ∧ (setups i).memcpy = true) ∧ ep.ServesUpdate

/-- `qps` has `USE_QP_COUNT` entries, and each is a queue pair that the device has. -/
def LiveQps (ep : EpBuffer) : Prop :=
  ep.qps.length = ep.useQpCount ∧
    ∀ i < ep.useQpCount, ∃ qp, ep.qps[i]? = some (some qp) ∧ (ep.device.qpState qp.mqp).isSome

/-- `update_local_qpns` reads existing entries of `qps` only, and when its calls all succeed, all
queue pairs are live afterwards and IBGDA is enabled. -/
def Recovers (ep : EpBuffer) (setups : ℕ → SetupAnswers) : Prop :=
  (ep.updateLocalQpns setups).2 ≠ some .undefined ∧
    (InnerCallsSucceed ep setups →
      LiveQps (ep.updateLocalQpns setups).1 ∧
        (ep.updateLocalQpns setups).1.ibgdaDisabled = false)

/-- A rebuild in which every call succeeds, on a vector that has all entries. -/
theorem liveQps_of_innerCallsSucceed {ep : EpBuffer} {setups : ℕ → SetupAnswers}
    (hlen : ep.qps.length = ep.useQpCount) (hcalls : InnerCallsSucceed ep setups) :
    LiveQps (ep.updateLocalQpns setups).1 ∧
      (ep.updateLocalQpns setups).1.ibgdaDisabled = ep.ibgdaDisabled := by
  obtain ⟨t, t', ht, heq, hset, hlen'⟩ :=
    updateLocalQpns_succeeds hlen (fun i hi => (hcalls.1 i hi).1) hcalls.2
  have huse : t'.useQpCount = ep.useQpCount := (ht.frame.trans hset.frame).useQpCount
  rw [heq]
  refine ⟨⟨hlen'.trans huse.symm, fun i hi => ?_⟩, hset.disabled.trans ht.disabled⟩
  obtain ⟨qp, hslot, hstate, -⟩ := hset.done.ready i (huse ▸ hi)
  exact ⟨qp, hslot, by rw [hstate]; rfl⟩

/-- `update_local_qpns` recovers exactly when `init_ibgda` had appended all entries of `qps`, and
IBGDA was not disabled before a call in which every inner call succeeds. -/
theorem recovers_iff {config : IpcBuffer} {start : NewAnswers → Prop} {ep : EpBuffer}
    (h : (lives config start).Reachable ep) (setups : ℕ → SetupAnswers) :
    Recovers ep setups ↔
      ep.qps.length = ep.useQpCount ∧
        (ep.ibgdaDisabled = false ∨ ¬InnerCallsSucceed ep setups) := by
  obtain ⟨-, hsound⟩ := sound_of_reachable h
  by_cases hlen : ep.qps.length = ep.useQpCount
  · have hdefined : (ep.updateLocalQpns setups).2 ≠ some .undefined := by
      rcases updateLocalQpns_outcome setups hlen with
        ⟨t, heq, -⟩ | ⟨t, heq, -⟩ | ⟨t, heq, -⟩
      · rw [heq]
        exact nofun
      · rw [heq]
        exact nofun
      · rw [heq]
        exact nofun
    constructor
    · rintro ⟨-, hrecovers⟩
      refine ⟨hlen, ?_⟩
      by_cases hcalls : InnerCallsSucceed ep setups
      · obtain ⟨-, hflag⟩ := liveQps_of_innerCallsSucceed hlen hcalls
        exact Or.inl (hflag.symm.trans (hrecovers hcalls).2)
      · exact Or.inr hcalls
    · rintro ⟨-, hflag | hno⟩
      · refine ⟨hdefined, fun hcalls => ?_⟩
        obtain ⟨hlive, hkept⟩ := liveQps_of_innerCallsSucceed hlen hcalls
        exact ⟨hlive, hkept.trans hflag⟩
      · exact ⟨hdefined, fun hcalls => absurd hcalls hno⟩
  · -- The first loop reads past the end of the vector.
    rcases updateLocalQpns_cases setups hsound.length_le with ⟨-, t, heq, -⟩ | ⟨hlen', -⟩
    · constructor
      · rintro ⟨hdefined, -⟩
        rw [heq] at hdefined
        exact absurd rfl hdefined
      · rintro ⟨hlen', -⟩
        exact absurd hlen' hlen
    · exact absurd hlen' hlen

/-- A second rebuild after a constructor and a rebuild in which nothing failed. -/
theorem recovers_after_init :
    ∃ ep t : EpBuffer, ep.updateLocalQpns (fun i => .success .infiniband i i) = (t, none) ∧
      (lives twoRanks fun _ => True).Reachable t ∧
      Recovers t fun i => .success .infiniband i i := by
  obtain ⟨ep, hnew, hflag⟩ := new_succeeds twoRanks (InitAnswers.succeed_success .infiniband _)
  obtain ⟨t, heq, hpacked, hkept⟩ := (packed_of_new hnew hflag).rebuild
  have hstep : (lives twoRanks fun _ => True).step ep
      (.updateLocalQpns fun i => .success .infiniband i i) t := by
    refine ⟨?_, (congrArg Prod.fst heq).symm⟩
    show Continues (ep.updateLocalQpns _).2
    rw [heq]
    trivial
  have hreach : (lives twoRanks fun _ => True).Reachable t := .step (.init ⟨_, trivial, hnew⟩) hstep
  exact ⟨ep, t, heq, hreach,
    (recovers_iff hreach _).mpr ⟨hpacked.length, Or.inl (hkept.trans hflag)⟩⟩

/-- `init_ibgda` gets no protection domain, and the constructor returns. The first rebuild after
it reads an entry that `qps` does not have. -/
theorem rebuild_after_failed_init :
    ¬ ∀ (config : IpcBuffer) (ep : EpBuffer) (setups : ℕ → SetupAnswers),
      (lives config fun _ => True).Reachable ep → Recovers ep setups := by
  intro h
  have hreturned : (new twoRanks (.success { InitAnswers.success .infiniband with
      allocPd := false })).2 = none := by
    decide +kernel
  have hundefined : ((new twoRanks (.success { InitAnswers.success .infiniband with
      allocPd := false })).1.updateLocalQpns fun i => .success .infiniband i i).2 =
        some .undefined := by
    decide +kernel
  exact (h twoRanks _ _ (.init ⟨_, trivial, Prod.ext rfl hreturned⟩)).1 hundefined

end EpBuffer

end EpDemo.Lifecycle
