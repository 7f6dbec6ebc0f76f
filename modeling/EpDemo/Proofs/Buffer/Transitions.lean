import EpDemo.Proofs.Buffer.Calls
import EpDemo.Proofs.Buffer.FaultFree

/-!
# `EpDemo.Proofs.Buffer.Transitions`: the states in which commands find the queue pairs

`init_ibgda` and `update_local_qpns` leave every queue pair in INIT, and `sync_ib` and `sync_roce`
bring those of the active ranks to RTS. Neither function knows what an earlier call did: when a rank
is active in two calls without a rebuild in between, the second call sends INIT2RTR to a queue pair
in RTS, and ends the process.

`Advanced` is what the loop over the slots has done before turn `i`: the slots below were passed,
and those from `i` on are in the state that they had before the call. So the commands of a call are
all legal exactly when the slots that it comes to are in INIT (`syncQps_legal_iff`). After an
initialisation that succeeded these are the slots whose ranks have not joined since their queue
pairs were made (`findsInit_iff_joined`).
-/

set_option autoImplicit false

namespace EpDemo.Lifecycle

open EpDemo.Library EpDemo.Memheap EpDemo.Mlx5gda
open EpDemo.Buffer (IpcBuffer maxQpCount peerRank)

namespace EpBuffer

/-! ### One call of `sync_ib` or `sync_roce` -/

/-- The loop gets past slot `i`: its peer is not active, or its queue pair is connected. -/
def Passes (ep : EpBuffer) (args : SyncArgs) (remote : Remote) (i : ℕ) : Prop :=
  ∃ active, args.activeRanksMask[peerRank ep.config.numRanks ep.useQpCount i]? = some active ∧
    (active ≠ 0 → ep.Covered args remote i ∧ ∃ qp, ep.qps[i]? = some (some qp) ∧
      ep.device.qpState qp.mqp = some .init ∧ (args.answers i).Accept qp)

/-- A command that is sent for slot `i` finds its queue pair in INIT. -/
def FindsInitAt (ep : EpBuffer) (args : SyncArgs) (remote : Remote) (i : ℕ) : Prop :=
  ep.Active args i → ep.Covered args remote i → ∀ qp, ep.qps[i]? = some (some qp) →
    (args.answers i).Send qp → ep.device.qpState qp.mqp = some .init

/-- The slots that the loop comes to hold queue pairs in INIT, where it sends commands for them. -/
def FindsInit (ep : EpBuffer) (args : SyncArgs) (remote : Remote) : Prop :=
  ∀ i < ep.useQpCount, (∀ j < i, ep.Passes args remote j) → ep.FindsInitAt args remote i

/-- The queue pair of an active slot is missing, or a call fails for it. -/
def FaultIn (ep : EpBuffer) (args : SyncArgs) : Prop :=
  ∃ i < ep.useQpCount, ep.Active args i ∧
    (ep.qps[i]? = some none ∨
      ∃ qp, ep.qps[i]? = some (some qp) ∧ ¬(args.answers i).Accept qp)

section

variable {ep : EpBuffer} {args : SyncArgs} {remote : Remote} {i : ℕ}

/-- A turn that goes through found its queue pair in INIT. -/
theorem Passes.findsInitAt (h : ep.Passes args remote i) : ep.FindsInitAt args remote i := by
  obtain ⟨active, hmask, hpass⟩ := h
  intro ⟨a, ha, hne⟩ _ qp hslot _
  obtain rfl : active = a := by
    rw [hmask] at ha
    exact Option.some.inj ha
  obtain ⟨-, qp', hslot', hinit, -⟩ := hpass hne
  obtain rfl : qp' = qp := by
    rw [hslot'] at hslot
    simpa using hslot
  exact hinit

/-- When the loop stops at slot `i`, that slot decides. -/
theorem findsInit_iff (hi : i < ep.useQpCount) (hpassed : ∀ j < i, ep.Passes args remote j)
    (hstop : ¬ep.Passes args remote i) :
    ep.FindsInit args remote ↔ ep.FindsInitAt args remote i := by
  constructor
  · exact fun h => h i hi hpassed
  · intro h k _ hreached
    by_cases hki : k < i
    · exact (hpassed k hki).findsInitAt
    · by_cases heq : k = i
      · exact heq ▸ h
      · exact absurd (hreached i (by omega)) hstop

/-- What the loop over the slots of `ep` has done before turn `i`. -/
structure Advanced (ep : EpBuffer) (args : SyncArgs) (remote : Remote) (i : ℕ) (t : EpBuffer) :
    Prop where
  kept : Connecting ep t
  passed : ∀ j < i, ep.Passes args remote j
  connected : ∀ (j : ℕ) (qp : Qp), j < i → ep.Active args j → ep.qps[j]? = some (some qp) →
    t.device.qpState qp.mqp = some .rts
  waiting : ∀ (j : ℕ) (qp : Qp), i ≤ j → ep.qps[j]? = some (some qp) →
    t.device.qpState qp.mqp = ep.device.qpState qp.mqp
  idle : ∀ (j : ℕ) (qp : Qp), ¬ep.Active args j → ep.qps[j]? = some (some qp) →
    t.device.qpState qp.mqp = ep.device.qpState qp.mqp
  issued : ∀ c ∈ t.device.issued, c ∈ ep.device.issued ∨ c.Legal

/-- Before the first turn nothing was done. -/
theorem Advanced.zero (ep : EpBuffer) (args : SyncArgs) (remote : Remote) :
    Advanced ep args remote 0 ep where
  kept := .refl ep
  passed j hj := absurd hj (Nat.not_lt_zero j)
  connected j _ hj := absurd hj (Nat.not_lt_zero j)
  waiting _ _ _ _ := rfl
  idle _ _ _ _ := rfl
  issued _ hc := Or.inl hc

/-- The tests of a turn read only what the turns before it keep. -/
theorem Connecting.tests {t : EpBuffer} (h : Connecting ep t) (args : SyncArgs) (remote : Remote)
    (i : ℕ) :
    peerRank t.config.numRanks t.useQpCount i = peerRank ep.config.numRanks ep.useQpCount i ∧
      (t.Active args i ↔ ep.Active args i) ∧
        (t.Covered args remote i ↔ ep.Covered args remote i) := by
  have hpeer : peerRank t.config.numRanks t.useQpCount i =
      peerRank ep.config.numRanks ep.useQpCount i := by
    rw [h.frame.config, h.frame.useQpCount]
  refine ⟨hpeer, ?_, ?_⟩
  · rw [Active, Active, hpeer]
  · rw [Covered, Covered, hpeer]

/-- One turn. -/
theorem Advanced.succ {next : ℕ} (hslots : Slots next ep.qps) {t t' : EpBuffer}
    (h : Advanced ep args remote i t) (hbody : t.syncSlot args remote i = (t', none)) :
    Advanced ep args remote (i + 1) t' := by
  obtain ⟨hpeer, hactive, hcovered⟩ := h.kept.tests args remote i
  rcases t.syncSlot_cases args remote i with
    ⟨hno, ⟨hmask, heq⟩ | ⟨-, heq⟩⟩ | ⟨-, -, e, heq, -⟩ |
    ⟨hact, hcov, qp, d, hslot, hcom, ⟨heq, hrts, hinit, haccept⟩ | ⟨heq, -⟩⟩
  · rw [hbody] at heq
    cases heq
    rw [hpeer] at hmask
    rw [hactive] at hno
    refine ⟨h.kept, fun j hj => ?_, fun j qp hj hact hslot => ?_, fun j qp hj => ?_, h.idle,
      h.issued⟩
    · by_cases hji : j = i
      · exact hji ▸ ⟨0, hmask, fun hne => absurd rfl hne⟩
      · exact h.passed j (by omega)
    · by_cases hji : j = i
      · exact absurd (hji ▸ hact) hno
      · exact h.connected j qp (by omega) hact hslot
    · exact h.waiting j qp (by omega)
  · rw [hbody] at heq
    cases heq
  · rw [hbody] at heq
    cases heq
  · rw [hbody] at heq
    cases heq
    rw [h.kept.qps] at hslot
    have hstate : ep.device.qpState qp.mqp = some .init :=
      (h.waiting i qp le_rfl hslot).symm.trans hinit
    -- Every other slot has another queue pair.
    have hother : ∀ (j : ℕ) (qp' : Qp), j ≠ i → ep.qps[j]? = some (some qp') →
        d.qpState qp'.mqp = t.device.qpState qp'.mqp := fun j qp' hji hslot' =>
      hcom.others _ fun heq => hji (hslots.distinct j i qp' qp hslot' hslot heq)
    refine ⟨h.kept.trans (Commanded.connecting hcom), fun j hj => ?_,
      fun j qp' hj hact' hslot' => ?_,
      fun j qp' hj hslot' => ?_, fun j qp' hno hslot' => ?_, fun c hc => ?_⟩
    · by_cases hji : j = i
      · obtain ⟨a, ha, -⟩ := hactive.mp hact
        exact hji ▸ ⟨a, ha, fun _ => ⟨hcovered.mp hcov, qp, hslot, hstate, haccept⟩⟩
      · exact h.passed j (by omega)
    · by_cases hji : j = i
      · subst hji
        obtain rfl : qp = qp' := by
          rw [hslot] at hslot'
          simpa using hslot'
        exact hrts
      · exact (hother j qp' hji hslot').trans (h.connected j qp' (by omega) hact' hslot')
    · exact (hother j qp' (by omega) hslot').trans (h.waiting j qp' (by omega) hslot')
    · have hji : j ≠ i := fun hji => hno (hji ▸ hactive.mp hact)
      exact (hother j qp' hji hslot').trans (h.idle j qp' hno hslot')
    · rcases hcom.legal (fun _ => hinit) c hc with hc | hc
      · exact h.issued c hc
      · exact Or.inr hc
  · rw [hbody] at heq
    cases heq

/-- A turn that leaves the loop, and what it says about the call. -/
theorem Advanced.stop {t t' : EpBuffer} {e : Exit} (h : Advanced ep args remote i t)
    (hi : i < ep.useQpCount) (hbody : t.syncSlot args remote i = (t', some e)) :
    (ep.FindsInit args remote → ∀ c ∈ t'.device.issued, c ∈ ep.device.issued ∨ c.Legal) ∧
      (¬ep.FindsInit args remote → ∃ c ∈ t'.device.issued, ¬c.Legal) ∧
      (ep.FindsInit args remote → e = .exited → ep.FaultIn args) := by
  obtain ⟨hpeer, hactive, hcovered⟩ := h.kept.tests args remote i
  -- Where no command is sent, slot `i` cannot hold the wrong state.
  have hsilent : ¬ep.Passes args remote i → ep.FindsInitAt args remote i →
      t'.device.issued = t.device.issued →
      (ep.FindsInit args remote → ∀ c ∈ t'.device.issued, c ∈ ep.device.issued ∨ c.Legal) ∧
        (¬ep.FindsInit args remote → ∃ c ∈ t'.device.issued, ¬c.Legal) := by
    intro hstop hfinds hsame
    rw [hsame]
    exact ⟨fun _ => h.issued,
      fun hno => absurd ((findsInit_iff hi h.passed hstop).mpr hfinds) hno⟩
  rcases t.syncSlot_cases args remote i with
    ⟨hno, ⟨-, heq⟩ | ⟨hmask, heq⟩⟩ | ⟨hact, hno, e', heq, he'⟩ |
    ⟨hact, hcov, qp, d, hslot, hcom, ⟨heq, -⟩ | ⟨heq, hno⟩⟩
  · rw [hbody] at heq
    cases heq
  · rw [hbody] at heq
    cases heq
    rw [hpeer] at hmask
    rw [hactive] at hno
    obtain ⟨hlegal, hillegal⟩ := hsilent
      (fun ⟨a, ha, _⟩ => by rw [hmask] at ha; cases ha) (fun hact => absurd hact hno) rfl
    exact ⟨hlegal, hillegal, fun _ => nofun⟩
  · rw [hbody] at heq
    cases heq
    rw [hcovered, h.kept.qps] at hno
    rw [hactive] at hact
    rw [h.kept.qps] at he'
    obtain ⟨hlegal, hillegal⟩ := hsilent
      (fun ⟨a, ha, hpass⟩ => by
        obtain ⟨a', ha', hne⟩ := hact
        obtain rfl : a = a' := Option.some.inj (ha.symm.trans ha')
        obtain ⟨hcov, qp, hslot, -⟩ := hpass hne
        exact hno ⟨hcov, qp, hslot⟩)
      (fun _ hcov qp hslot => absurd ⟨hcov, qp, hslot⟩ hno) rfl
    refine ⟨hlegal, hillegal, fun _ hexit => ⟨i, hi, hact, Or.inl ?_⟩⟩
    rcases he' with rfl | ⟨-, hnull⟩
    · cases hexit
    · exact hnull
  · rw [hbody] at heq
    cases heq
  · rw [hbody] at heq
    cases heq
    rw [h.kept.qps] at hslot
    rw [h.waiting i qp le_rfl hslot] at hno
    have hact' := hactive.mp hact
    have hstop : ¬ep.Passes args remote i := by
      rintro ⟨a, ha, hpass⟩
      obtain ⟨a', ha', hne⟩ := hact'
      obtain rfl : a = a' := Option.some.inj (ha.symm.trans ha')
      obtain ⟨-, qp', hslot', hinit, haccept⟩ := hpass hne
      obtain rfl : qp = qp' := by
        rw [hslot] at hslot'
        simpa using hslot'
      exact hno ⟨hinit, haccept⟩
    have hiff := findsInit_iff hi h.passed hstop
    have hstate := h.waiting i qp le_rfl hslot
    refine ⟨fun hfinds c hc => ?_, fun hnot => ?_, fun hfinds _ => ?_⟩
    · have hsent := hiff.mp hfinds hact' (hcovered.mp hcov) qp hslot
      rcases hcom.legal (fun h => hstate.trans (hsent h)) c hc with hc | hc
      · exact h.issued c hc
      · exact Or.inr hc
    · by_contra hlegal
      refine hnot (hiff.mpr fun _ _ qp' hslot' hsend => ?_)
      obtain rfl : qp = qp' := by
        rw [hslot] at hslot'
        simpa using hslot'
      by_contra hne
      exact hlegal (hcom.illegal hsend (hstate ▸ hne))
    · refine ⟨i, hi, hact', Or.inr ⟨qp, hslot, fun haccept => hno ⟨?_, haccept⟩⟩⟩
      exact hiff.mp hfinds hact' (hcovered.mp hcov) qp hslot haccept.1

/-- The loop over the slots ends, or it stops at one of them. -/
theorem syncSlots_cases {next : ℕ} (hslots : Slots next ep.qps) (args : SyncArgs)
    (remote : Remote) :
    (∃ t, forEach (syncSlot args remote) (List.range' 0 ep.useQpCount) ep = (t, none) ∧
      Advanced ep args remote ep.useQpCount t) ∨
    ∃ i t t' e, forEach (syncSlot args remote) (List.range' 0 ep.useQpCount) ep = (t', some e) ∧
      i < ep.useQpCount ∧ Advanced ep args remote i t ∧
      t.syncSlot args remote i = (t', some e) := by
  rcases forEach_range'_cases (a := 0) (n := ep.useQpCount) (Advanced.zero ep args remote)
      fun i t t' _ _ ht hbody => ht.succ hslots hbody with
    ⟨t, hend, ht⟩ | ⟨i, t, t', e, -, hi, ht, hbody, hend⟩
  · rw [Nat.zero_add] at ht
    exact Or.inl ⟨t, hend, ht⟩
  · exact Or.inr ⟨i, t, t', e, hend, by omega, ht, hbody⟩

/-- The loop over the ranks is left at undefined behaviour only. -/
theorem publishRanks_cases (ep : EpBuffer) (args : SyncArgs) (n : ℕ) :
    (forEach (publishRank args) (List.range' 0 n) ep).1 = ep ∧
      ((forEach (publishRank args) (List.range' 0 n) ep).2 = none ∨
        (forEach (publishRank args) (List.range' 0 n) ep).2 = some .undefined) := by
  have hsame : (forEach (publishRank args) (List.range' 0 n) ep).1 = ep :=
    forEach_invariant (I := fun u => u = ep) rfl fun i _ u hu => by rw [publishRank_fst, hu]
  refine ⟨hsame, ?_⟩
  have hstep : ∀ (i : ℕ) (t t' : EpBuffer), 0 ≤ i → i < 0 + n → True →
      t.publishRank args i = (t', none) → True := fun _ _ _ _ _ _ _ => trivial
  -- A turn that fails has read beyond one of the arrays.
  rcases forEach_range'_cases (I := fun _ _ => True) (s := ep) trivial hstep with
    ⟨t, hend, -⟩ | ⟨i, t, t', e, -, -, -, hbody, hend⟩
  · rw [hend]
    exact Or.inl rfl
  · rw [hend]
    refine Or.inr ?_
    unfold publishRank at hbody
    split at hbody
    · cases hbody
      rfl
    · split_ifs at hbody <;> cases hbody <;> rfl

/-- The commands of a call are all legal if and only if the slots that it comes to are in INIT. -/
theorem syncQps_legal_iff {next : ℕ} (hslots : Slots next ep.qps)
    (hlegal : ∀ c ∈ ep.device.issued, c.Legal) (args : SyncArgs) (remote : Remote) :
    (∀ c ∈ (ep.syncQps args remote).1.device.issued, c.Legal) ↔ ep.FindsInit args remote := by
  have hold : ∀ t : EpBuffer, (∀ c ∈ t.device.issued, c ∈ ep.device.issued ∨ c.Legal) →
      ∀ c ∈ t.device.issued, c.Legal := fun t ht c hc => (ht c hc).elim (hlegal c) id
  unfold syncQps
  rcases syncSlots_cases hslots args remote with
    ⟨t, heq, ht⟩ | ⟨i, t, t', e, heq, hi, ht, hbody⟩
  · rw [heq, andThen_none, (publishRanks_cases t args t.config.numRanks).1]
    exact ⟨fun _ i hi _ => (ht.passed i hi).findsInitAt, fun _ => hold t ht.issued⟩
  · rw [heq, andThen_some]
    obtain ⟨hyes, hno, -⟩ := ht.stop hi hbody
    refine ⟨fun h => ?_, fun h => hold t' (hyes h)⟩
    by_contra hnot
    obtain ⟨c, hc, hillegal⟩ := hno hnot
    exact hillegal (h c hc)

/-- When the slots are in INIT, the process is ended only for another reason. -/
theorem syncQps_exited {next : ℕ} (hslots : Slots next ep.qps)
    (hfinds : ep.FindsInit args remote) (hexit : (ep.syncQps args remote).2 = some .exited) :
    ep.FaultIn args := by
  unfold syncQps at hexit
  rcases syncSlots_cases hslots args remote with
    ⟨t, heq, ht⟩ | ⟨i, t, t', e, heq, hi, ht, hbody⟩
  · rw [heq, andThen_none] at hexit
    rcases (publishRanks_cases t args t.config.numRanks).2 with hnone | hundef
    · rw [hnone] at hexit
      cases hexit
    · rw [hundef] at hexit
      cases hexit
  · rw [heq, andThen_some] at hexit
    obtain ⟨-, -, hfault⟩ := ht.stop hi hbody
    exact hfault hfinds (Option.some.inj hexit)

/-- A call in which nothing fails brings the queue pairs of the active slots to RTS. -/
theorem syncQps_succeeds {next : ℕ} (hslots : Slots next ep.qps)
    (hpass : ∀ i < ep.useQpCount, ep.Passes args remote i)
    (hpublish : ∀ i < ep.config.numRanks, ∀ t : EpBuffer, t.config = ep.config →
      t.pointers = ep.pointers → (t.publishRank args i).2 = none) :
    ∃ t, ep.syncQps args remote = (t, none) ∧ Advanced ep args remote ep.useQpCount t := by
  unfold syncQps
  rcases syncSlots_cases hslots args remote with
    ⟨t, heq, ht⟩ | ⟨i, t, t', e, heq, hi, ht, hbody⟩
  · refine ⟨t, ?_, ht⟩
    rw [heq, andThen_none, ht.kept.frame.config]
    have hstep : ∀ (i : ℕ) (u u' : EpBuffer), 0 ≤ i → i < 0 + ep.config.numRanks → u = t →
        u.publishRank args i = (u', none) → u' = t := by
      intro i u u' _ _ hu hbody
      rw [← hu, ← publishRank_fst u args i, hbody]
    rcases forEach_range'_cases (I := fun _ u => u = t) rfl hstep with
      ⟨u, hend, rfl⟩ | ⟨i, u, u', e, -, hi, rfl, hbody, -⟩
    · exact hend
    · have hnone := hpublish i (by omega) u ht.kept.frame.config ht.kept.frame.pointers
      rw [hbody] at hnone
      cases hnone
  · -- A slot that passes does not stop the loop.
    obtain ⟨hpeer, hactive, hcovered⟩ := ht.kept.tests args remote i
    obtain ⟨a, ha, hgood⟩ := hpass i hi
    rcases t.syncSlot_cases args remote i with
      ⟨-, ⟨-, heq'⟩ | ⟨hmask, -⟩⟩ | ⟨hact, hno, -⟩ |
      ⟨hact, -, qp, d, hslot, -, ⟨heq', -⟩ | ⟨-, hno⟩⟩
    · rw [hbody] at heq'
      cases heq'
    · rw [hpeer, ha] at hmask
      cases hmask
    · obtain ⟨a', ha', hne⟩ := hactive.mp hact
      obtain rfl : a = a' := Option.some.inj (ha.symm.trans ha')
      obtain ⟨hcov, qp, hslot, -⟩ := hgood hne
      exact absurd ⟨hcovered.mpr hcov, qp, ht.kept.qps ▸ hslot⟩ hno
    · rw [hbody] at heq'
      cases heq'
    · obtain ⟨a', ha', hne⟩ := hactive.mp hact
      obtain rfl : a = a' := Option.some.inj (ha.symm.trans ha')
      obtain ⟨-, qp', hslot', hinit, haccept⟩ := hgood hne
      rw [ht.kept.qps, hslot'] at hslot
      obtain rfl : qp' = qp := by simpa using hslot
      exact absurd ⟨(ht.waiting i qp' le_rfl hslot').trans hinit, haccept⟩ hno

end

/-! ### Runs -/

/-- A call connects queue pairs in INIT only. -/
def ConnectsFromInit (ep : EpBuffer) : Call → Prop
  | .syncIb args lids => ep.FindsInit args (.ib lids)
  | .syncRoce args subnetPrefixes interfaceIds =>
    ep.FindsInit args (.roce subnetPrefixes interfaceIds)
  | _ => True

/-- What can end the process in a call, other than the state of a queue pair. -/
def Fault (ep : EpBuffer) : Call → Prop
  | .syncIb args _ => ep.FaultIn args
  | .syncRoce args _ _ => ep.FaultIn args
  | _ => False

/-- The commands of `update_local_qpns` are legal, however it ends. -/
theorem updateLocalQpns_issued {ep : EpBuffer} (setups : ℕ → SetupAnswers)
    (hle : ep.qps.length ≤ ep.useQpCount) :
    ∀ c ∈ (ep.updateLocalQpns setups).1.device.issued, c ∈ ep.device.issued ∨ c.Legal := by
  intro c hc
  by_cases hlen : ep.qps.length = ep.useQpCount
  · rcases updateLocalQpns_outcome setups hlen with
      ⟨t, heq, hup, -⟩ | ⟨t, heq, hup, -⟩ | ⟨t, heq, hup, -⟩
    · exact hup.issued c (by rwa [heq] at hc)
    · exact hup.issued c (by rwa [heq] at hc)
    · exact hup.issued c (by rwa [heq] at hc)
  · rcases updateLocalQpns_cases setups hle with ⟨-, t, heq, hissued⟩ | ⟨hlen', -⟩
    · rw [heq, hissued] at hc
      exact Or.inl hc
    · exact absurd hlen' hlen

/-- One call after a run whose commands were all legal. -/
theorem call_legal_iff {ep : EpBuffer} (hsound : Sound ep)
    (hlegal : ∀ c ∈ ep.device.issued, c.Legal) (c : Call) :
    (∀ cmd ∈ (ep.call c).1.device.issued, cmd.Legal) ↔ ep.ConnectsFromInit c := by
  cases c with
  | updateLocalQpns setups =>
    refine iff_of_true (fun cmd hcmd => ?_) trivial
    exact (updateLocalQpns_issued setups hsound.length_le cmd hcmd).elim (hlegal cmd) id
  | syncIb args lids => exact syncQps_legal_iff hsound.slots hlegal args (.ib lids)
  | syncRoce args subnetPrefixes interfaceIds =>
    exact syncQps_legal_iff hsound.slots hlegal args (.roce subnetPrefixes interfaceIds)
  | syncNvlinkIpcHandles ipc ans =>
    refine iff_of_true (fun cmd hcmd => hlegal cmd ?_) trivial
    rw [← (ep.syncNvlinkIpcHandles_opening ipc ans).device]
    exact hcmd

/-- A call that connects queue pairs in INIT only and yet ends the process. -/
theorem call_exited {ep : EpBuffer} (hsound : Sound ep) {c : Call} (hc : ep.ConnectsFromInit c)
    (hexit : (ep.call c).2 = some .exited) : ep.Fault c := by
  cases c with
  | updateLocalQpns setups =>
    simp only [EpBuffer.call] at hexit
    by_cases hlen : ep.qps.length = ep.useQpCount
    · -- `update_local_qpns` returns, fails or throws, and never exits.
      rcases updateLocalQpns_outcome setups hlen with
        ⟨t, heq, -⟩ | ⟨t, heq, -⟩ | ⟨t, heq, -⟩
      · rw [heq] at hexit
        cases hexit
      · rw [heq] at hexit
        cases hexit
      · rw [heq] at hexit
        cases hexit
    · rcases updateLocalQpns_cases setups hsound.length_le with ⟨-, t, heq, -⟩ | ⟨hlen', -⟩
      · rw [heq] at hexit
        cases hexit
      · exact absurd hlen' hlen
  -- A call that connects exits when one of its commands fails.
  | syncIb args lids => exact syncQps_exited hsound.slots hc hexit
  | syncRoce args subnetPrefixes interfaceIds => exact syncQps_exited hsound.slots hc hexit
  | syncNvlinkIpcHandles ipc ans =>
    -- Nor does the last call exit.
    simp only [EpBuffer.call, syncNvlinkIpcHandles] at hexit
    split_ifs at hexit <;> cases hexit

/-- In a run whose calls connect queue pairs in INIT only, the commands of the next call are all
legal if and only if it does so too, and then it ends the process only when a queue pair is missing
or another call fails. -/
theorem commands_legal_iff {config : IpcBuffer} {start : NewAnswers → Prop} {ep : EpBuffer}
    (h : ((lives config start).restrict ConnectsFromInit).Reachable ep) (c : Call) :
    ((∀ cmd ∈ (ep.call c).1.device.issued, cmd.Legal) ↔ ep.ConnectsFromInit c) ∧
      (ep.ConnectsFromInit c → (ep.call c).2 = some .exited → ep.Fault c) := by
  have hinv : Sound ep ∧ ∀ cmd ∈ ep.device.issued, cmd.Legal := by
    refine TransitionSystem.Reachable.invariant
      (I := fun u => Sound u ∧ ∀ cmd ∈ u.device.issued, cmd.Legal) ?_ ?_ h
    · rintro u ⟨ans, -, hnew⟩
      obtain ⟨-, hsound, hlegal, -⟩ := new_cases hnew
      exact ⟨hsound, hlegal⟩
    · rintro u c u' - ⟨hsound, hlegal⟩ ⟨hc, hcont, rfl⟩
      exact ⟨(hsound.call hcont).2, (call_legal_iff hsound hlegal c).mpr hc⟩
  exact ⟨call_legal_iff hinv.1 hinv.2 c, call_exited hinv.1⟩

/-! ### The ranks that have joined -/

/-- A call after which the caller goes on has passed all slots. -/
theorem advanced_of_continues {ep : EpBuffer} {next : ℕ} (hslots : Slots next ep.qps)
    {args : SyncArgs} {remote : Remote} (hcont : Continues (ep.syncQps args remote).2) :
    Advanced ep args remote ep.useQpCount (ep.syncQps args remote).1 := by
  unfold syncQps at hcont ⊢
  rcases syncSlots_cases hslots args remote with
    ⟨t, heq, ht⟩ | ⟨i, t, t', e, heq, -, -, hbody⟩
  · rw [heq, andThen_none, (publishRanks_cases t args t.config.numRanks).1]
    exact ht
  · rw [heq, andThen_some] at hcont
    -- The loop over the slots is left by undefined behaviour or `exit(1)` only.
    rcases t.syncSlot_cases args remote i with
      ⟨-, ⟨-, hend⟩ | ⟨-, hend⟩⟩ | ⟨-, -, e', hend, rfl | ⟨rfl, -⟩⟩ |
      ⟨-, -, qp, d, -, -, ⟨hend, -⟩ | ⟨hend, -⟩⟩ <;>
    · rw [hbody] at hend
      cases hend <;> exact absurd hcont id

/-- The slots whose rank was active in a `sync_ib` or `sync_roce` call since their queue pairs were
made, after one more call. -/
def joinedAfter (ep : EpBuffer) (joined : ℕ → Prop) : Call → ℕ → Prop
  | .syncIb args _, i => joined i ∨ ep.Active args i
  | .syncRoce args _ _, i => joined i ∨ ep.Active args i
  | .updateLocalQpns _, _ => False
  | .syncNvlinkIpcHandles _ _, i => joined i

/-- The runs after an initialisation that succeeded, with the slots whose ranks have joined. -/
def memberships (config : IpcBuffer) (start : NewAnswers → Prop) :
    TransitionSystem (EpBuffer × (ℕ → Prop)) Call where
  init x := (lives config start).init x.1 ∧ x.1.ibgdaDisabled = false ∧ ∀ i, ¬x.2 i
  step x c y := (lives config start).step x.1 c y.1 ∧ y.2 = x.1.joinedAfter x.2 c

/-- The queue pairs of the slots whose ranks have joined are in RTS, and the others in INIT. -/
def KnowsJoined (ep : EpBuffer) (joined : ℕ → Prop) : Prop :=
  ∀ (i : ℕ) (qp : Qp), ep.qps[i]? = some (some qp) →
    (joined i → ep.device.qpState qp.mqp = some .rts) ∧
      (¬joined i → ep.device.qpState qp.mqp = some .init)

/-- A call of `sync_ib` or `sync_roce` connects the slots of the active ranks. -/
theorem KnowsJoined.sync {ep : EpBuffer} {joined : ℕ → Prop} (hsound : Sound ep)
    (h : KnowsJoined ep joined) {args : SyncArgs} {remote : Remote}
    (hcont : Continues (ep.syncQps args remote).2) :
    KnowsJoined (ep.syncQps args remote).1 fun i => joined i ∨ ep.Active args i := by
  have hadv := advanced_of_continues hsound.slots hcont
  intro i qp hslot
  rw [hadv.kept.qps] at hslot
  by_cases hact : ep.Active args i
  · obtain ⟨hlt, -⟩ := List.getElem?_eq_some_iff.mp hslot
    exact ⟨fun _ => hadv.connected i qp (hlt.trans_le hsound.length_le) hact hslot,
      fun hno => absurd (Or.inr hact) hno⟩
  · rw [hadv.idle i qp hact hslot]
    exact ⟨fun hjoined => (h i qp hslot).1 (hjoined.resolve_right hact),
      fun hno => (h i qp hslot).2 fun hjoined => hno (Or.inl hjoined)⟩

/-- One call keeps what is known about the queue pairs. -/
theorem KnowsJoined.call {ep : EpBuffer} {joined : ℕ → Prop} (hsound : Sound ep)
    (h : KnowsJoined ep joined) {c : Call} (hcont : Continues (ep.call c).2) :
    KnowsJoined (ep.call c).1 (ep.joinedAfter joined c) := by
  cases c with
  | updateLocalQpns setups =>
    have hinit : AllInit (ep.updateLocalQpns setups).1 := by
      -- With too few slots the behaviour is undefined, and the life ends.
      rcases updateLocalQpns_cases setups hsound.length_le with ⟨-, t, heq, -⟩ | ⟨hlen, -⟩
      · rw [show ep.call (.updateLocalQpns setups) = _ from heq] at hcont
        exact absurd hcont id
      · -- Otherwise every queue pair is a new one, in INIT.
        rcases updateLocalQpns_outcome setups hlen with
          ⟨t, heq, hup, -⟩ | ⟨t, heq, hup, -⟩ | ⟨t, heq, hup, -⟩
        · exact heq ▸ hup.init
        · exact heq ▸ hup.init
        · exact heq ▸ hup.init
    exact fun i qp hslot => ⟨False.elim, fun _ => hinit i qp hslot⟩
  | syncIb args lids => exact h.sync hsound hcont
  | syncRoce args subnetPrefixes interfaceIds => exact h.sync hsound hcont
  | syncNvlinkIpcHandles ipc ans =>
    -- The mappings have nothing to do with the queue pairs.
    have hopen := ep.syncNvlinkIpcHandles_opening ipc ans
    intro i qp hslot
    rw [show (ep.call (.syncNvlinkIpcHandles ipc ans)).1.qps = ep.qps from hopen.qps] at hslot
    rw [show (ep.call (.syncNvlinkIpcHandles ipc ans)).1.device = ep.device from hopen.device]
    exact h i qp hslot

/-- In every state of a life the queue pairs in RTS are those of the ranks that have joined. -/
theorem knowsJoined_of_reachable {config : IpcBuffer} {start : NewAnswers → Prop}
    {x : EpBuffer × (ℕ → Prop)} (h : (memberships config start).Reachable x) :
    Sound x.1 ∧ KnowsJoined x.1 x.2 := by
  refine TransitionSystem.Reachable.invariant
    (I := fun x => Sound x.1 ∧ KnowsJoined x.1 x.2) ?_ ?_ h
  · rintro ⟨ep, joined⟩ ⟨⟨ans, -, hnew⟩, henabled, hnone⟩
    obtain ⟨-, hsound, -, hsetup⟩ := new_cases hnew
    obtain ⟨-, -, -, hdone⟩ := hsetup henabled
    exact ⟨hsound, fun i qp hslot =>
      ⟨fun hjoined => absurd hjoined (hnone i), fun _ => hdone.allInit i qp hslot⟩⟩
  · rintro ⟨ep, joined⟩ c ⟨ep', joined'⟩ - ⟨hsound, hknows⟩ ⟨⟨hcont, rfl⟩, rfl⟩
    exact ⟨(hsound.call hcont).2, hknows.call hsound hcont⟩

/-- After an initialisation that succeeded a call connects queue pairs in INIT only, if and only if
none of the ranks that it sends commands for was active in an earlier call since the queue pair was
made. -/
theorem findsInit_iff_joined {config : IpcBuffer} {start : NewAnswers → Prop} {ep : EpBuffer}
    {joined : ℕ → Prop} (h : (memberships config start).Reachable (ep, joined)) (args : SyncArgs)
    (remote : Remote) :
    ep.FindsInit args remote ↔ ∀ i < ep.useQpCount, (∀ j < i, ep.Passes args remote j) →
      ep.Active args i → ep.Covered args remote i → ∀ qp, ep.qps[i]? = some (some qp) →
        (args.answers i).Send qp → ¬joined i := by
  obtain ⟨-, hknows⟩ := knowsJoined_of_reachable h
  refine forall₄_congr fun i _ _ hact => forall₄_congr fun _ qp hslot _ => ?_
  constructor
  · intro hinit hjoined
    rw [(hknows i qp hslot).1 hjoined] at hinit
    cases hinit
  · exact (hknows i qp hslot).2

/-! ### Two ranks -/

/-- The arguments of a call with the given active ranks. -/
def syncArgs (mask : List (BitVec 32)) : SyncArgs where
  remoteAddrs := List.replicate 2 0
  remoteKeys := List.replicate 2 0
  remoteQpns := List.replicate maxQpCount 0
  activeRanksMask := mask
  answers _ := ⟨true, true, true⟩

/-- The LIDs of the peers. -/
def remoteLids : List (BitVec 32) := List.replicate maxQpCount 0

/-- Two ranks use all 256 queue pairs. -/
theorem useQpCount_twoRanks {ep : EpBuffer} (hconfig : ep.config = twoRanks) :
    ep.useQpCount = 256 := by
  rw [useQpCount, hconfig]
  rfl

/-- The peers of the slots are the two ranks. -/
theorem peerRank_lt {ep : EpBuffer} (hconfig : ep.config = twoRanks) {i : ℕ} (hi : i < 256) :
    peerRank ep.config.numRanks ep.useQpCount i < 2 := by
  rw [useQpCount_twoRanks hconfig, hconfig]
  show i * 2 / 256 < 2
  omega

/-- `sync_ib` in which nothing fails, when the queue pairs of the active ranks are in INIT. -/
theorem syncIb_syncArgs {ep : EpBuffer} (hconfig : ep.config = twoRanks) (hsound : Sound ep)
    (hmr : ep.pointers .mr ≠ none) (mask : List (BitVec 32)) (hmask : mask.length = 2)
    (hready : ∀ i < ep.useQpCount, ∃ qp, ep.qps[i]? = some (some qp) ∧
      (ep.Active (syncArgs mask) i → ep.device.qpState qp.mqp = some .init)) :
    ∃ t, ep.call (.syncIb (syncArgs mask) remoteLids) = (t, none) ∧
      Advanced ep (syncArgs mask) (.ib remoteLids) ep.useQpCount t := by
  have huse := useQpCount_twoRanks hconfig
  refine syncQps_succeeds hsound.slots (fun i hi => ?_) fun i hi t _ hpointers => ?_
  · -- Every turn of the first loop passes: a rank that is not active is skipped, and another is
    -- connected.
    obtain ⟨qp, hslot, hinit⟩ := hready i hi
    rw [huse] at hi
    have hlt : peerRank ep.config.numRanks ep.useQpCount i < mask.length :=
      hmask ▸ peerRank_lt hconfig hi
    refine ⟨_, List.getElem?_eq_getElem hlt,
      fun hne => ⟨?_, qp, hslot, ?_, fun hah => ?_, rfl, rfl⟩⟩
    · show ((List.replicate maxQpCount (0 : BitVec 32))[i]?.isSome &&
        (List.replicate maxQpCount (0 : BitVec 32))[i]?.isSome) = true
      rw [List.getElem?_replicate_of_lt (show i < maxQpCount from hi)]
      rfl
    · exact hinit ⟨_, List.getElem?_eq_getElem hlt, hne⟩
    · exact absurd hah.2 (by simp [syncArgs])
  · -- Every turn of the second loop reads within the arrays.
    rw [hconfig] at hi
    have hi : i < 2 := hi
    have hregistered : t.pointers .mr ≠ none := hpointers ▸ hmr
    have hlt : i < mask.length := by omega
    have hget : mask[i]? = some mask[i] := List.getElem?_eq_getElem hlt
    simp only [publishRank, syncArgs, hget, List.getElem?_replicate_of_lt hi, Option.isSome_some,
      Bool.and_self, if_true, if_neg hregistered]
    split_ifs <;> rfl

/-- The slots after a constructor that left IBGDA enabled. -/
theorem ready_of_done {d : Device} {setups : ℕ → SetupAnswers} {ep : EpBuffer}
    (h : Done d setups ep.useQpCount ep) :
    ∀ i < ep.useQpCount, ∃ qp, ep.qps[i]? = some (some qp) ∧
      ep.device.qpState qp.mqp = some .init := by
  intro i hi
  obtain ⟨qp, hslot, hinit, -⟩ := h.ready i hi
  exact ⟨qp, hslot, hinit⟩

/-- Rank 1 joins, and then rank 0. -/
theorem commands_legal_iff_twoJoin : ∃ ep t u : EpBuffer,
    ep.call (.syncIb (syncArgs [0, 1]) remoteLids) = (t, none) ∧
    ((lives twoRanks fun _ => True).restrict ConnectsFromInit).Reachable t ∧
    t.call (.syncIb (syncArgs [1, 0]) remoteLids) = (u, none) ∧
      ∀ cmd ∈ (t.call (.syncIb (syncArgs [1, 0]) remoteLids)).1.device.issued, cmd.Legal := by
  obtain ⟨ep, hnew, hflag⟩ := new_succeeds twoRanks (InitAnswers.succeed_success .infiniband _)
  obtain ⟨hconfig, hsound, -, hsetup⟩ := new_cases hnew
  obtain ⟨-, -, hmr, hdone⟩ := hsetup hflag
  have hready := ready_of_done hdone
  have hregistered : ep.pointers .mr ≠ none := fun hnone => nomatch hmr.mp hnone
  -- The first call finds everything in INIT.
  obtain ⟨t, heq, ht⟩ := syncIb_syncArgs hconfig hsound hregistered [0, 1] rfl
    fun i hi => (hready i hi).imp fun qp h => ⟨h.1, fun _ => h.2⟩
  have hcont : Continues (ep.call (.syncIb (syncArgs [0, 1]) remoteLids)).2 := by
    rw [heq]
    trivial
  have hstep : (lives twoRanks fun _ => True).step ep (.syncIb (syncArgs [0, 1]) remoteLids) t :=
    ⟨hcont, (congrArg Prod.fst heq).symm⟩
  have hnone : (memberships twoRanks fun _ => True).Reachable (ep, fun _ => False) :=
    .init ⟨⟨_, trivial, hnew⟩, hflag, fun _ => id⟩
  have hfirst : ep.ConnectsFromInit (.syncIb (syncArgs [0, 1]) remoteLids) :=
    (findsInit_iff_joined hnone _ _).mpr fun _ _ _ _ _ _ _ _ => id
  have hreach : ((lives twoRanks fun _ => True).restrict ConnectsFromInit).Reachable t :=
    .step (.init ⟨_, trivial, hnew⟩) ⟨hfirst, hstep⟩
  -- Only rank 1 has joined, and the second call connects rank 0.
  have hjoined : (memberships twoRanks fun _ => True).Reachable
      (t, fun i => False ∨ ep.Active (syncArgs [0, 1]) i) := .step hnone ⟨hstep, rfl⟩
  have hother : ∀ i, t.Active (syncArgs [1, 0]) i → ¬ep.Active (syncArgs [0, 1]) i := by
    rintro i hact ⟨a, ha, hne⟩
    obtain ⟨b, hb, hne'⟩ := (ht.kept.tests _ (.ib remoteLids) i).2.1.mp hact
    replace ha : [0, 1][peerRank ep.config.numRanks ep.useQpCount i]? = some a := ha
    replace hb : [1, 0][peerRank ep.config.numRanks ep.useQpCount i]? = some b := hb
    generalize peerRank ep.config.numRanks ep.useQpCount i = r at ha hb
    match r with
    | 0 => exact hne (Option.some.inj ha).symm
    | 1 => exact hne' (Option.some.inj hb).symm
    | r + 2 => cases ha
  have hsecond : t.FindsInit (syncArgs [1, 0]) (.ib remoteLids) :=
    (findsInit_iff_joined hjoined _ _).mpr fun i _ _ hact _ _ _ _ hjoined =>
      hother i hact (hjoined.resolve_left id)
  obtain ⟨u, heq', -⟩ := syncIb_syncArgs (ht.kept.frame.config.trans hconfig)
    (hstep.2 ▸ (hsound.call hcont).2) (ht.kept.frame.pointers ▸ hregistered)
    [1, 0] rfl fun i hi => by
      obtain ⟨qp, hslot, hinit⟩ := hready i (ht.kept.frame.useQpCount ▸ hi)
      exact ⟨qp, ht.kept.qps ▸ hslot, fun hact => (ht.idle i qp (hother i hact) hslot).trans hinit⟩
  exact ⟨ep, t, u, heq, hreach, heq', (commands_legal_iff hreach _).1.mpr hsecond⟩

/-- `sync_ib` connects all queue pairs, and `sync_roce` with the same ranks sends INIT2RTR to a
queue pair in RTS. -/
theorem second_sync_illegal :
    ¬ ∀ (config : IpcBuffer) (ep : EpBuffer) (c : Call),
      (lives config fun ans =>
        ans.init.Succeed (Buffer.useQpCount maxQpCount config.numRanks)).Reachable ep →
      ∀ cmd ∈ (ep.call c).1.device.issued, cmd.Legal := by
  intro h
  obtain ⟨ep, hnew, hflag⟩ := new_succeeds twoRanks (InitAnswers.succeed_success .infiniband _)
  obtain ⟨hconfig, hsound, hlegal, hsetup⟩ := new_cases hnew
  obtain ⟨-, -, hmr, hdone⟩ := hsetup hflag
  have hready := ready_of_done hdone
  obtain ⟨t, heq, ht⟩ := syncIb_syncArgs hconfig hsound (fun hnone => nomatch hmr.mp hnone)
    [1, 1] rfl fun i hi => (hready i hi).imp fun qp h => ⟨h.1, fun _ => h.2⟩
  have hcont : Continues (ep.call (.syncIb (syncArgs [1, 1]) remoteLids)).2 := by
    rw [heq]
    trivial
  have hreach : (lives twoRanks fun ans =>
      ans.init.Succeed (Buffer.useQpCount maxQpCount twoRanks.numRanks)).Reachable t :=
    .step (.init ⟨_, InitAnswers.succeed_success .infiniband _, hnew⟩)
      ⟨hcont, (congrArg Prod.fst heq).symm⟩
  have hsound' : Sound t := by
    have hcall := (hsound.call hcont).2
    rwa [heq] at hcall
  have hlegal' : ∀ c ∈ t.device.issued, c.Legal := fun c hc =>
    (ht.issued c hc).elim (hlegal c) id
  -- Slot 0 is the first that the second call comes to, and it is in RTS.
  have hfinds := (syncQps_legal_iff hsound'.slots hlegal' (syncArgs [1, 1])
    (.roce (List.replicate 2 0) (List.replicate 2 0))).mp
      (h twoRanks t (.syncRoce (syncArgs [1, 1]) (List.replicate 2 0) (List.replicate 2 0)) hreach)
  have huse := useQpCount_twoRanks hconfig
  have hpeer : peerRank ep.config.numRanks ep.useQpCount 0 = 0 := by
    rw [huse, hconfig]
    rfl
  obtain ⟨qp, hslot, -⟩ := hready 0 (by omega)
  obtain ⟨hpeer', hactive, -⟩ := ht.kept.tests (syncArgs [1, 1])
    (.roce (List.replicate 2 0) (List.replicate 2 0)) 0
  have hactive₀ : ep.Active (syncArgs [1, 1]) 0 := ⟨1, by rw [hpeer]; rfl, by decide⟩
  have hcovered :
      t.Covered (syncArgs [1, 1]) (.roce (List.replicate 2 0) (List.replicate 2 0)) 0 := by
    rw [Covered, hpeer', hpeer]
    rfl
  have hslot' : t.qps[0]? = some (some qp) := ht.kept.qps ▸ hslot
  have huse' : t.useQpCount = 256 := ht.kept.frame.useQpCount.trans huse
  have hinit := hfinds 0 (by omega) (fun j hj => absurd hj (Nat.not_lt_zero j))
    (hactive.mpr hactive₀) hcovered qp hslot' (fun hah => absurd hah.2 (by simp [syncArgs]))
  have hrts := ht.connected 0 qp (by omega) hactive₀ hslot
  rw [hrts] at hinit
  cases hinit

end EpBuffer

end EpDemo.Lifecycle
