import EpDemo.Proofs.System.DispatchDelivers
import EpDemo.Proofs.System.StepsLeft

/-!
# `EpDemo.Proofs.System.Progress`: every call ends on every rank

The ranks wait for each other in loops, without a bound and without a barrier. `exists_step` is the
reason that they do not wait forever: the rank that is furthest behind is waited for by all others
and waits for signals that all of them have sent, since none is in an earlier call and nothing in
the SEND phase of a call waits for another rank. `StepsLeft` turns this into progress.

* `every_call_ends`: in a fair execution every call that is made ends on every rank.
* `finished_iff_stuck`: with a last call, a run has no next step exactly when all ranks have
  finished it. Nothing is left in a queue then (`nic_of_finished`).
-/

set_option autoImplicit false

namespace EpDemo.System.Config

open EpDemo.Kernel EpDemo.Library

variable {A : Type} {c : Config A} {w : World A} {a : Action}

/-- All ranks have ended call `m`. -/
def CallEnded (c : Config A) (m : ℕ) (w : World A) : Prop := ∀ r < c.numRanks, c.CallDone w r m

/-- `EP_DEVICE_ASSERT(num_sms > 1)` of `dispatch` holds. -/
def TwoBlocks (c : Config A) : Prop :=
  ∀ m, c.HasCall m → (c.calls m).kind = .dispatch → 1 < cellDiv c.numExperts kNumWarpGroups

/-- A launch has a block. -/
theorem numSms_pos (hv : c.Sound) : 0 < cellDiv c.numExperts kNumWarpGroups := by
  have hpos : 0 < c.numExperts := Valid.numExperts_pos (c := c.untimed) hv
  show 0 < (c.numExperts + 8 - 1) / 8
  omega

/-! ### Calls that have ended -/

/-- A rank that has ended a call has come to it. -/
theorem le_of_callDone (hl : c.Launches w) {r m : ℕ} (hr : r < c.numRanks)
    (hdone : c.CallDone w r m) : m ≤ w.call r := by
  by_contra hlt
  obtain ⟨hdisp, hcomb⟩ := hl.future r hr m (by omega)
  cases hkind : (c.calls m).kind with
  | dispatch =>
    have hrecving := (hdone.1 hkind).recving
    rw [hdisp.recving] at hrecving
    cases hrecving
  | combine =>
    have hreducing := (hdone.2 hkind).1
    rw [hcomb.reducing] at hreducing
    cases hreducing

/-- A rank has ended the calls before its current one. -/
theorem callDone_of_lt (hl : c.Launches w) {r m : ℕ} (hr : r < c.numRanks) (hm : m < w.call r) :
    c.CallDone w r m := ⟨hl.dispDone r hr m hm, hl.combDone r hr m hm⟩

/-- A call that has ended has sent its signals. -/
theorem signalSent_of_callDone (hl : c.Launches w) {r m e : ℕ} (hr : r < c.numRanks)
    (hdone : c.CallDone w r m) (he : e < c.numExperts) : c.SignalSent w m r e := by
  have hle := le_of_callDone hl hr hdone
  unfold SignalSent
  cases hkind : (c.calls m).kind with
  | dispatch =>
    have hsignals := (Dispatch.order_of_runs (hl.disp r hr _ hle hkind)).signals
      (hdone.1 hkind).recving e he
    simp only [hsignals]
    rfl
  | combine =>
    have hsend := (Combine.order_of_runs (hl.comb r hr _ hle hkind)).sendDone (hdone.2 hkind).1
    simp only [hsend.2 e he]
    rfl

/-- It has acquired the signals of all ranks. -/
theorem taken_of_callDone (hl : c.Launches w) {r m e : ℕ} (hr : r < c.numRanks)
    (hdone : c.CallDone w r m) (he : e < c.numExperts) : c.Taken w m r e := by
  have hle := le_of_callDone hl hr hdone
  unfold Taken
  cases hkind : (c.calls m).kind with
  | dispatch =>
    have hready := (hdone.1 hkind).ready e he
    simp only [hready]
    rfl
  | combine =>
    exact (Combine.order_of_runs (hl.comb r hr _ hle hkind)).passed (hdone.2 hkind).1 e he

/-! ### There is always a step that leads on -/

/-- What a kernel can do on its own, the system can do. -/
theorem enabled_dispatch {r : ℕ} {b : Dispatch.Action} (hr : r < c.numRanks)
    (hkind : (c.calls (w.call r)).kind = .dispatch) (hwait : b.waiter = none)
    (hen : Dispatch.enabled (c.launch r (w.call r)) (w.disp (r, w.call r)) b) :
    c.enabled w (.dispatch r b) ∧ ¬c.Idle w (.dispatch r b) := by
  cases b with
  | acquire | miss | expire | giveUp | retry => cases hwait
  | _ => exact ⟨⟨hr, hkind, hen, fun x hx => by cases hx⟩, not_false⟩

/-- A step of `combine` that is not a signal wait is one of the system, and leads on. -/
theorem enabled_combine {r : ℕ} {b : Combine.Action} (hr : r < c.numRanks)
    (hkind : (c.calls (w.call r)).kind = .combine) (hwait : b.waiter = none)
    (hen : Combine.enabled (c.combineLaunch w r (w.call r)) (w.comb (r, w.call r)) b) :
    c.enabled w (.combine r b) ∧ ¬c.Idle w (.combine r b) := by
  cases b with
  | acquire | miss | expire | giveUp | retry => cases hwait
  | _ => exact ⟨⟨hr, hkind, hen, fun x hx => by cases hx⟩, not_false⟩

/-- A signal wait whose signal has landed can look at it. -/
theorem enabled_wait (hv : c.Valid) (halt : c.Alternates) (h : c.system.Reachable w) {r e : ℕ}
    (hr : r < c.numRanks) (he : e < c.numExperts) (hland : c.SignalLanded w r e)
    (hwait : ((c.calls (w.call r)).kind = .dispatch ∧ (w.disp (r, w.call r)).recving = true ∧
        ((w.disp (r, w.call r)).recv e = .waiting ∨ (w.disp (r, w.call r)).recv e = .missed)) ∨
      ((c.calls (w.call r)).kind = .combine ∧
        (w.comb (r, w.call r)).RecvStarted (c.combineLaunch w r (w.call r)) e ∧
        ((w.comb (r, w.call r)).recv e = .waiting ∨ (w.comb (r, w.call r)).recv e = .missed))) :
    ∃ a, c.enabled w a ∧ ¬c.Idle w a := by
  have hl := launches_of_reachable hv.sound h
  -- The signal has arrived, so that the word is not zero.
  have hne := (sig_ne_zero_iff hv halt h hr he).mpr hland
  -- No rank was given up, since no timeout is set.
  have hactive := hl.active hv r hr _ le_rfl
  obtain ⟨hkind, hrecving, hpc⟩ | ⟨hkind, hstarted, hpc⟩ := hwait
  · simp only [waitCell, hkind] at hne
    -- A waiting warp takes the word, and one that has missed it looks again.
    cases hpc with
    | inl hpc =>
      refine ⟨.dispatch r (.acquire e _), ⟨hr, hkind, ⟨hrecving, he, hpc, hne⟩, ?_⟩, not_false⟩
      intro x hx
      cases hx
      rfl
    | inr hpc =>
      refine ⟨.dispatch r (.retry e), ⟨hr, hkind, ⟨he, hpc, ?_⟩, fun x hx => by cases hx⟩,
        not_not.mpr hland⟩
      rw [hactive.1 hkind]
      exact one_ne_zero
  · simp only [waitCell, hkind] at hne
    cases hpc with
    | inl hpc =>
      refine ⟨.combine r (.acquire e _), ⟨hr, hkind, ⟨he, hpc, hstarted, hne⟩, ?_⟩, not_false⟩
      intro x hx
      cases hx
      rfl
    | inr hpc =>
      refine ⟨.combine r (.retry e), ⟨hr, hkind, ⟨he, hpc, ?_⟩, fun x hx => by cases hx⟩,
        not_not.mpr hland⟩
      rw [hactive.2 hkind]
      exact one_ne_zero

/-- A kernel that stands still has sent its signals, and one that has not ended waits for one. -/
theorem of_standing (hv : c.Valid) (hblocks : c.TwoBlocks) (hl : c.Launches w)
    (hstuck : ∀ a, c.enabled w a → c.Idle w a) {r : ℕ} (hr : r < c.numRanks)
    (hdone : ¬c.KernelDone w r) :
    (∀ e < c.numExperts, c.SignalSent w (w.call r) r e) ∧ ∃ e < c.numExperts,
      ((c.calls (w.call r)).kind = .dispatch ∧ (w.disp (r, w.call r)).recving = true ∧
        ((w.disp (r, w.call r)).recv e = .waiting ∨ (w.disp (r, w.call r)).recv e = .missed)) ∨
      ((c.calls (w.call r)).kind = .combine ∧
        (w.comb (r, w.call r)).RecvStarted (c.combineLaunch w r (w.call r)) e ∧
        ((w.comb (r, w.call r)).recv e = .waiting ∨ (w.comb (r, w.call r)).recv e = .missed)) := by
  -- Nothing but idle polling is enabled, so the kernel has no work of its own left.
  have hcall := hl.hasCall r hr
  cases hkind : (c.calls (w.call r)).kind with
  | dispatch =>
    -- In dispatch the receiving side starts behind the signals.
    have hrun := hl.disp r hr _ le_rfl hkind
    have hnot : ¬(w.disp (r, w.call r)).Done (c.launch r (w.call r)) := by
      refine fun h => hdone ⟨fun _ => h, fun hk => ?_⟩
      rw [hkind] at hk
      cases hk
    obtain ⟨b, hwait, hben⟩ | ⟨hrecving, e, he, hpc⟩ :=
      Dispatch.exists_work (hv.sound.fits hcall hr) (hblocks _ hcall hkind) hrun hnot
    · obtain ⟨hen, hidle⟩ := enabled_dispatch hr hkind hwait hben
      exact absurd (hstuck _ hen) hidle
    · refine ⟨fun e he => ?_, e, he, .inl ⟨rfl, hrecving, hpc⟩⟩
      have hsignals := (Dispatch.order_of_runs hrun).signals hrecving e he
      simp only [SignalSent, hkind, hsignals]
      rfl
  | combine =>
    -- In combine the waits start behind the rows, and behind the signals.
    have hrun := hl.comb r hr _ le_rfl hkind
    have hnot : ¬(w.comb (r, w.call r)).Done (c.combineLaunch w r (w.call r)) := by
      refine fun h => hdone ⟨fun hk => ?_, fun _ => h⟩
      rw [hkind] at hk
      cases hk
    obtain ⟨b, hwait, hben⟩ | ⟨hsend, e, he, hpc⟩ :=
      Combine.exists_work (l := c.combineLaunch w r (w.call r)) hv.numExperts_lt
        (numSms_pos hv.sound) hrun hnot
    · obtain ⟨hen, hidle⟩ := enabled_combine hr hkind hwait hben
      exact absurd (hstuck _ hen) hidle
    · refine ⟨fun e he => ?_, e, he, .inr ⟨rfl, ?_, hpc⟩⟩
      · simp only [SignalSent, hkind, hsend.2 e he]
        rfl
      · unfold Combine.State.RecvStarted
        split
        · exact (Combine.order_of_runs hrun).rowsSent e (by rw [hsend.2 e he]; decide)
        · exact hsend

/-- As long as some rank has not ended a call that is made, there is a step that leads on. -/
theorem exists_step (hv : c.Valid) (halt : c.Alternates) (hblocks : c.TwoBlocks)
    (h : c.system.Reachable w) {m : ℕ} (hm : c.HasCall m) (hgoal : ¬c.CallEnded m w) :
    ∃ a, c.enabled w a ∧ ¬c.Idle w a := by
  by_contra hnone
  have hstuck : ∀ a, c.enabled w a → c.Idle w a := fun a hen => by
    by_contra hidle
    exact hnone ⟨a, hen, hidle⟩
  have hl := launches_of_reachable hv.sound h
  have hnic : ∀ r ctx, w.nic (r, ctx) = [] := by
    intro r ctx
    by_contra hne
    exact hstuck (.deliver r ctx) hne
  -- `p` is the rank that is furthest behind.
  obtain ⟨p, hp, hleast⟩ : ∃ p < c.numRanks, (¬c.CallDone w p m) ∧
      ∀ q < c.numRanks, ¬c.CallDone w q m → w.call p ≤ w.call q := by
    classical
    have hne : ((Finset.range c.numRanks).filter fun q => ¬c.CallDone w q m).Nonempty := by
      unfold CallEnded at hgoal
      push Not at hgoal
      obtain ⟨q, hq, hdone⟩ := hgoal
      exact ⟨q, Finset.mem_filter.mpr ⟨Finset.mem_range.mpr hq, hdone⟩⟩
    obtain ⟨p, hp, hmin⟩ := Finset.exists_min_image _ w.call hne
    obtain ⟨hp, hdone⟩ := Finset.mem_filter.mp hp
    exact ⟨p, Finset.mem_range.mp hp, hdone, fun q hq hq' =>
      hmin q (Finset.mem_filter.mpr ⟨Finset.mem_range.mpr hq, hq'⟩)⟩
  obtain ⟨hnot, hleast⟩ := hleast
  have hpm : w.call p ≤ m := by
    by_contra hlt
    exact hnot (callDone_of_lt hl hp (by omega))
  have hrunning : ¬c.KernelDone w p := by
    intro hdone
    cases hpm.lt_or_eq with
    | inl hlt => exact hstuck (.advance p) ⟨hp, hm.of_le hlt, hdone⟩
    | inr heq => exact hnot (heq ▸ hdone)
  -- All ranks have sent their signals of its call.
  have hsent : ∀ q < c.numRanks, ∀ e < c.numExperts, c.SignalSent w (w.call p) q e := by
    intro q hq e he
    have hle : w.call p ≤ w.call q := by
      by_cases hdone : c.CallDone w q m
      · exact hpm.trans (le_of_callDone hl hq hdone)
      · exact hleast q hq hdone
    cases hle.lt_or_eq with
    | inl hlt => exact signalSent_of_callDone hl hq (callDone_of_lt hl hq hlt) he
    | inr heq =>
      by_cases hdone : c.KernelDone w q
      · exact signalSent_of_callDone hl hq (heq ▸ hdone) he
      · rw [heq]
        exact (of_standing hv hblocks hl hstuck hq hdone).1 e he
  obtain ⟨-, e, he, hwait⟩ := of_standing hv hblocks hl hstuck hp hrunning
  have hexpert : p * c.numLocalExperts + e % c.numLocalExperts < c.numExperts :=
    hv.expert_lt hp (hv.mod_lt e)
  have hland : c.SignalLanded w p e := by
    refine ⟨hsent _ (hv.div_lt he) _ hexpert, ?_⟩
    rintro ⟨x, hx, -⟩
    rw [hnic] at hx
    cases hx
  exact hnone (enabled_wait hv halt h hp he hland hwait)

/-- What leads to the end of a call. -/
theorem progress (hv : c.Valid) (halt : c.Alternates) (hblocks : c.TwoBlocks) {m : ℕ}
    (hm : c.HasCall m) :
    Machine.Progress c.machine c.Init c.Idle (c.CallEnded m) (c.measure m) where
  work w a h hgoal hen hidle := by
    refine measure_fire_lt hv h hen hidle fun r ha => ?_
    subst ha
    have hl := launches_of_reachable hv.sound h
    unfold CallEnded at hgoal
    push Not at hgoal
    obtain ⟨q, hq, hdone⟩ := hgoal
    -- A rank that has not ended the call is in it or before it.
    have hle : w.call q ≤ m := by
      by_contra hlt
      exact hdone (callDone_of_lt hl hq (by omega))
    exact (call_le_succ hv halt h hen.1 hq).trans (Nat.succ_le_succ hle)
  idle w a h _ hen hidle :=
    ⟨(measure_fire_idle hv halt h hen hidle).le, fun _ hb hbi =>
      ⟨enabled_fire_idle hv halt h hen hidle hb hbi,
        mt (idle_of_idle_fire hv halt h hen hidle) hbi⟩⟩
  live w h hgoal := exists_step hv halt hblocks h hm hgoal

/-- In a fair execution every call that is made ends on every rank. -/
theorem every_call_ends (c : Config A) (hv : c.Valid) (halt : c.Alternates) (hblocks : c.TwoBlocks)
    (x : c.machine.Execution c.Init) (hfair : x.WeaklyFair) (m : ℕ) (hm : c.HasCall m) :
    ∃ n, ∀ r < c.numRanks, c.CallDone (x.state n) r m :=
  (progress hv halt hblocks hm).eventually x hfair

/-! ### Where a run ends -/

/-- A rank that has ended a call has acquired every signal to it, so they have landed. -/
theorem landed_of_callDone (hv : c.Valid) (halt : c.Alternates)
    (h : c.system.Reachable w) {k r e : ℕ}
    (hr : r < c.numRanks) (he : e < c.numExperts) (hdone : c.CallDone w (e / c.numLocalExperts) k) :
    c.Landed w k r (.signal e) := by
  have hl := launches_of_reachable hv.sound h
  have hd := hv.div_lt he
  have hi := sendCell_lt hv.sound hr (m := k) (e := e)
  obtain ⟨hsender, hexpert⟩ := cell_of_sendCell hv.sound hr (m := k) (e := e)
  have htaken : (k, (⟨_, hd⟩ : Fin c.numRanks), (⟨_, hi⟩ : Fin c.numExperts)) ∈ (c.view w).taken :=
    taken_of_callDone hl hd hdone (waiter_lt hv.sound hi)
  have hland : c.Landed w k (c.cellSender k (c.sendCell k r e)) (.signal
      (c.cellExpert k (e / c.numLocalExperts) (c.sendCell k r e))) :=
    (handshake_of_reachable hv halt h).landed_of_taken _ htaken
  rwa [hsender, hexpert] at hland

/-- Nothing that was sent to it in the call is in a queue any more. -/
theorem not_pending_of_callDone (hv : c.Valid) (halt : c.Alternates) (h : c.system.Reachable w)
    {k r : ℕ} {q : Request} (hr : r < c.numRanks) (he : c.requestExpert k r q < c.numExperts)
    (hdone : c.CallDone w (c.requestExpert k r q / c.numLocalExperts) k) : ¬c.Pending w k r q := by
  obtain ⟨hsent, hnot⟩ := landed_of_callDone hv halt h hr he hdone
  cases q with
  | signal e => exact hnot
  | data key =>
    exact fun hp => hnot ((queues_of_reachable hv.sound h).signalled k r _ hsent key rfl hp)

/-- When all ranks have finished their last call, the queues are empty. -/
theorem nic_of_finished (hv : c.Valid) (halt : c.Alternates) (h : c.system.Reachable w)
    (hfin : c.Finished w) (r ctx : ℕ) : w.nic (r, ctx) = [] := by
  have hl := launches_of_reachable hv.sound h
  have hq := queues_of_reachable hv.sound h
  refine List.eq_nil_iff_forall_not_mem.mpr fun x hx => ?_
  have hr := hq.rank r ctx x hx
  have he := hq.expert r ctx x hx
  have hd := hv.div_lt he
  refine not_pending_of_callDone hv halt h hr he ?_ (hq.pending_of_mem hx)
  -- All ranks are in their last call.
  have hle := hl.le_of_sent hr (hq.sent r ctx x hx)
  have hlast := (hfin _ hd).1
  rw [(hfin r hr).1, Option.some.injEq, Nat.succ.injEq] at hlast
  rw [hlast] at hle
  cases hle.lt_or_eq with
  | inl hlt => exact callDone_of_lt hl hd hlt
  | inr heq =>
    have hdone : c.CallDone w _ (w.call _) := (hfin _ hd).2
    rwa [← heq] at hdone

/-- Nothing is left to do then. -/
theorem not_enabled_of_finished (hv : c.Valid) (halt : c.Alternates) (h : c.system.Reachable w)
    (hfin : c.Finished w) (a : Action) : ¬c.enabled w a := by
  have hl := launches_of_reachable hv.sound h
  intro hen
  cases a with
  | dispatch r b =>
    obtain ⟨hr, hkind, hben, -⟩ := hen
    exact Dispatch.not_enabled_of_done (hv.sound.fits (hl.hasCall r hr) hr) (numSms_pos hv.sound)
      (hl.disp r hr _ le_rfl hkind) ((hfin r hr).2.1 hkind) b hben
  | combine r b =>
    obtain ⟨hr, hkind, hben, -⟩ := hen
    exact Combine.not_enabled_of_done (hl.comb r hr _ le_rfl hkind) ((hfin r hr).2.2 hkind) b hben
  | deliver r ctx => exact hen (nic_of_finished hv halt h hfin r ctx)
  | advance r => exact absurd (hen.2.1 _ (hfin r hen.1).1) (lt_irrefl _)

/-- A run with a last call has no next step exactly when every rank has finished it. -/
theorem finished_iff_stuck (c : Config A) (hv : c.Valid) (halt : c.Alternates)
    (hblocks : c.TwoBlocks) (n : ℕ) (hlen : c.length = some n) (w : World A)
    (h : c.system.Reachable w) : c.Finished w ↔ ∀ a, ¬c.enabled w a := by
  have hl := launches_of_reachable hv.sound h
  constructor
  · exact fun hfin => not_enabled_of_finished hv halt h hfin
  · intro hstuck
    have hpos := (hasCall_iff_of_length hlen).mp hv.hasCall
    have hended : c.CallEnded (n - 1) w := by
      by_contra hgoal
      have hm : c.HasCall (n - 1) := (hasCall_iff_of_length hlen).mpr (by omega)
      obtain ⟨a, hen, -⟩ := exists_step hv halt hblocks h hm hgoal
      exact hstuck a hen
    intro r hr
    have hle := le_of_callDone hl hr (hended r hr)
    have hlt := (hasCall_iff_of_length hlen).mp (hl.hasCall r hr)
    obtain heq : n - 1 = w.call r := by omega
    refine ⟨by rw [hlen, ← heq]; congr 1; omega, ?_⟩
    have hdone := hended r hr
    rw [heq] at hdone
    exact hdone

/-! ### Two ranks -/

/-- The two ranks have ten experts, which need two blocks. -/
theorem twoRanks_twoBlocks (length : Option ℕ) (buf clean : ℕ → ℕ) :
    (twoRanks length buf clean).TwoBlocks := fun _ _ _ => (by decide : 1 < cellDiv 10 8)

/-- The steps of a whole `dispatch` of both ranks, one after the other. -/
theorem wholeDispatch_run :
    let c := twoRanks (some 1) (fun _ => 0) fun _ => 1
    c.machine.Legal blank wholeDispatch ∧ c.Finished (c.machine.exec blank wholeDispatch) := by
  decide +kernel

/-- After both ranks have ended it there is nothing left to do. -/
theorem finished_iff_stuck_twoRanks :
    let c := twoRanks (some 1) (fun _ => 0) fun _ => 1
    let w := c.machine.exec blank wholeDispatch
    c.Finished w ↔ ∀ a, ¬c.enabled w a := by
  intro c w
  exact finished_iff_stuck c (twoRanks_valid (by simp) _ _)
    (SingleDispatch.alternates ⟨rfl, rfl, by decide⟩) (twoRanks_twoBlocks _ _ _) 1 rfl w
    (Machine.reachable_exec _ (.init (blank_init _ _ _)) wholeDispatch_run.1)

/-- The execution that takes these steps and then stops is fair. -/
theorem every_call_ends_twoRanks :
    let c := twoRanks (some 1) (fun _ => 0) fun _ => 1
    ∃ x : c.machine.Execution c.Init, x.WeaklyFair ∧ ∃ n, ∀ r < 2, c.CallDone (x.state n) r 0 := by
  intro c
  have hv : c.Valid := twoRanks_valid (by simp) _ _
  have halt : c.Alternates := SingleDispatch.alternates ⟨rfl, rfl, by decide⟩
  have hinit : c.Init blank := blank_init _ _ _
  have hreach : c.system.Reachable (c.machine.exec blank wholeDispatch) :=
    Machine.reachable_exec _ (.init hinit) wholeDispatch_run.1
  have hfair := Machine.Execution.ofSchedule_weaklyFair hinit wholeDispatch_run.1
    (not_enabled_of_finished hv halt hreach wholeDispatch_run.2)
  exact ⟨_, hfair, every_call_ends c hv halt (twoRanks_twoBlocks _ _ _) _ hfair 0 hv.hasCall⟩

end EpDemo.System.Config
