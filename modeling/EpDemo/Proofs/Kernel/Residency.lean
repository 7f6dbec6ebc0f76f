import EpDemo.Kernel.Residency
import EpDemo.Library.Loop
import EpDemo.Proofs.Kernel.CombineRun
import Mathlib.Algebra.Order.BigOperators.Group.Finset

/-!
# `EpDemo.Proofs.Kernel.Residency`: when `combine` cannot deadlock

Every thread of the SEND phase waits for the clean flag, which a warp of block 0 sets, and the
grid barrier waits for every block. While all blocks can be resident, some step is always
enabled: `progress` goes through the phases in their order and finds, in each, the first thing
that is left to do. On a device that holds fewer blocks the scheduler can leave block 0 out. The
warps of the others do what they can and then wait for the flag for good (`exists_deadlock`).

`never_deadlocks_iff` puts both directions together.
-/

set_option autoImplicit false

namespace EpDemo.Kernel.Combine

open EpDemo.Library

section

variable {l : CombineLaunch} {C : ℕ} {s : State} {p : Device}

/-! ### What the warps keep -/

/-- What the steps of the warps keep, whatever the device does. -/
structure Sound (l : CombineLaunch) (s : State) : Prop where
  gate : Gate l s
  staged : ∀ e k, s.row (e, k) = .staged → l.staged e = true
  reduced_le : ∀ x, s.reduced x ≤ l.numTopk
  sendDone : s.reducing = true → s.SendDone l

/-- A fresh launch is sound. -/
theorem Sound.fresh (hs : s.Fresh) (hflag : s.ws 0 = 0) : Sound l s where
  gate := .fresh hs hflag
  staged e k h := by simp [hs.row] at h
  reduced_le x := by simp [hs.reduced]
  sendDone h := by simp [hs.reducing] at h

/-- Every step of a warp keeps a launch sound. -/
theorem Sound.fire {a : Action} (h : Sound l s) (ha : enabled l s a) : Sound l (fire l s a) where
  gate := h.gate.fire ha
  staged e k hrow := by
    have key : ∀ (i j : ℕ) (pc : RowPc), (pc = .staged → l.staged i = true) →
        Function.update s.row (i, j) pc (e, k) = .staged → l.staged e = true := by
      intro i j pc hpc hrow
      by_cases hx : (e, k) = (i, j)
      · cases hx
        rw [Function.update_self] at hrow
        exact hpc hrow
      · rw [Function.update_of_ne hx] at hrow
        exact h.staged e k hrow
    cases a with
    | stageRow i j => exact key i j _ (fun _ => ha.2.2.1) hrow
    | sendRow i j => exact key i j _ (fun h => absurd h (by decide)) hrow
    | _ => exact h.staged e k hrow
  reduced_le x := reduced_le_fire ha (h.reduced_le x)
  sendDone hr := sendDone_of_reducing_fire ha h.sendDone hr

/-- What a block has done in the SEND phase stays done. -/
theorem BlockSent_mono {a : Action} {b : ℕ} (ha : enabled l s a) (h : s.BlockSent l b) :
    (fire l s a).BlockSent l b := by
  refine ⟨fun hb => published_mono (h.1 hb), fun e he heb => ?_⟩
  obtain ⟨hrows, hdone⟩ := h.2 e he heb
  exact ⟨fun k hk => (row_sent_fire ha _).mpr (.inl (hrows k hk)), signal_done_mono ha hdone⟩

/-- What a block has done in the RECV phase stays done. -/
theorem BlockReduced_mono {a : Action} {b : ℕ} (h : s.BlockReduced l b) :
    (fire l s a).BlockReduced l b :=
  ⟨reducing_mono h.1, fun t ht htb w hw => stored_mono (h.2 t ht htb w hw)⟩

/-- The block of an expert exists. -/
theorem div_lt_numSms {e : ℕ} (he : e < l.numExperts) : e / kNumWarpGroups < l.numSms := by
  simp only [Launch.numSms, cellDiv, kNumWarpGroups]
  omega

/-- When every block has finished the SEND phase, every thread has. -/
theorem sendDone_of_blocks (hpos : 0 < l.numSms) (h : ∀ b < l.numSms, s.BlockSent l b) :
    s.SendDone l :=
  ⟨(h 0 hpos).1 rfl, fun e he => ((h _ (div_lt_numSms he)).2 e he rfl).2⟩

/-! ### What the device keeps -/

/-- The blocks and the warps agree: a block that has left has finished, and the second launch
starts after the first. -/
structure Device.Coherent (l : CombineLaunch) (p : Device) : Prop where
  sound : Sound l p.kernel
  recv : ∀ e, p.kernel.recv e ≠ .missed
  second : p.second = true → l.fused = false ∧ p.kernel.SendDone l
  sent : ∀ b, p.block b = .finished → p.second = false → p.kernel.BlockSent l b
  reduced : ∀ b, p.block b = .finished → p.Receiving l → p.kernel.BlockReduced l b

namespace Device.Coherent

/-- On a fresh device no block has started. -/
theorem fresh (h : p.Fresh) : p.Coherent l where
  sound := .fresh h.kernel h.flag
  recv e := by simp [h.kernel.recv]
  second hs := by simp [h.second] at hs
  sent b hb := by simp [h.block] at hb
  reduced b hb := by simp [h.block] at hb

/-- The warps take some steps and leave the wait loops they have gone into. -/
theorem warps (h : p.Coherent l) {acts : List Action} (hl : (machine l).Legal p.kernel acts)
    (hrecv : ∀ e, ((machine l).exec p.kernel acts).recv e ≠ .missed) :
    Device.Coherent l { p with kernel := (machine l).exec p.kernel acts } := by
  have keep : ∀ I : State → Prop, (∀ s a, I s → enabled l s a → I (Combine.fire l s a)) →
      I p.kernel → I ((machine l).exec p.kernel acts) :=
    fun I hI h₀ => Machine.exec_invariant hI acts h₀ hl
  constructor
  · exact keep (Sound l) (fun _ _ hs ha => hs.fire ha) h.sound
  · exact hrecv
  · intro hs
    obtain ⟨hfused, hdone⟩ := h.second hs
    exact ⟨hfused, keep (State.SendDone l) (fun _ _ hs ha => SendDone_mono ha hs) hdone⟩
  · intro b hb hs
    exact keep (State.BlockSent l · b) (fun _ _ hs ha => BlockSent_mono ha hs) (h.sent b hb hs)
  · intro b hb hr
    exact keep (State.BlockReduced l · b) (fun _ _ hs _ => BlockReduced_mono hs) (h.reduced b hb hr)

/-- Passing the wait for one expert leaves no other one in its loop. -/
theorem recv_update (h : p.Coherent l) (e₀ e : ℕ) :
    Function.update p.kernel.recv e₀ .passed e ≠ .missed := by
  by_cases he : e = e₀
  · rw [he, Function.update_self]
    decide
  · rw [Function.update_of_ne he]
    exact h.recv e

/-- Every step of the device keeps the agreement. -/
theorem fire (hpos : 0 < l.numSms) (h : p.Coherent l) {a : DeviceAction}
    (ha : deviceEnabled l C p a) : (deviceFire l p a).Coherent l := by
  cases a with
  | schedule b =>
    -- A block that starts has not finished.
    have hold : ∀ b', Function.update p.block b .resident b' = .finished →
        p.block b' = .finished := by
      intro b' hb'
      by_cases hbb : b' = b
      · rw [hbb, Function.update_self] at hb'
        exact absurd hb' (by decide)
      · rwa [Function.update_of_ne hbb] at hb'
    exact { h with
      sent := fun b' hb' => h.sent b' (hold b' hb')
      reduced := fun b' hb' => h.reduced b' (hold b' hb') }
  | exit b =>
    obtain ⟨-, -, hsent, hreduced⟩ := ha
    -- The block that leaves has done what it waited for.
    have hold : ∀ b', Function.update p.block b .finished b' = .finished →
        b' = b ∨ p.block b' = .finished := by
      intro b' hb'
      by_cases hbb : b' = b
      · exact .inl hbb
      · rw [Function.update_of_ne hbb] at hb'
        exact .inr hb'
    refine { h with sent := fun b' hb' => ?_, reduced := fun b' hb' => ?_ }
    · rcases hold b' hb' with rfl | hb'
      · exact hsent
      · exact h.sent b' hb'
    · rcases hold b' hb' with rfl | hb'
      · exact hreduced
      · exact h.reduced b' hb'
  | relaunch =>
    obtain ⟨hfused, hsecond, hall⟩ := ha
    -- The second launch starts when all blocks of the first have left, so all of them have sent.
    have hdone : p.kernel.SendDone l :=
      sendDone_of_blocks hpos fun b hb => h.sent b (hall b hb) hsecond
    have hpending : BlockPc.pending ≠ .finished := by decide
    exact ⟨h.sound, h.recv, fun _ => ⟨hfused, hdone⟩, fun _ hb => absurd hb hpending,
      fun _ hb => absurd hb hpending⟩
  | deliver e => exact { h with }
  | act a =>
    obtain ⟨hwaits, -, -, -, hen⟩ := ha
    have hl : (machine l).Legal p.kernel [a] := ⟨hen, trivial⟩
    -- No step of a warp leaves a wait behind that has missed.
    refine h.warps hl fun e => ?_
    cases a with
    | acquire i v => exact h.recv_update i e
    | miss i => simp [Action.waits] at hwaits
    | expire i => simp [Action.waits] at hwaits
    | giveUp i => simp [Action.waits] at hwaits
    | retry i => simp [Action.waits] at hwaits
    | _ => exact h.recv e
  | timeout e₀ =>
    -- A timeout misses and gives up in one.
    refine h.warps ha.2.2 fun e => ?_
    show Function.update (Function.update p.kernel.recv e₀ .missed) e₀ .passed e ≠ .missed
    rw [Function.update_idem]
    exact h.recv_update e₀ e
  | inactive e₀ =>
    refine h.warps ha.2.2 fun e => ?_
    show Function.update (Function.update p.kernel.recv e₀ .missed) e₀ .passed e ≠ .missed
    rw [Function.update_idem]
    exact h.recv_update e₀ e

/-- The agreement holds in every run. -/
theorem of_reachable (hpos : 0 < l.numSms) (h : (device l C).Reachable p) : p.Coherent l := by
  refine h.invariant (I := Device.Coherent l) (fun q hq => fresh hq) ?_
  rintro q a q' - hq ⟨hen, rfl⟩
  exact hq.fire hpos hen

end Device.Coherent

/-! ### All blocks resident -/

/-- A pending block can be scheduled while the device has room for all. -/
theorem schedule_of_pending (hC : l.numSms ≤ C) {b : ℕ} (hb : b < l.numSms)
    (hpc : p.block b = .pending) : deviceEnabled l C p (.schedule b) := by
  refine ⟨hb, hpc, lt_of_lt_of_le ?_ hC⟩
  have hne : p.block b ≠ .resident := by
    rw [hpc]
    decide
  have hle : p.numResident l ≤ l.numSms :=
    (Finset.card_filter_le _ _).trans_eq (Finset.card_range _)
  refine lt_of_le_of_ne hle fun heq => hne ?_
  exact forall_of_card_filter_eq (p := fun b => p.block b = .resident)
    (heq.trans (Finset.card_range _).symm) b (Finset.mem_range.mpr hb)

/-- A block that is not pending and has work left in the SEND phase is resident. -/
theorem Device.Coherent.resident_of_not_sent (h : p.Coherent l) (hsecond : p.second = false)
    {b : ℕ} (hpc : p.block b ≠ .pending) (hleft : ¬p.kernel.BlockSent l b) :
    p.block b = .resident := by
  cases hb : p.block b with
  | pending => exact absurd hb hpc
  | resident => rfl
  | finished => exact absurd (h.sent b hb hsecond) hleft

/-- A block that is not pending and has work left in the RECV phase is resident. -/
theorem Device.Coherent.resident_of_not_reduced (h : p.Coherent l) (hrecv : p.Receiving l)
    {b : ℕ} (hpc : p.block b ≠ .pending) (hleft : ¬p.kernel.BlockReduced l b) :
    p.block b = .resident := by
  cases hb : p.block b with
  | pending => exact absurd hb hpc
  | resident => rfl
  | finished => exact absurd (h.reduced b hb hrecv) hleft

section

variable (h : p.Coherent l) (hpend : ∀ b < l.numSms, p.block b ≠ .pending)

include h hpend

/-- Before the flag is set, a warp of block 0 cleans or sets it. -/
theorem progress_clean (hpos : 0 < l.numSms) (hsecond : p.second = false)
    (hpub : p.kernel.published = false) : ∃ a, deviceEnabled l C p (.act a) := by
  have hres : p.block 0 = .resident :=
    h.resident_of_not_sent hsecond (hpend 0 hpos) fun hsent => by simp [hsent.1 rfl] at hpub
  have hblock : ∀ b ∈ some 0, p.block b = .resident := by
    rintro b ⟨rfl⟩
    exact hres
  by_cases hclean : ∃ i < l.numExperts, ¬p.kernel.cleaned i = true
  · obtain ⟨i, hi, hleft, hprev⟩ := exists_first_turn (d := 32) (by decide) hclean
    exact ⟨.clean i, rfl, hsecond, hblock, trivial, hi, by simpa using hleft, hprev⟩
  · push Not at hclean
    exact ⟨.publish, rfl, hsecond, hblock, trivial, hpub, hclean⟩

/-- After the flag is set, a warp sends the first row that is left of some group. -/
theorem progress_rows (hsecond : p.second = false) (hpub : p.kernel.published = true) {e : ℕ}
    (he : e < l.numExperts) (hrow : ∃ k < l.numRows e, ¬p.kernel.row (e, k) = .sent) :
    ∃ a, deviceEnabled l C p (.act a) := by
  have hres : p.block (e / kNumWarpGroups) = .resident := by
    refine h.resident_of_not_sent hsecond (hpend _ (div_lt_numSms he)) fun hsent => ?_
    obtain ⟨k, hk, hleft⟩ := hrow
    exact hleft ((hsent.2 e he rfl).1 k hk)
  have hblock : ∀ b ∈ some (e / kNumWarpGroups), p.block b = .resident := by
    rintro b ⟨rfl⟩
    exact hres
  obtain ⟨k, hk, hleft, hprev⟩ := exists_first_turn (d := kNumWarpsPerGroup) (by decide) hrow
  cases hstaged : l.staged e with
  | false =>
    -- The row goes out without the send buffer.
    have hidle : p.kernel.row (e, k) = .idle := by
      cases hpc : p.kernel.row (e, k) with
      | idle => rfl
      | staged => simp [h.sound.staged e k hpc] at hstaged
      | sent => exact absurd hpc hleft
    exact ⟨.sendRow e k, rfl, hsecond, hblock, trivial, he, hk, by simp [hidle, hstaged], hprev,
      fun _ _ => hpub⟩
  | true =>
    cases hpc : p.kernel.row (e, k) with
    | idle =>
      exact ⟨.stageRow e k, rfl, hsecond, hblock, trivial, he, hk, hstaged, hpc, hprev,
        fun _ _ => hpub⟩
    | staged =>
      exact ⟨.sendRow e k, rfl, hsecond, hblock, trivial, he, hk, by simp [hpc, hstaged], hprev,
        fun _ _ => hpub⟩
    | sent => exact absurd hpc hleft

/-- After the rows of a group, its thread passes the flag, signals and takes its one away. -/
theorem progress_signal (hE : l.numExperts < 2 ^ 31) (hsecond : p.second = false)
    (hpub : p.kernel.published = true) {e : ℕ} (he : e < l.numExperts)
    (hrows : ∀ k < l.numRows e, p.kernel.row (e, k) = .sent) (hne : p.kernel.signal e ≠ .done) :
    ∃ a, deviceEnabled l C p (.act a) := by
  have hres : p.block (e / kNumWarpGroups) = .resident :=
    h.resident_of_not_sent hsecond (hpend _ (div_lt_numSms he)) fun hsent =>
      hne (hsent.2 e he rfl).2
  have hblock : ∀ b ∈ some (e / kNumWarpGroups), p.block b = .resident := by
    rintro b ⟨rfl⟩
    exact hres
  cases hpc : p.kernel.signal e with
  | waiting =>
    -- The group has not taken its one, so the flag is not zero.
    have hflag : p.kernel.ws 0 ≠ 0 := by
      have hlt := numDone_lt he hne
      rw [h.sound.gate.flag hpub, toInt32_of_range (by omega) (by omega)]
      omega
    exact ⟨.open e, rfl, hsecond, hblock, trivial, he, hpc, ⟨hrows, fun _ => hpub⟩, hflag⟩
  | opened => exact ⟨.signal e, rfl, hsecond, hblock, trivial, he, hpc⟩
  | signalled => exact ⟨.drop e, rfl, hsecond, hblock, trivial, he, hpc⟩
  | done => exact absurd hpc hne

/-- Until every block has finished the SEND phase, some warp can go on. -/
theorem progress_send (hE : l.numExperts < 2 ^ 31) (hpos : 0 < l.numSms)
    (hsecond : p.second = false) (hleft : ∃ b < l.numSms, ¬p.kernel.BlockSent l b) :
    ∃ a, deviceEnabled l C p (.act a) := by
  cases hpub : p.kernel.published with
  | false => exact progress_clean h hpend hpos hsecond hpub
  | true =>
    by_cases hrows : ∃ e < l.numExperts, ∃ k < l.numRows e, ¬p.kernel.row (e, k) = .sent
    · obtain ⟨e, he, hrow⟩ := hrows
      exact progress_rows h hpend hsecond hpub he hrow
    · push Not at hrows
      obtain ⟨b, -, hb⟩ := hleft
      have hsignal : ∃ e < l.numExperts, p.kernel.signal e ≠ .done := by
        by_contra hall
        push Not at hall
        exact hb ⟨fun _ => hpub, fun e he _ => ⟨hrows e he, hall e he⟩⟩
      obtain ⟨e, he, hne⟩ := hsignal
      exact progress_signal h hpend hE hsecond hpub he (hrows e he) hne

/-- Before the grid barrier, a wait ends, a signal is still on its way, or the barrier opens. -/
theorem progress_wait (hrecv : p.Receiving l) (hdone : p.kernel.SendDone l)
    (hstarted : ∀ e < l.numExperts, p.kernel.RecvStarted l e) (hred : p.kernel.reducing = false) :
    ∃ a, deviceEnabled l C p a := by
  by_cases hall : ∀ e < l.numExperts, p.kernel.recv e = .passed
  · refine ⟨.act .gridSync, rfl, hrecv, ?_, trivial, hred, hdone, hall⟩
    rintro b ⟨⟩
  · push Not at hall
    obtain ⟨e, he, hne⟩ := hall
    have hwaiting : p.kernel.recv e = .waiting := by
      cases hpc : p.kernel.recv e with
      | waiting => rfl
      | missed => exact absurd hpc (h.recv e)
      | passed => exact absurd hpc hne
    have hres : p.block (e / kNumWarpGroups) = .resident :=
      h.resident_of_not_reduced hrecv (hpend _ (div_lt_numSms he)) fun hreduced => by
        simp [hreduced.1] at hred
    have hblock : ∀ b ∈ some (e / kNumWarpGroups), p.block b = .resident := by
      rintro b ⟨rfl⟩
      exact hres
    by_cases harr : p.Arrived l e
    · exact ⟨.act (.acquire e 1), rfl, hrecv, hblock, harr, he, hwaiting, hstarted e he,
        by decide⟩
    · -- Its own group has signalled, so the signal is one of another rank.
      unfold Device.Arrived at harr
      split at harr
      · exact absurd (by rw [hdone.2 e he]; rfl) harr
      · rename_i hrank
        exact ⟨.deliver e, he, hrank, by simpa using harr⟩

/-- After the grid barrier, a warp goes on with the first token that is left of it. -/
theorem progress_reduce (hpos : 0 < l.numSms) (hrecv : p.Receiving l)
    (hred : p.kernel.reducing = true) {t w : ℕ} (ht : t < l.numTokens)
    (hw : w < l.numReduceWarps) (hleft : ¬p.kernel.stored (t, w) = true) :
    ∃ a, deviceEnabled l C p (.act a) := by
  obtain ⟨t, ht, hleft, hprev⟩ := exists_first_turn (P := fun t => p.kernel.stored (t, w) = true)
    hpos ⟨t, ht, hleft⟩
  have hres : p.block (t % l.numSms) = .resident :=
    h.resident_of_not_reduced hrecv (hpend _ (Nat.mod_lt t hpos)) fun hreduced =>
      hleft (hreduced.2 t ht rfl w hw)
  have hblock : ∀ b ∈ some (t % l.numSms), p.block b = .resident := by
    rintro b ⟨rfl⟩
    exact hres
  rcases (h.sound.reduced_le (t, w)).lt_or_eq with hlt | heq
  · exact ⟨.accum t w, rfl, hrecv, hblock, trivial, hred, ht, hw, hlt, hprev⟩
  · exact ⟨.store t w, rfl, hrecv, hblock, trivial, hred, ht, hw, heq, by simpa using hleft, hprev⟩

end

/-- While every block fits, some step is enabled until every block has finished. -/
theorem Device.Coherent.progress (h : p.Coherent l) (hE : l.numExperts < 2 ^ 31)
    (hC : l.numSms ≤ C) {b : ℕ} (hb : b < l.numSms) (hunf : p.block b ≠ .finished) :
    ∃ a, deviceEnabled l C p a := by
  have hpos : 0 < l.numSms := by omega
  -- A block that has not started can start, as there is room for all of them.
  by_cases hpend : ∃ b < l.numSms, p.block b = .pending
  · obtain ⟨b, hb, hpc⟩ := hpend
    exact ⟨.schedule b, schedule_of_pending hC hb hpc⟩
  push Not at hpend
  have hres : p.block b = .resident := by
    cases hpc : p.block b with
    | pending => exact absurd hpc (hpend b hb)
    | resident => rfl
    | finished => exact absurd hpc hunf
  -- Before the second launch a block that has not sent has a step.
  by_cases hsend : p.second = false ∧ ∃ b < l.numSms, ¬p.kernel.BlockSent l b
  · obtain ⟨a, ha⟩ := progress_send h hpend hE hpos hsend.1 hsend.2
    exact ⟨.act a, ha⟩
  have hsent : p.second = false → ∀ b < l.numSms, p.kernel.BlockSent l b := by
    intro hsecond
    push Not at hsend
    exact hsend hsecond
  -- A block that receives waits, or reduces, or has finished.
  by_cases hrecv : p.Receiving l
  · have hdone : p.kernel.SendDone l := by
      cases hsecond : p.second with
      | false => exact sendDone_of_blocks hpos (hsent hsecond)
      | true => exact (h.second hsecond).2
    have hstarted : ∀ e < l.numExperts, p.kernel.RecvStarted l e := by
      intro e he
      unfold State.RecvStarted
      split
      · -- In a fused launch the group only needs its own block.
        rename_i hfused
        have hsecond : p.second = false := by
          cases hs : p.second with
          | false => rfl
          | true => exact absurd hfused (by rw [(h.second hs).1]; decide)
        exact ⟨((hsent hsecond _ (div_lt_numSms he)).2 e he rfl).1, fun _ => hdone.1⟩
      · exact hdone
    cases hred : p.kernel.reducing with
    | false => exact progress_wait h hpend hrecv hdone hstarted hred
    | true =>
      -- Some output is left, or the block can leave.
      by_cases hreduced : p.kernel.BlockReduced l b
      · exact ⟨.exit b, hb, hres, fun hsecond => hsent hsecond b hb, fun _ => hreduced⟩
      · have hleft : ∃ t < l.numTokens, ∃ w < l.numReduceWarps, ¬p.kernel.stored (t, w) = true := by
          by_contra hall
          push Not at hall
          exact hreduced ⟨hred, fun t ht _ => hall t ht⟩
        obtain ⟨t, ht, w, hw, hleft⟩ := hleft
        obtain ⟨a, ha⟩ := progress_reduce h hpend hpos hrecv hred ht hw hleft
        exact ⟨.act a, ha⟩
  · -- A block that does not receive has sent, and can leave.
    have hsecond : p.second = false := by
      cases hs : p.second with
      | false => rfl
      | true => exact absurd (.inr hs) hrecv
    exact ⟨.exit b, hb, hres, fun _ => hsent hsecond b hb, fun hr => absurd hr hrecv⟩

/-! ### Block 0 left out -/

/-- The steps that are left of a row. -/
def rowTodo : RowPc → ℕ
  | .idle => 2
  | .staged => 1
  | .sent => 0

/-- The steps that are left of a group while the clean flag is not set. -/
def Device.groupTodo (l : CombineLaunch) (p : Device) (e : ℕ) : ℕ :=
  (∑ k ∈ Finset.range (l.numRows e), rowTodo (p.kernel.row (e, k))) +
    (if p.kernel.recv e = .passed then 0 else 1) + (if p.delivered e = true then 0 else 1)

/-- The steps that are left of the device while the clean flag is not set. -/
def Device.todo (l : CombineLaunch) (p : Device) : ℕ :=
  (∑ b ∈ Finset.range l.numSms, if p.block b = .pending then 1 else 0) +
    ∑ e ∈ Finset.range l.numExperts, p.groupTodo l e

/-- A sum falls when one term falls and no other rises. -/
theorem sum_range_lt {n i : ℕ} {f g : ℕ → ℕ} (hi : i < n) (hlt : f i < g i)
    (hle : ∀ j, j ≠ i → f j ≤ g j) : ∑ j ∈ Finset.range n, f j < ∑ j ∈ Finset.range n, g j := by
  refine Finset.sum_lt_sum (fun j _ => ?_) ⟨i, Finset.mem_range.mpr hi, hlt⟩
  by_cases hj : j = i
  · exact hj ▸ hlt.le
  · exact hle j hj

/-- A step of one group leaves less to do. -/
theorem Device.todo_lt {p' : Device} (hblock : p'.block = p.block) {e : ℕ}
    (he : e < l.numExperts) (hlt : p'.groupTodo l e < p.groupTodo l e)
    (hle : ∀ i, i ≠ e → p'.groupTodo l i ≤ p.groupTodo l i) : p'.todo l < p.todo l := by
  unfold Device.todo
  rw [hblock]
  exact Nat.add_lt_add_left (sum_range_lt he hlt hle) _

/-- A step of one row leaves less to do. -/
theorem todo_lt_of_row {e k : ℕ} {pc : RowPc} (he : e < l.numExperts) (hk : k < l.numRows e)
    (hlt : rowTodo pc < rowTodo (p.kernel.row (e, k))) :
    Device.todo l { p with
      kernel := { p.kernel with row := Function.update p.kernel.row (e, k) pc } } < p.todo l := by
  refine Device.todo_lt rfl he ?_ fun i hi => ?_
  · have hsum : ∑ j ∈ Finset.range (l.numRows e),
        rowTodo (Function.update p.kernel.row (e, k) pc (e, j)) <
        ∑ j ∈ Finset.range (l.numRows e), rowTodo (p.kernel.row (e, j)) := by
      refine sum_range_lt hk (by rwa [Function.update_self]) fun j hj => ?_
      rw [Function.update_of_ne (by simpa using hj)]
    exact Nat.add_lt_add_right (Nat.add_lt_add_right hsum _) _
  · have hother : ∀ j, Function.update p.kernel.row (e, k) pc (i, j) = p.kernel.row (i, j) :=
      fun j => Function.update_of_ne (by simp [hi]) ..
    simp only [Device.groupTodo, hother, le_refl]

/-- Passing a wait leaves less to do. -/
theorem todo_lt_of_passed {s' : State} {e : ℕ} (he : e < l.numExperts)
    (hold : p.kernel.recv e ≠ .passed) (hrow : s'.row = p.kernel.row)
    (hrecv : s'.recv = Function.update p.kernel.recv e .passed) :
    Device.todo l { p with kernel := s' } < p.todo l := by
  refine Device.todo_lt rfl he ?_ fun i hi => ?_
  · simp only [Device.groupTodo, hrow, hrecv, Function.update_self, if_neg hold]
    simp
  · simp only [Device.groupTodo, hrow, hrecv, Function.update_of_ne hi, le_refl]

/-- The scheduler has left block 0 out so far, in the first launch. -/
structure Device.Stalled (l : CombineLaunch) (p : Device) : Prop where
  coherent : p.Coherent l
  second : p.second = false
  block : p.block 0 = .pending
  unfinished : ∀ b, p.block b ≠ .finished
  published : p.kernel.published = false

namespace Device.Stalled

/-- The flag is not set, so no group has passed it. -/
theorem waiting (h : p.Stalled l) {e : ℕ} (he : e < l.numExperts) : p.kernel.signal e = .waiting :=
  (h.coherent.sound.gate.unpublished h.published).2 e he

/-- The SEND phase is not over while the flag is unpublished. -/
theorem not_sendDone (h : p.Stalled l) : ¬p.kernel.SendDone l := by
  intro hdone
  exact absurd (h.published.symm.trans hdone.1) (by decide)

/-- No block has passed the SEND phase while the flag is unpublished. -/
theorem not_blockSent (h : p.Stalled l) {b : ℕ} (hb : b < l.numSms) :
    ¬p.kernel.BlockSent l b := by
  intro hsent
  have he : b * kNumWarpGroups < l.numExperts := by
    simp only [Launch.numSms, cellDiv, kNumWarpGroups] at hb ⊢
    omega
  have hdone := (hsent.2 _ he (Nat.mul_div_cancel b (by decide))).2
  rw [h.waiting he] at hdone
  exact absurd hdone (by decide)

/-- Whatever the device does but schedule block 0, less is left to do. -/
theorem fire (hpos : 0 < l.numSms) (h : p.Stalled l) {a : DeviceAction} (hne : a ≠ .schedule 0)
    (ha : deviceEnabled l C p a) :
    (deviceFire l p a).Stalled l ∧ (deviceFire l p a).todo l < p.todo l := by
  have hcoherent := h.coherent.fire hpos ha
  -- Steps that do not touch the blocks keep the launch stalled.
  have hstalled : (deviceFire l p a).block = p.block → (deviceFire l p a).second = p.second →
      (deviceFire l p a).kernel.published = p.kernel.published → (deviceFire l p a).Stalled l :=
    fun hb hs hp => ⟨hcoherent, hs ▸ h.second, hb ▸ h.block, hb ▸ h.unfinished, hp ▸ h.published⟩
  cases a with
  | schedule b =>
    have hb0 : b ≠ 0 := fun hb => hne (by rw [hb])
    refine ⟨⟨hcoherent, h.second, ?_, fun i => ?_, h.published⟩, ?_⟩
    · exact (Function.update_of_ne hb0.symm ..).trans h.block
    · -- The block that starts now has not finished.
      show Function.update p.block b .resident i ≠ .finished
      by_cases hi : i = b
      · rw [hi, Function.update_self]
        decide
      · rw [Function.update_of_ne hi]
        exact h.unfinished i
    · refine Nat.add_lt_add_right (sum_range_lt ha.1 ?_ fun i hi => ?_) _
      · simp [deviceFire, ha.2.1]
      · simp [deviceFire, Function.update_of_ne hi]
  | exit b => exact absurd (ha.2.2.1 h.second) (h.not_blockSent ha.1)
  | relaunch => exact absurd (ha.2.2 0 hpos) (h.unfinished 0)
  | deliver e =>
    -- A signal that is delivered is not delivered again.
    refine ⟨hstalled rfl rfl rfl, Device.todo_lt rfl ha.1 ?_ fun i hi => ?_⟩
    · simp only [Device.groupTodo, deviceFire, ha.2.2, Function.update_self]
      exact Nat.lt_succ_self _
    · simp only [Device.groupTodo, deviceFire, Function.update_of_ne hi]
      exact le_refl _
  | timeout e =>
    have hen : enabled l p.kernel (.miss e) := ha.2.2.1
    refine ⟨hstalled rfl rfl rfl, ?_⟩
    exact todo_lt_of_passed hen.1 (by rw [hen.2.1]; decide) rfl (Function.update_idem ..)
  | inactive e =>
    have hen : enabled l p.kernel (.miss e) := ha.2.2.1
    refine ⟨hstalled rfl rfl rfl, ?_⟩
    exact todo_lt_of_passed hen.1 (by rw [hen.2.1]; decide) rfl (Function.update_idem ..)
  | act a =>
    obtain ⟨hwaits, -, hblock, -, hen⟩ := ha
    -- Block 0 has not started, so nobody cleans the entries or publishes the flag.
    have hpending : BlockPc.pending ≠ .resident := by decide
    cases a with
    | clean i => exact absurd (h.block.symm.trans (hblock 0 rfl)) hpending
    | publish => exact absurd (h.block.symm.trans (hblock 0 rfl)) hpending
    | stageRow e k =>
      -- Rows are sent without the flag.
      refine ⟨hstalled rfl rfl rfl, todo_lt_of_row hen.1 hen.2.1 ?_⟩
      rw [hen.2.2.2.1]
      decide
    | sendRow e k =>
      refine ⟨hstalled rfl rfl rfl, todo_lt_of_row hen.1 hen.2.1 ?_⟩
      rw [hen.2.2.1]
      split <;> decide
    | «open» e =>
      -- No group passes the flag.
      exact absurd (h.coherent.sound.gate.unpublished h.published).1 hen.2.2.2
    | signal e => exact absurd ((h.waiting hen.1).symm.trans hen.2) (by decide)
    | drop e => exact absurd ((h.waiting hen.1).symm.trans hen.2) (by decide)
    | acquire e v =>
      -- A wait may pass, since its signal comes from another rank.
      exact ⟨hstalled rfl rfl rfl,
        todo_lt_of_passed hen.1 (by rw [hen.2.1]; decide) rfl rfl⟩
    | miss e => simp [Action.waits] at hwaits
    | expire e => simp [Action.waits] at hwaits
    | giveUp e => simp [Action.waits] at hwaits
    | retry e => simp [Action.waits] at hwaits
    -- The SEND phase never ends, so nobody reduces.
    | gridSync => exact absurd hen.2.1 h.not_sendDone
    | accum t w => exact absurd (h.coherent.sound.sendDone hen.1) h.not_sendDone
    | store t w => exact absurd (h.coherent.sound.sendDone hen.1) h.not_sendDone

/-- When nothing else is enabled, the device is full. -/
theorem not_schedule (hlt : C < l.numSms) (h : p.Stalled l)
    (hstuck : ∀ a, a ≠ .schedule 0 → ¬deviceEnabled l C p a) :
    ¬deviceEnabled l C p (.schedule 0) := by
  rintro ⟨-, -, hroom⟩
  have hres : ∀ b ∈ (Finset.range l.numSms).erase 0, p.block b = .resident := by
    intro b hb
    obtain ⟨hb0, hb⟩ := Finset.mem_erase.mp hb
    cases hpc : p.block b with
    | pending =>
      have hne : DeviceAction.schedule b ≠ .schedule 0 := by simpa using hb0
      exact absurd ⟨Finset.mem_range.mp hb, hpc, hroom⟩ (hstuck _ hne)
    | resident => rfl
    | finished => exact absurd hpc (h.unfinished b)
  have hle : ((Finset.range l.numSms).erase 0).card ≤ p.numResident l :=
    Finset.card_le_card fun b hb =>
      Finset.mem_filter.mpr ⟨Finset.mem_of_mem_erase hb, hres b hb⟩
  rw [Finset.card_erase_of_mem (Finset.mem_range.mpr (by omega)), Finset.card_range] at hle
  omega

end Device.Stalled

/-- A device on which nothing has happened yet. -/
def freshDevice : Device where
  kernel := start
  block _ := .pending
  second := false
  delivered _ := false

/-- The device of the examples is fresh. -/
theorem freshDevice_fresh : freshDevice.Fresh := ⟨start_fresh, rfl, fun _ => rfl, rfl⟩

/-- A device that does not hold every block can end in a deadlock. -/
theorem exists_deadlock (hlt : C < l.numSms) :
    ∃ p, (device l C).Reachable p ∧ p.block 0 ≠ .finished ∧ ∀ a, ¬deviceEnabled l C p a := by
  have hpos : 0 < l.numSms := by omega
  have hstart : freshDevice.Stalled l :=
    ⟨.fresh freshDevice_fresh, rfl, rfl, fun _ => BlockPc.noConfusion, rfl⟩
  obtain ⟨p, hr, hp, hstuck⟩ := Machine.exists_stuck (M := deviceMachine l C)
    (A := (· ≠ .schedule 0)) (P := Device.Stalled l) (Device.todo l)
    (fun _ _ hs hne hen => hs.fire hpos hne hen) (.init freshDevice_fresh) hstart
  refine ⟨p, hr, hp.unfinished 0, fun a ha => ?_⟩
  by_cases hne : a = .schedule 0
  · exact hp.not_schedule hlt hstuck (hne ▸ ha)
  · exact hstuck a hne ha

end

/-- `combine` never deadlocks under its launch exactly when the device holds all of its blocks:
then every reachable state in which some block has not finished has an enabled step, and on a
device that holds fewer some run ends in a state without one. -/
theorem never_deadlocks_iff (l : CombineLaunch) (hE : l.numExperts < 2 ^ 31) (C : ℕ) :
    (∀ p, (device l C).Reachable p → (∃ b < l.numSms, p.block b ≠ .finished) →
      ∃ a, (deviceMachine l C).enabled p a) ↔ l.numSms ≤ C := by
  constructor
  · intro hlive
    by_contra hlt
    obtain ⟨p, hr, hunf, hstuck⟩ := exists_deadlock (l := l) (C := C) (by omega)
    obtain ⟨a, ha⟩ := hlive p hr ⟨0, by omega, hunf⟩
    exact hstuck a ha
  · rintro hC p hr ⟨b, hb, hunf⟩
    exact (Device.Coherent.of_reachable (by omega) hr).progress hE hC hb hunf

/-- A launch for nine experts on one rank, without rows to send. -/
def nineExperts : CombineLaunch where
  numExperts := 9
  numRanks := 1
  numMaxDispatchTokensPerRank := 1
  rank := 0
  numTokens := 0
  numTopk := 1
  topkIdx _ := -1
  timeoutTicks := -1
  hidden := 2048
  layoutRange _ := 0
  zeroCopy := false
  fused := true
  byStore _ := true

/-- The two blocks of `nineExperts` on a device that holds both. -/
theorem never_deadlocks_iff_nineExperts :
    (∀ p, (device nineExperts 2).Reachable p → (∃ b < nineExperts.numSms, p.block b ≠ .finished) →
      ∃ a, (deviceMachine nineExperts 2).enabled p a) ↔ nineExperts.numSms ≤ 2 :=
  never_deadlocks_iff nineExperts (by decide) 2

/-- The device after it has scheduled block 1. -/
def blockOneFirst : Device := (deviceMachine nineExperts 1).exec freshDevice [.schedule 1]

/-- On a device that holds one block, the warps of block 1 wait for the flag that block 0
sets. -/
theorem blockOneFirst_stuck (a : DeviceAction) : ¬deviceEnabled nineExperts 1 blockOneFirst a := by
  intro ha
  have hrows : ∀ e, nineExperts.numRows e = 0 := fun _ => rfl
  cases a with
  | schedule b => exact absurd ha.2.2 (by decide)
  | exit b =>
    have hb : b = 1 := by
      by_contra hb
      have hpending : blockOneFirst.block b = .pending := Function.update_of_ne hb ..
      exact absurd (hpending.symm.trans ha.2.1) (by decide)
    exact absurd (hb ▸ ha.2.2.1 rfl) (show ¬blockOneFirst.kernel.BlockSent nineExperts 1 by decide)
  | relaunch => exact absurd (ha.2.2 0 (by decide)) (by decide)
  | deliver e => exact absurd (Nat.div_eq_of_lt ha.1) ha.2.1
  | timeout e => exact absurd rfl ha.2.2.2.1.2.2
  | inactive e => exact absurd ha.2.2.2.1.2.2 (show (1 : ℤ) ≠ 0 by decide)
  | act a =>
    obtain ⟨hwaits, -, hblock, hready, hen⟩ := ha
    have hzero : blockOneFirst.block 0 ≠ .resident := by decide
    cases a with
    | clean i => exact hzero (hblock 0 rfl)
    | publish => exact hzero (hblock 0 rfl)
    | stageRow e k => exact absurd hen.2.1 (by rw [hrows]; exact k.not_lt_zero)
    | sendRow e k => exact absurd hen.2.1 (by rw [hrows]; exact k.not_lt_zero)
    | «open» e => exact hen.2.2.2 rfl
    | signal e => exact SignalPc.noConfusion hen.2
    | drop e => exact SignalPc.noConfusion hen.2
    | acquire e v =>
      -- The signal of the rank to itself has not been stored.
      have hrank : e / nineExperts.numLocalExperts = nineExperts.rank := Nat.div_eq_of_lt hen.1
      have harr : (if e / nineExperts.numLocalExperts = nineExperts.rank then
          (blockOneFirst.kernel.signal e).isSent = true
        else blockOneFirst.delivered e = true) := hready
      rw [if_pos hrank] at harr
      exact absurd harr (show SignalPc.isSent .waiting ≠ true by decide)
    | miss e => simp [Action.waits] at hwaits
    | expire e => simp [Action.waits] at hwaits
    | giveUp e => simp [Action.waits] at hwaits
    | retry e => simp [Action.waits] at hwaits
    | gridSync => exact Bool.noConfusion hen.2.1.1
    | accum t w => exact Bool.noConfusion hen.1
    | store t w => exact Bool.noConfusion hen.1

/-- Nine experts on a device that holds one block: with block 1 first, nothing is enabled and
no block has finished. -/
theorem deadlock_nineExperts :
    ¬∀ p, (device nineExperts 1).Reachable p → (∃ b < 2, p.block b ≠ .finished) →
      ∃ a, (deviceMachine nineExperts 1).enabled p a := by
  intro hlive
  have hr : (device nineExperts 1).Reachable blockOneFirst :=
    Machine.reachable_exec _ (.init freshDevice_fresh) (by decide)
  obtain ⟨a, ha⟩ := hlive blockOneFirst hr ⟨0, by decide, by decide⟩
  exact blockOneFirst_stuck a ha

end EpDemo.Kernel.Combine
