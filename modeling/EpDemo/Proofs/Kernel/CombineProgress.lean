import EpDemo.Library.Fairness
import EpDemo.Library.Strided
import EpDemo.Proofs.Kernel.CombineRun
import Mathlib.Data.Prod.Lex

/-!
# `EpDemo.Proofs.Kernel.CombineProgress`: a launch of `combine` goes on until it waits for a peer

The same for `combine` as for `dispatch`: `stepsLeft` falls with every step but the polls of a
signal wait, and a launch stands still only at a signal wait (`exists_work`). By then every group
has passed the clean flag: the flag is not zero before the last of them has taken its one
(`Gate.flag`), so that none is left behind.
-/

set_option autoImplicit false

namespace EpDemo.Kernel.Combine

open EpDemo.Library

/-- The steps that a warp has left on a row. -/
def RowPc.left : RowPc → ℕ
  | .idle => 2
  | .staged => 1
  | .sent => 0

/-- The steps that the signalling thread of a group has left. -/
def SignalPc.left : SignalPc → ℕ
  | .waiting => 3
  | .opened => 2
  | .signalled => 1
  | .done => 0

/-- The steps that the receiving thread of an expert has left, when its wait is one. -/
def RecvPc.left : RecvPc → ℕ
  | .waiting | .missed => 1
  | .passed => 0

/-- The steps of the signal wait after which it has not ended. -/
def Action.isWait : Action → Bool
  | .miss _ | .expire _ | .retry _ => true
  | _ => false

/-- The expert whose signal wait takes the step. -/
def Action.waiter : Action → Option ℕ
  | .acquire e _ | .miss e | .expire e | .giveUp e | .retry e => some e
  | _ => none

/-- The rows of a launch. -/
def rows (l : CombineLaunch) : Finset (ℕ × ℕ) :=
  (Finset.range l.numExperts).biUnion fun e => (Finset.range (l.numRows e)).image (e, ·)

/-- The parts of the output rows. -/
def parts (l : CombineLaunch) : Finset (ℕ × ℕ) :=
  Finset.range l.numTokens ×ˢ Finset.range l.numReduceWarps

/-- The steps that a launch has left. -/
def stepsLeft (l : CombineLaunch) (s : State) : ℕ :=
  ∑ i ∈ Finset.range l.numExperts, flagLeft (s.cleaned i) + flagLeft s.published +
    ∑ p ∈ rows l, (s.row p).left + ∑ e ∈ Finset.range l.numExperts, (s.signal e).left +
    ∑ e ∈ Finset.range l.numExperts, (s.recv e).left + flagLeft s.reducing +
    ∑ p ∈ parts l, (l.numTopk - s.reduced p) + ∑ p ∈ parts l, flagLeft (s.stored p)

section

variable {l : CombineLaunch} {s : State} {a : Action}

/-- The rows of a launch: an expert and one of its rows. -/
theorem mem_rows {e k : ℕ} : (e, k) ∈ rows l ↔ e < l.numExperts ∧ k < l.numRows e := by
  simp [rows]

/-- The parts of the outputs: a token and one of the warps that reduce it. -/
theorem mem_parts {t w : ℕ} : (t, w) ∈ parts l ↔ t < l.numTokens ∧ w < l.numReduceWarps := by
  simp [parts]

/-- Every step but a poll of a signal wait leaves fewer. -/
theorem stepsLeft_fire_lt (ha : enabled l s a) (hwait : a.isWait = false) :
    stepsLeft l (fire l s a) < stepsLeft l s := by
  have hrow (e k : ℕ) (pc : RowPc) (hmem : (e, k) ∈ rows l) (hlt : pc.left < (s.row (e, k)).left) :=
    sum_update_lt (f := s.row) RowPc.left hmem hlt
  have hsignal (e : ℕ) (pc : SignalPc) (he : e < l.numExperts)
      (hlt : pc.left < (s.signal e).left) :=
    sum_update_lt (f := s.signal) SignalPc.left (Finset.mem_range.mpr he) hlt
  have hrecv (e : ℕ) (he : e < l.numExperts) (hlt : 0 < (s.recv e).left) :=
    sum_update_lt (f := s.recv) (v := .passed) RecvPc.left (Finset.mem_range.mpr he) hlt
  -- Every step sets a flag, or moves one program counter on.
  cases a with
  | clean i =>
    have hlt := sum_update_lt (f := s.cleaned) flagLeft (Finset.mem_range.mpr ha.1)
      (flagLeft_lt ha.2.1)
    simp only [stepsLeft, fire]
    omega
  | publish =>
    have hlt := flagLeft_lt ha.1
    simp only [stepsLeft, fire]
    omega
  | stageRow e k =>
    have hlt := hrow e k .staged (mem_rows.mpr ⟨ha.1, ha.2.1⟩) (by rw [ha.2.2.2.1]; decide)
    simp only [stepsLeft, fire]
    omega
  | sendRow e k =>
    have hlt := hrow e k .sent (mem_rows.mpr ⟨ha.1, ha.2.1⟩) (by rw [ha.2.2.1]; split <;> decide)
    simp only [stepsLeft, fire]
    omega
  | «open» e =>
    have hlt := hsignal e .opened ha.1 (by rw [ha.2.1]; decide)
    simp only [stepsLeft, fire]
    omega
  | signal e =>
    have hlt := hsignal e .signalled ha.1 (by rw [ha.2]; decide)
    simp only [stepsLeft, fire]
    omega
  | drop e =>
    have hlt := hsignal e .done ha.1 (by rw [ha.2]; decide)
    simp only [stepsLeft, fire]
    omega
  | acquire e v =>
    have hlt := hrecv e ha.1 (by rw [ha.2.1]; decide)
    simp only [stepsLeft, fire]
    omega
  | giveUp e =>
    have hlt := hrecv e ha.1 (by rw [ha.2.1]; decide)
    simp only [stepsLeft, fire]
    omega
  | gridSync =>
    have hlt := flagLeft_lt ha.1
    simp only [stepsLeft, fire]
    omega
  | accum t w =>
    have hlt := sum_update_lt (f := s.reduced) (v := s.reduced (t, w) + 1) (l.numTopk - ·)
      (mem_parts.mpr ⟨ha.2.1, ha.2.2.1⟩) (by have := ha.2.2.2.1; omega)
    simp only [stepsLeft, fire]
    omega
  | store t w =>
    have hlt := sum_update_lt (f := s.stored) flagLeft (mem_parts.mpr ⟨ha.2.1, ha.2.2.1⟩)
      (flagLeft_lt ha.2.2.2.2.1)
    simp only [stepsLeft, fire]
    omega
  | miss | expire | retry => cases hwait

/-- A poll of a signal wait leaves as many. -/
theorem stepsLeft_fire_wait (ha : enabled l s a) (hwait : a.isWait = true) :
    stepsLeft l (fire l s a) = stepsLeft l s := by
  cases a with
  | miss e =>
    have heq := sum_update_eq (S := Finset.range l.numExperts) (f := s.recv) (v := .missed)
      RecvPc.left (by rw [ha.2.1]; rfl)
    simp only [stepsLeft, fire, heq]
  | retry e =>
    have heq := sum_update_eq (S := Finset.range l.numExperts) (f := s.recv) (v := .waiting)
      RecvPc.left (by rw [ha.2.1]; rfl)
    simp only [stepsLeft, fire, heq]
  | expire e => rfl
  | _ => cases hwait

/-- A poll of a signal wait that has not ended disables nothing but steps of that wait. -/
theorem enabled_fire_poll {e : ℕ} (hpoll : a = .miss e ∨ a = .retry e) (ha : enabled l s a)
    {b : Action} (hb : enabled l s b) (hne : b.waiter ≠ some e) : enabled l (fire l s a) b := by
  -- A poll moves the wait of `e` between two places, and it has not passed.
  obtain ⟨pc, hfire, he, hpc⟩ : ∃ pc, fire l s a = { s with recv := Function.update s.recv e pc } ∧
      e < l.numExperts ∧ s.recv e ≠ .passed := by
    rcases hpoll with rfl | rfl
    · exact ⟨.missed, rfl, ha.1, by rw [ha.2.1]; decide⟩
    · exact ⟨.waiting, rfl, ha.1, by rw [ha.2.1]; decide⟩
  have hother {e' : ℕ} (hne : e' ≠ e) : Function.update s.recv e pc e' = s.recv e' :=
    Function.update_of_ne hne ..
  rw [hfire]
  cases b with
  | acquire e' v =>
    -- Steps of other waits do not see it.
    have hne' : e' ≠ e := fun heq => hne (congrArg some heq)
    exact ⟨hb.1, (hother hne').trans hb.2.1, hb.2.2⟩
  | miss e' =>
    have hne' : e' ≠ e := fun heq => hne (congrArg some heq)
    exact ⟨hb.1, (hother hne').trans hb.2.1, hb.2.2⟩
  | expire e' =>
    have hne' : e' ≠ e := fun heq => hne (congrArg some heq)
    exact ⟨hb.1, (hother hne').trans hb.2.1, hb.2.2⟩
  | giveUp e' =>
    have hne' : e' ≠ e := fun heq => hne (congrArg some heq)
    exact ⟨hb.1, (hother hne').trans hb.2.1, hb.2.2⟩
  | retry e' =>
    have hne' : e' ≠ e := fun heq => hne (congrArg some heq)
    exact ⟨hb.1, (hother hne').trans hb.2.1, hb.2.2⟩
  -- The grid barrier is not enabled, since `e` has not passed.
  | gridSync => exact absurd (hb.2.2 e he) hpc
  | _ => exact hb

/-! ### Where a launch can stand still -/

/-- A row is staged by a group that stages its rows. -/
theorem staged_of_runs (h : (runs l).Reachable s) {e k : ℕ} (hrow : s.row (e, k) = .staged) :
    l.staged e = true := by
  revert hrow
  -- Only `stageRow` makes a row staged, and it checks the flag.
  refine h.invariant (I := fun s => s.row (e, k) = .staged → l.staged e = true) ?_ ?_
  · intro s hs hrow
    rw [hs.fresh.row] at hrow
    cases hrow
  · rintro s a s' - ih ⟨hen, rfl⟩ hrow
    cases a with
    | stageRow e' k' =>
      by_cases hp : (e, k) = (e', k')
      · cases hp
        exact hen.2.2.1
      · exact ih ((Function.update_of_ne hp ..).symm.trans hrow)
    | sendRow e' k' =>
      by_cases hp : (e, k) = (e', k')
      · -- A row that is sent is not staged any more.
        have hsent : ((machine l).fire s (.sendRow e' k')).row (e, k) = .sent := by
          rw [hp]
          exact Function.update_self ..
        rw [hsent] at hrow
        cases hrow
      · exact ih ((Function.update_of_ne hp ..).symm.trans hrow)
    | _ => exact ih hrow

/-- Every thread comes to the end of the SEND phase. -/
theorem sendDone_of_stuck (hE : l.numExperts < 2 ^ 31) (h : (runs l).Reachable s)
    (hstuck : ∀ a : Action, a.waiter = none → ¬enabled l s a) : s.SendDone l := by
  -- A warp cleans its entries one after the other, so the first one that is left could be cleaned.
  have hcleaned : ∀ i < l.numExperts, s.cleaned i = true := by
    refine forall_of_stride (by decide : 0 < 32) fun i hi hprev => ?_
    by_contra hnot
    exact hstuck (.clean i) rfl ⟨hi, by simpa using hnot, hprev⟩
  have hpublished : s.published = true := by
    by_contra hnot
    exact hstuck .publish rfl ⟨by simpa using hnot, hcleaned⟩
  -- The rows of a group are sent in strides, so the first one that is left could be sent.
  have hrows : ∀ e < l.numExperts, ∀ k < l.numRows e, s.row (e, k) = .sent := by
    intro e he
    refine forall_of_stride (by decide : 0 < kNumWarpsPerGroup) fun k hk hprev => ?_
    cases hpc : s.row (e, k) with
    | idle =>
      cases hstaged : l.staged e with
      | true =>
        -- A row that has to be staged could be staged, and one that has not could be sent.
        exact absurd ⟨he, hk, hstaged, hpc, hprev, fun _ _ => hpublished⟩
          (hstuck (.stageRow e k) rfl)
      | false =>
        refine absurd ⟨he, hk, ?_, hprev, fun _ _ => hpublished⟩ (hstuck (.sendRow e k) rfl)
        rw [hpc, hstaged]
        rfl
    | staged =>
      refine absurd ⟨he, hk, ?_, hprev, fun _ _ => hpublished⟩ (hstuck (.sendRow e k) rfl)
      rw [hpc, staged_of_runs h hpc]
      rfl
    | sent => rfl
  refine ⟨hpublished, fun e he => ?_⟩
  -- With all rows sent the thread of the expert is never stuck before the end.
  cases hpc : s.signal e with
  | waiting =>
    have hne : s.signal e ≠ .done := by
      rw [hpc]
      decide
    -- The flag still has the one of this expert, so it is not zero.
    have hlt := numDone_lt he hne
    refine absurd ⟨he, hpc, ⟨hrows e he, fun _ => hpublished⟩, ?_⟩ (hstuck (.open e) rfl)
    rw [(gate_of_runs h).flag hpublished, toInt32_of_range (by omega) (by omega)]
    omega
  | opened => exact absurd ⟨he, hpc⟩ (hstuck (.signal e) rfl)
  | signalled => exact absurd ⟨he, hpc⟩ (hstuck (.drop e) rfl)
  | done => rfl

/-- A launch that has not finished can take a step, unless it is at a signal wait. -/
theorem exists_work (hE : l.numExperts < 2 ^ 31) (hblocks : 0 < l.numSms)
    (h : (runs l).Reachable s) (hdone : ¬s.Done l) :
    (∃ a : Action, a.waiter = none ∧ enabled l s a) ∨
      s.SendDone l ∧ ∃ e < l.numExperts, s.recv e = .waiting ∨ s.recv e = .missed := by
  by_contra hnone
  push Not at hnone
  obtain ⟨hstuck, hwaits⟩ := hnone
  have hsend := sendDone_of_stuck hE h hstuck
  have hpassed : ∀ e < l.numExperts, s.recv e = .passed := by
    intro e he
    have hwait := hwaits hsend e he
    cases hpc : s.recv e with
    | waiting => exact absurd hpc hwait.1
    | missed => exact absurd hpc hwait.2
    | passed => rfl
  have hreducing : s.reducing = true := by
    by_contra hnot
    exact hstuck .gridSync rfl ⟨by simpa using hnot, hsend, hpassed⟩
  refine hdone ⟨hreducing, fun t ht w hw => ?_⟩
  revert t
  refine forall_of_stride hblocks fun t ht hprev => ?_
  by_contra hnot
  -- The warp has entries of the token left, or the row to store.
  cases ((order_of_runs h).reduced_le (t, w)).lt_or_eq with
  | inl hlt => exact hstuck (.accum t w) rfl ⟨hreducing, ht, hw, hlt, hprev⟩
  | inr heq => exact hstuck (.store t w) rfl ⟨hreducing, ht, hw, heq, by simpa using hnot, hprev⟩

/-! ### A launch with a finite timeout -/

/-- The turns that a signal wait has left when it polls once and then gives up. -/
def RecvPc.turnsLeft (active : ℤ) : RecvPc → ℕ
  | .waiting => 2
  | .missed => if active = 0 then 0 else 1
  | .passed => 0

/-- The turns that the signal waits have left. -/
def turnsLeft (l : CombineLaunch) (s : State) : ℕ :=
  ∑ e ∈ Finset.range l.numExperts, (s.recv e).turnsLeft (s.activeRanks (e / l.numLocalExperts))

/-- What falls with every step of a launch that no peer serves. -/
def aloneLeft (l : CombineLaunch) (s : State) : ℕ ×ₗ ℕ := toLex (stepsLeft l s, turnsLeft l s)

/-- A step that leaves as many steps and fewer turns leaves less. -/
theorem aloneLeft_lt (hle : stepsLeft l (fire l s a) = stepsLeft l s)
    (hlt : turnsLeft l (fire l s a) < turnsLeft l s) : aloneLeft l (fire l s a) < aloneLeft l s :=
  Prod.Lex.toLex_lt_toLex.mpr (.inr ⟨hle, hlt⟩)

/-- A wait that has just missed its signal has fewer turns left than one that looks again. -/
theorem turnsLeft_missed_lt (active : ℤ) :
    RecvPc.missed.turnsLeft active < RecvPc.waiting.turnsLeft active := by
  by_cases hactive : active = 0 <;> simp [RecvPc.turnsLeft, hactive]

/-- A look that finds no signal leaves less to do. -/
theorem aloneLeft_fire_miss {e : ℕ} (ha : enabled l s (.miss e)) :
    aloneLeft l (fire l s (.miss e)) < aloneLeft l s := by
  refine aloneLeft_lt (stepsLeft_fire_wait ha rfl) (Finset.sum_lt_sum (fun i _ => ?_)
    ⟨e, Finset.mem_range.mpr ha.1, ?_⟩)
  · by_cases hi : i = e
    · subst hi
      simp only [fire, Function.update_self, ha.2.1]
      exact (turnsLeft_missed_lt _).le
    · simp only [fire, Function.update_of_ne hi, le_refl]
  · simp only [fire, Function.update_self, ha.2.1]
    exact turnsLeft_missed_lt _

/-- A timeout of an active rank leaves less to do. Its rank is not active any more, and so it gets
no other. -/
theorem aloneLeft_fire_expire {e : ℕ} (ha : enabled l s (.expire e))
    (hactive : s.activeRanks (e / l.numLocalExperts) ≠ 0) :
    aloneLeft l (fire l s (.expire e)) < aloneLeft l s := by
  refine aloneLeft_lt (stepsLeft_fire_wait ha rfl) (Finset.sum_lt_sum (fun i _ => ?_)
    ⟨e, Finset.mem_range.mpr ha.1, ?_⟩)
  · simp only [fire]
    by_cases hi : i / l.numLocalExperts = e / l.numLocalExperts
    · rw [hi, Function.update_self]
      cases s.recv i with
      | missed => simp [RecvPc.turnsLeft]
      | _ => exact le_rfl
    · rw [Function.update_of_ne hi]
  · simp only [fire, Function.update_self, ha.2.1, RecvPc.turnsLeft, if_true, if_neg hactive]
    exact Nat.one_pos

/-- A launch with a timeout always has a step to its end, whatever the signal words hold. -/
theorem exists_step_alone (hE : l.numExperts < 2 ^ 31) (hblocks : 0 < l.numSms)
    (htime : l.timeoutTicks ≠ -1) (h : (runs l).Reachable s) (hdone : ¬s.Done l) (v : ℕ → ℤ) :
    ∃ a, enabled l s a ∧ (∀ e x, a = .acquire e x → v e = x) ∧ (∀ e, a = .miss e → v e = 0) ∧
      aloneLeft l (fire l s a) < aloneLeft l s := by
  -- Work makes the first component fall.
  have hwork : ∀ a : Action, enabled l s a → a.isWait = false →
      aloneLeft l (fire l s a) < aloneLeft l s := fun a ha hwait =>
    Prod.Lex.toLex_lt_toLex.mpr (.inl (stepsLeft_fire_lt ha hwait))
  -- The SEND phase of a group that receives is over.
  have hstarted : s.SendDone l → ∀ e < l.numExperts, s.RecvStarted l e := by
    intro hsend e he
    unfold State.RecvStarted
    split
    · exact (order_of_runs h).rowsSent e (by rw [hsend.2 e he]; decide)
    · exact hsend
  -- There is work to do, or a wait is open.
  obtain ⟨a, hwait, ha⟩ | ⟨hsend, e, he, hpc | hpc⟩ := exists_work hE hblocks h hdone
  · refine ⟨a, ha, ?_, ?_, hwork a ha ?_⟩
    · rintro e x rfl
      cases hwait
    · rintro e rfl
      cases hwait
    · cases a with
      | miss | expire | retry => cases hwait
      | _ => rfl
  · -- A wait reads its word, and passes if it finds a signal.
    by_cases hv : v e = 0
    · have ha : enabled l s (.miss e) := ⟨he, hpc, hstarted hsend e he⟩
      refine ⟨.miss e, ha, by simp, ?_, aloneLeft_fire_miss ha⟩
      rintro e' heq
      cases heq
      exact hv
    · have ha : enabled l s (.acquire e (v e)) := ⟨he, hpc, hstarted hsend e he, hv⟩
      refine ⟨.acquire e (v e), ha, ?_, by simp, hwork _ ha rfl⟩
      rintro e' x heq
      cases heq
      rfl
  · -- A wait that has missed gives up if its rank is not active, and otherwise its time can run
    -- out.
    by_cases hactive : s.activeRanks (e / l.numLocalExperts) = 0
    · have ha : enabled l s (.giveUp e) := ⟨he, hpc, hactive⟩
      exact ⟨.giveUp e, ha, by simp, by simp, hwork _ ha rfl⟩
    · have ha : enabled l s (.expire e) := ⟨he, hpc, htime⟩
      exact ⟨.expire e, ha, by simp, by simp, aloneLeft_fire_expire ha hactive⟩

/-! ### A launch that has finished -/

/-- A launch that has finished takes no step. -/
theorem not_enabled_of_done (h : (runs l).Reachable s) (hdone : s.Done l) (a : Action) :
    ¬enabled l s a := by
  have hgate := gate_of_runs h
  have horder := order_of_runs h
  -- At the end everything has been sent, all waits have passed and all outputs are stored.
  obtain ⟨hpublished, hsignal⟩ := horder.sendDone hdone.1
  have hpassed := horder.passed hdone.1
  have hrow : ∀ e < l.numExperts, ∀ k < l.numRows e, s.row (e, k) = .sent := fun e he =>
    (horder.rowsSent e (by rw [hsignal e he]; decide)).1
  intro ha
  -- So the guard of every step speaks about something that is over.
  cases a with
  | clean i => exact absurd (ha.2.1.symm.trans (hgate.cleaned hpublished i ha.1)) (by decide)
  | publish => exact absurd (ha.1.symm.trans hpublished) (by decide)
  | stageRow e k => exact absurd (ha.2.2.2.1.symm.trans (hrow e ha.1 k ha.2.1)) (by decide)
  | sendRow e k =>
    have hsent := ha.2.2.1.symm.trans (hrow e ha.1 k ha.2.1)
    cases hstaged : l.staged e <;> rw [hstaged] at hsent <;> cases hsent
  | «open» e => exact absurd (ha.2.1.symm.trans (hsignal e ha.1)) (by decide)
  | signal e => exact absurd (ha.2.symm.trans (hsignal e ha.1)) (by decide)
  | drop e => exact absurd (ha.2.symm.trans (hsignal e ha.1)) (by decide)
  | acquire e v => exact absurd (ha.2.1.symm.trans (hpassed e ha.1)) (by decide)
  | miss e => exact absurd (ha.2.1.symm.trans (hpassed e ha.1)) (by decide)
  | expire e => exact absurd (ha.2.1.symm.trans (hpassed e ha.1)) (by decide)
  | giveUp e => exact absurd (ha.2.1.symm.trans (hpassed e ha.1)) (by decide)
  | retry e => exact absurd (ha.2.1.symm.trans (hpassed e ha.1)) (by decide)
  | gridSync => exact absurd (ha.1.symm.trans hdone.1) (by decide)
  | accum t w =>
    -- There is no entry left to add.
    have hall := horder.reduced_of_stored (t, w) (hdone.2 t ha.2.1 w ha.2.2.1)
    have hlt := ha.2.2.2.1
    omega
  | store t w => exact absurd (ha.2.2.2.2.1.symm.trans (hdone.2 t ha.2.1 w ha.2.2.1)) (by decide)

end

end EpDemo.Kernel.Combine
