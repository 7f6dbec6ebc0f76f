import EpDemo.Library.Fairness
import EpDemo.Library.Strided
import EpDemo.Proofs.Kernel.DispatchSlots
import Mathlib.Data.Prod.Lex

/-!
# `EpDemo.Proofs.Kernel.DispatchProgress`: a launch of `dispatch` goes on until it waits for a peer

`stepsLeft` bounds the steps that the warps of a launch can still take, the polls of a signal wait
apart: every other step makes it fall (`stepsLeft_fire_lt`), and a poll keeps it
(`stepsLeft_fire_wait`).

`exists_work` says where a launch can stand still. In the SEND phase nowhere: the token warps
finish, then every finish counter reads twice the tag and its poll succeeds, so that the grid
barrier opens. In the RECV phase only at a signal wait.
-/

set_option autoImplicit false

namespace EpDemo.Kernel.Dispatch

open EpDemo.Library

/-- The steps that the signalling thread of an expert has left. -/
def SignalPc.left : SignalPc → ℕ
  | .waiting => 5
  | .polled => 4
  | .signalled => 3
  | .counterReset => 2
  | .finishReset => 1
  | .done => 0

/-- The steps that the receiving thread of an expert has left, when its wait is one. -/
def RecvPc.left : RecvPc → ℕ
  | .waiting | .missed => 3
  | .got => 2
  | .claimed => 1
  | .ready => 0

/-- The steps of the signal wait after which it has not ended. -/
def Action.isWait : Action → Bool
  | .miss _ | .expire _ | .retry _ => true
  | _ => false

/-- The steps that a launch has left. A group copies fewer than `2 ^ 31` messages, since their count
is an `int`. -/
def stepsLeft (l : Launch) (s : State) : ℕ :=
  sendsLeft l s.token + ∑ i ∈ Finset.range l.numExperts, flagLeft (s.cleaned i) +
    ∑ i ∈ Finset.range l.numExperts, flagLeft (s.tagged i) +
    ∑ e ∈ Finset.range l.numExperts, flagLeft (s.counted e) +
    ∑ e ∈ Finset.range l.numExperts, (s.signal e).left + flagLeft s.recving +
    ∑ e ∈ Finset.range l.numExperts, (s.recv e).left +
    ∑ p ∈ Finset.range l.numExperts ×ˢ Finset.range (2 ^ 31), flagLeft (s.copied p)

section

variable {l : Launch} {s : State} {a : Action}

/-- The count of a group is an `int`. -/
theorem numRecv_lt (h : (runs l).Reachable s) {e : ℕ} (hcount : (s.recv e).hasCount = true) :
    s.numRecv e < 2 ^ 31 := by
  revert hcount
  refine h.invariant (I := fun s => (s.recv e).hasCount = true → s.numRecv e < 2 ^ 31) ?_ ?_
  · intro s hs hcount
    rw [hs.fresh.recv] at hcount
    cases hcount
  · rintro s a s' - ih ⟨hen, rfl⟩ hcount
    obtain hold | ⟨v, -, heq⟩ | ⟨-, heq⟩ := hasCount_cases hen hcount
    · exact (hasCount_mono hen hold).2.trans_lt (ih hold)
    · exact heq.trans_lt (toInt32_lt _)
    · exact heq.trans_lt (by decide)

/-- Every step but a poll of a signal wait leaves fewer. -/
theorem stepsLeft_fire_lt (h : (runs l).Reachable s) (ha : enabled l s a)
    (hwait : a.isWait = false) :
    stepsLeft l (fire l s a) < stepsLeft l s := by
  have hflag (f : ℕ → Bool) (i : ℕ) (hi : i < l.numExperts) (hf : f i = false) :=
    sum_update_lt (f := f) flagLeft (Finset.mem_range.mpr hi) (flagLeft_lt hf)
  have hsignal (e : ℕ) (pc : SignalPc) (he : e < l.numExperts)
      (hlt : pc.left < (s.signal e).left) :=
    sum_update_lt (f := s.signal) SignalPc.left (Finset.mem_range.mpr he) hlt
  have hrecv (e : ℕ) (pc : RecvPc) (he : e < l.numExperts) (hlt : pc.left < (s.recv e).left) :=
    sum_update_lt (f := s.recv) RecvPc.left (Finset.mem_range.mpr he) hlt
  -- Every step sets a flag, or moves one program counter on.
  cases a with
  | stage | reserve | send | finish =>
    have hlt := sendsLeft_fire_lt rfl ha
    simp only [stepsLeft, fire] at hlt ⊢
    omega
  | clean i =>
    have hlt := hflag s.cleaned i ha.2.1 ha.2.2.1
    simp only [stepsLeft, fire]
    omega
  | tag i =>
    have hlt := hflag s.tagged i ha.2.1 ha.2.2.1
    simp only [stepsLeft, fire]
    omega
  | count e =>
    have hlt := hflag s.counted e ha.2.1 ha.2.2.1
    simp only [stepsLeft, fire]
    omega
  | poll e =>
    have hlt := hsignal e .polled ha.1 (by rw [ha.2.1]; decide)
    simp only [stepsLeft, fire]
    omega
  | signal e =>
    have hlt := hsignal e .signalled ha.1 (by rw [ha.2]; decide)
    simp only [stepsLeft, fire]
    omega
  | resetCounter e =>
    have hlt := hsignal e .counterReset ha.1 (by rw [ha.2]; decide)
    simp only [stepsLeft, fire]
    omega
  | resetFinish e =>
    have hlt := hsignal e .finishReset ha.1 (by rw [ha.2]; decide)
    simp only [stepsLeft, fire]
    omega
  | resetCount e =>
    have hlt := hsignal e .done ha.1 (by rw [ha.2]; decide)
    simp only [stepsLeft, fire]
    omega
  | gridSync =>
    have hlt := flagLeft_lt ha.1
    simp only [stepsLeft, fire]
    omega
  | acquire e v =>
    have hlt := hrecv e .got ha.2.1 (by rw [ha.2.2.1]; decide)
    simp only [stepsLeft, fire]
    omega
  | giveUp e =>
    have hlt := hrecv e .got ha.1 (by rw [ha.2.1]; decide)
    simp only [stepsLeft, fire]
    omega
  | claim e =>
    have hlt := hrecv e .claimed ha.1 (by rw [ha.2]; decide)
    simp only [stepsLeft, fire]
    omega
  | publish e =>
    have hlt := hrecv e .ready ha.1 (by rw [ha.2]; decide)
    simp only [stepsLeft, fire]
    omega
  | copyRow e i =>
    -- A count is below `2 ^ 31`, so the row is one of those that are counted.
    have hi : i < 2 ^ 31 := by
      have hlt := numRecv_lt h (e := e) (by rw [ha.2.1]; rfl)
      have hmore := ha.2.2.1
      omega
    have hlt := sum_update_lt (f := s.copied) flagLeft (v := true)
      (Finset.mem_product.mpr ⟨Finset.mem_range.mpr ha.1, Finset.mem_range.mpr hi⟩)
      (flagLeft_lt ha.2.2.2.1)
    simp only [stepsLeft, fire]
    omega
  | miss | expire | retry => cases hwait

/-- A poll of a signal wait leaves as many. -/
theorem stepsLeft_fire_wait (ha : enabled l s a) (hwait : a.isWait = true) :
    stepsLeft l (fire l s a) = stepsLeft l s := by
  cases a with
  | miss e =>
    have heq := sum_update_eq (S := Finset.range l.numExperts) (f := s.recv) (v := .missed)
      RecvPc.left (by rw [ha.2.2]; rfl)
    simp only [stepsLeft, fire, heq]
  | retry e =>
    have heq := sum_update_eq (S := Finset.range l.numExperts) (f := s.recv) (v := .waiting)
      RecvPc.left (by rw [ha.2.1]; rfl)
    simp only [stepsLeft, fire, heq]
  | expire e => rfl
  | _ => cases hwait

/-! ### Polls -/

/-- The group whose signal wait takes the step. -/
def Action.waiter : Action → Option ℕ
  | .acquire e _ | .miss e | .expire e | .giveUp e | .retry e => some e
  | _ => none

/-- A poll of a signal wait that has not ended disables nothing but steps of that wait. -/
theorem enabled_fire_poll {e : ℕ} (hpoll : a = .miss e ∨ a = .retry e) (ha : enabled l s a)
    {b : Action} (hb : enabled l s b) (hne : b.waiter ≠ some e) : enabled l (fire l s a) b := by
  -- A poll changes one program counter, from one of the two states of a wait to the other.
  obtain ⟨pc, hfire, hpc⟩ : ∃ pc, fire l s a = { s with recv := Function.update s.recv e pc } ∧
      (s.recv e = .waiting ∨ s.recv e = .missed) := by
    rcases hpoll with rfl | rfl
    · exact ⟨.missed, rfl, .inl ha.2.2⟩
    · exact ⟨.waiting, rfl, .inr ha.2.1⟩
  have hother {e' : ℕ} (hne : e' ≠ e) : Function.update s.recv e pc e' = s.recv e' :=
    Function.update_of_ne hne ..
  have hlater {e' : ℕ} (hwait : s.recv e' ≠ .waiting) (hmiss : s.recv e' ≠ .missed) : e' ≠ e := by
    rintro rfl
    exact hpc.elim hwait hmiss
  rw [hfire]
  cases b with
  | acquire e' v =>
    have hne' : e' ≠ e := fun heq => hne (congrArg some heq)
    exact ⟨hb.1, hb.2.1, (hother hne').trans hb.2.2.1, hb.2.2.2⟩
  | miss e' =>
    have hne' : e' ≠ e := fun heq => hne (congrArg some heq)
    exact ⟨hb.1, hb.2.1, (hother hne').trans hb.2.2⟩
  | expire e' =>
    have hne' : e' ≠ e := fun heq => hne (congrArg some heq)
    exact ⟨hb.1, (hother hne').trans hb.2.1, hb.2.2⟩
  | giveUp e' =>
    have hne' : e' ≠ e := fun heq => hne (congrArg some heq)
    exact ⟨hb.1, (hother hne').trans hb.2.1, hb.2.2⟩
  | retry e' =>
    have hne' : e' ≠ e := fun heq => hne (congrArg some heq)
    exact ⟨hb.1, (hother hne').trans hb.2.1, hb.2.2⟩
  | claim e' =>
    have hne' := hlater (by rw [hb.2]; decide) (by rw [hb.2]; decide)
    exact ⟨hb.1, (hother hne').trans hb.2⟩
  | publish e' =>
    have hne' := hlater (by rw [hb.2]; decide) (by rw [hb.2]; decide)
    exact ⟨hb.1, (hother hne').trans hb.2⟩
  | copyRow e' i =>
    have hne' := hlater (by rw [hb.2.1]; decide) (by rw [hb.2.1]; decide)
    exact ⟨hb.1, (hother hne').trans hb.2.1, hb.2.2⟩
  | poll e' => exact ⟨hb.1, hb.2.1, ⟨hb.2.2.1.1, hb.2.2.1.2, hb.2.2.1.3⟩, hb.2.2.2⟩
  | gridSync =>
    exact ⟨hb.1, fun b hlt => ⟨(hb.2.1 b hlt).1, (hb.2.1 b hlt).2, (hb.2.1 b hlt).3⟩, hb.2.2⟩
  | _ => exact hb

/-! ### Where a launch can stand still -/

/-- When every send to an expert is finished and both warps of block 0 have added theirs, its finish
counter is what the poll waits for. -/
theorem ws_of_finished (hfit : Fits l) (hacc : Accounting l s) {e : ℕ} (he : e < l.numExperts)
    (htag : s.tagged e = true) (hcount : s.counted e = true)
    (hall : ∀ x ∈ l.tasks e, s.token x = .finished) (hlive : (s.signal e).finishLive = true) :
    s.ws (l.numExperts + e) = finishedSumTag * 2 := by
  have hfin : taskCount l TokenPc.isFinished s.token e = (l.tasks e).card := by
    rw [taskCount, Finset.filter_true_of_mem fun x hx => by rw [hall x hx]; rfl]
  have hn := l.numTokensSent_eq_card_tasks hfit.numTopk_le e
  have hsum : finishSum l s e = finishedSumTag * 2 := by
    simp only [finishSum, htag, hcount, hfin, hn, cond_true]
    ring
  rw [hacc.finish e he hlive, hsum]
  rfl

/-- Every thread comes to the end of the SEND phase. -/
theorem synced_of_stuck (hblocks : 1 < l.numSms)
    (hstuck : ∀ a : Action, a.waiter = none → ¬enabled l s a) (b : ℕ) : s.Synced l b := by
  have htokens := tokenDone_of_stuck (s := s) (by omega : 0 < l.numSms) fun a hsend => by
    refine hstuck a ?_
    cases a with
    | acquire | miss | expire | giveUp | retry => cases hsend
    | _ => rfl
  have hcleaned : ∀ i < l.numExperts, s.cleaned i = true := by
    refine forall_of_stride (by decide : 0 < 32) fun i hi hprev => ?_
    by_contra hnot
    exact hstuck (.clean i) rfl ⟨hblocks, hi, by simpa using hnot, hprev⟩
  have htagged : ∀ i < l.numExperts, s.tagged i = true := by
    refine forall_of_stride (by decide : 0 < 32) fun i hi hprev => ?_
    by_contra hnot
    exact hstuck (.tag i) rfl ⟨hblocks, hi, by simpa using hnot, hcleaned, hprev⟩
  have hcounted : ∀ e < l.numExperts, s.counted e = true := by
    refine forall_of_stride Nat.one_pos fun e he hprev => ?_
    by_contra hnot
    refine hstuck (.count e) rfl ⟨hblocks, he, by simpa using hnot, fun _ => htagged,
      fun hmod => ?_⟩
    exact hprev (Nat.pos_of_ne_zero fun hzero => hmod (by rw [hzero]; rfl))
  exact ⟨fun t ht _ w hw => htokens t ht w hw, fun _ => htagged, fun e he _ => hcounted e he⟩

/-- Every signal of the SEND phase is sent. -/
theorem signals_of_stuck (hfit : Fits l) (hacc : Accounting l s) (hblocks : 1 < l.numSms)
    (hstuck : ∀ a : Action, a.waiter = none → ¬enabled l s a) :
    ∀ e < l.numExperts, s.signal e = .done := by
  have hsync := synced_of_stuck hblocks hstuck
  intro e he
  have hall : ∀ x ∈ l.tasks e, s.token x = .finished := by
    rintro ⟨t, w⟩ hx
    obtain ⟨⟨ht, hw⟩, hdst⟩ := l.mem_tasks.mp hx
    exact ((hsync _).tokens t ht rfl w hw).2 (by rw [hdst]; exact Int.natCast_nonneg e)
  cases hpc : s.signal e with
  | waiting =>
    have hws := ws_of_finished hfit hacc he ((hsync 0).tagged rfl e he) ((hsync _).counted e he rfl)
      hall (by rw [hpc]; rfl)
    exact absurd ⟨he, hpc, hsync _, hws⟩ (hstuck (.poll e) rfl)
  | polled => exact absurd ⟨he, hpc⟩ (hstuck (.signal e) rfl)
  | signalled => exact absurd ⟨he, hpc⟩ (hstuck (.resetCounter e) rfl)
  | counterReset => exact absurd ⟨he, hpc⟩ (hstuck (.resetFinish e) rfl)
  | finishReset => exact absurd ⟨he, hpc⟩ (hstuck (.resetCount e) rfl)
  | done => rfl

/-- A launch that has not finished can take a step, unless it is at a signal wait. -/
theorem exists_work (hfit : Fits l) (hblocks : 1 < l.numSms) (h : (runs l).Reachable s)
    (hdone : ¬s.Done l) :
    (∃ a : Action, a.waiter = none ∧ enabled l s a) ∨
      s.recving = true ∧ ∃ e < l.numExperts, s.recv e = .waiting ∨ s.recv e = .missed := by
  by_contra hnone
  push Not at hnone
  obtain ⟨hstuck, hwaits⟩ := hnone
  -- Otherwise the grid barrier could be passed, as all blocks have sent.
  have hrecving : s.recving = true := by
    by_contra hnot
    refine hstuck .gridSync rfl
      ⟨by simpa using hnot, fun b _ => synced_of_stuck hblocks hstuck b, ?_⟩
    exact signals_of_stuck hfit (accounting_of_runs hfit h) hblocks hstuck
  have hready : ∀ e < l.numExperts, s.recv e = .ready := by
    intro e he
    -- A group that has its count could claim and publish.
    have hwait := hwaits hrecving e he
    cases hpc : s.recv e with
    | waiting => exact absurd hpc hwait.1
    | missed => exact absurd hpc hwait.2
    | got => exact absurd ⟨he, hpc⟩ (hstuck (.claim e) rfl)
    | claimed => exact absurd ⟨he, hpc⟩ (hstuck (.publish e) rfl)
    | ready => rfl
  refine hdone ⟨hrecving, hready, fun e he => ?_⟩
  -- The rows are copied in strides, so the first one that is left could be copied.
  refine forall_of_stride (by decide : 0 < kNumWarpsPerGroup) fun i hi hprev => ?_
  by_contra hnot
  refine hstuck (.copyRow e i) rfl ⟨he, hready e he, ?_, by simpa using hnot, hprev⟩
  omega

/-! ### A launch with a finite timeout -/

/-- The turns that a signal wait has left when it polls once and then gives up. -/
def RecvPc.turnsLeft (active : ℤ) : RecvPc → ℕ
  | .waiting => 2
  | .missed => if active = 0 then 0 else 1
  | _ => 0

/-- The turns that the signal waits have left. -/
def turnsLeft (l : Launch) (s : State) : ℕ :=
  ∑ e ∈ Finset.range l.numExperts, (s.recv e).turnsLeft (s.activeRanks (e / l.numLocalExperts))

/-- What falls with every step of a launch that no peer serves. -/
def aloneLeft (l : Launch) (s : State) : ℕ ×ₗ ℕ := toLex (stepsLeft l s, turnsLeft l s)

/-- A step that leaves as many steps and fewer turns leaves less. -/
theorem aloneLeft_lt (hle : stepsLeft l (fire l s a) = stepsLeft l s)
    (hlt : turnsLeft l (fire l s a) < turnsLeft l s) : aloneLeft l (fire l s a) < aloneLeft l s :=
  Prod.Lex.toLex_lt_toLex.mpr (.inr ⟨hle, hlt⟩)

/-- A wait that has just missed its signal has fewer turns left than one that looks again. -/
theorem turnsLeft_missed_lt (active : ℤ) :
    RecvPc.missed.turnsLeft active < RecvPc.waiting.turnsLeft active := by
  by_cases hactive : active = 0 <;> simp [RecvPc.turnsLeft, hactive]

/-- A look that finds no signal leaves less to do. -/
theorem aloneLeft_fire_miss {e : ℕ} (ha : enabled l s (.miss e)) :
    aloneLeft l (fire l s (.miss e)) < aloneLeft l s := by
  refine aloneLeft_lt (stepsLeft_fire_wait ha rfl) (Finset.sum_lt_sum (fun i _ => ?_)
    ⟨e, Finset.mem_range.mpr ha.2.1, ?_⟩)
  · by_cases hi : i = e
    · subst hi
      simp only [fire, Function.update_self, ha.2.2]
      exact (turnsLeft_missed_lt _).le
    · simp only [fire, Function.update_of_ne hi, le_refl]
  · simp only [fire, Function.update_self, ha.2.2]
    exact turnsLeft_missed_lt _

/-- A timeout of an active rank leaves less to do. Its rank is not active any more, and so it gets
no other. -/
theorem aloneLeft_fire_expire {e : ℕ} (ha : enabled l s (.expire e))
    (hactive : s.activeRanks (e / l.numLocalExperts) ≠ 0) :
    aloneLeft l (fire l s (.expire e)) < aloneLeft l s := by
  refine aloneLeft_lt (stepsLeft_fire_wait ha rfl) (Finset.sum_lt_sum (fun i _ => ?_)
    ⟨e, Finset.mem_range.mpr ha.1, ?_⟩)
  · -- The other groups that wait for the same rank have a turn less, too.
    simp only [fire]
    by_cases hi : i / l.numLocalExperts = e / l.numLocalExperts
    · rw [hi, Function.update_self]
      cases s.recv i with
      | missed => simp [RecvPc.turnsLeft]
      | _ => exact le_rfl
    · rw [Function.update_of_ne hi]
  · simp only [fire, Function.update_self, ha.2.1, RecvPc.turnsLeft, if_true, if_neg hactive]
    exact Nat.one_pos

/-- A launch with a timeout always has a step to its end, whatever the signal words hold. -/
theorem exists_step_alone (hfit : Fits l) (hblocks : 1 < l.numSms) (htime : l.timeoutTicks ≠ -1)
    (h : (runs l).Reachable s) (hdone : ¬s.Done l) (v : ℕ → ℤ) :
    ∃ a, enabled l s a ∧ (∀ e x, a = .acquire e x → v e = x) ∧ (∀ e, a = .miss e → v e = 0) ∧
      aloneLeft l (fire l s a) < aloneLeft l s := by
  -- Work makes the first component fall.
  have hwork : ∀ a : Action, enabled l s a → a.isWait = false →
      aloneLeft l (fire l s a) < aloneLeft l s := fun a ha hwait =>
    Prod.Lex.toLex_lt_toLex.mpr (.inl (stepsLeft_fire_lt h ha hwait))
  -- There is work to do, or a wait is open.
  obtain ⟨a, hwait, ha⟩ | ⟨hrec, e, he, hpc | hpc⟩ := exists_work hfit hblocks h hdone
  · refine ⟨a, ha, ?_, ?_, hwork a ha ?_⟩
    · rintro e x rfl
      cases hwait
    · rintro e rfl
      cases hwait
    · cases a with
      | miss | expire | retry => cases hwait
      | _ => rfl
  · -- A wait reads its word, and passes if it finds a signal.
    by_cases hv : v e = 0
    · have ha : enabled l s (.miss e) := ⟨hrec, he, hpc⟩
      refine ⟨.miss e, ha, by simp, ?_, aloneLeft_fire_miss ha⟩
      rintro e' heq
      cases heq
      exact hv
    · have ha : enabled l s (.acquire e (v e)) := ⟨hrec, he, hpc, hv⟩
      refine ⟨.acquire e (v e), ha, ?_, by simp, hwork _ ha rfl⟩
      rintro e' x heq
      cases heq
      rfl
  · -- A wait that has missed gives up if its rank is not active, and otherwise its time can run
    -- out.
    by_cases hactive : s.activeRanks (e / l.numLocalExperts) = 0
    · have ha : enabled l s (.giveUp e) := ⟨he, hpc, hactive⟩
      exact ⟨.giveUp e, ha, by simp, by simp, hwork _ ha rfl⟩
    · have ha : enabled l s (.expire e) := ⟨he, hpc, htime⟩
      exact ⟨.expire e, ha, by simp, by simp, aloneLeft_fire_expire ha hactive⟩

/-! ### A launch that has finished -/

/-- A block stays at its barrier. -/
theorem Synced_mono (ha : enabled l s a) {b : ℕ} (h : s.Synced l b) : (fire l s a).Synced l b where
  tokens t ht hb w hw := by
    obtain ⟨hpassed, hfinished⟩ := h.tokens t ht hb w hw
    refine ⟨fun w' hw' => token_ne_idle_mono (hpassed w' hw'), fun hdst => ?_⟩
    have hdone := hfinished hdst
    -- A finished send is not the one that moves.
    have key : ∀ (x : ℕ × ℕ) (pc : TokenPc), s.token x ≠ .finished →
        Function.update s.token x pc (t, w) = .finished := by
      intro x pc hx
      have hne : (t, w) ≠ x := by
        rintro rfl
        exact hx hdone
      rw [Function.update_of_ne hne]
      exact hdone
    cases a with
    | stage t' w' => exact key _ _ (by rw [ha.2.2.1]; decide)
    | reserve t' w' => exact key _ _ (by rw [ha.2.2.1]; decide)
    | send t' w' => exact key _ _ (by rw [ha.2.2]; decide)
    | finish t' w' => exact key _ _ (by rw [ha.2.2]; decide)
    | _ => exact hdone
  tagged hb i hi := by
    have htag := h.tagged hb i hi
    cases a with
    | tag j =>
      -- A flag that is set is not set again.
      have hne : i ≠ j := by
        rintro rfl
        rw [ha.2.2.1] at htag
        cases htag
      exact (Function.update_of_ne hne ..).trans htag
    | _ => exact htag
  counted e he hb := by
    have hcount := h.counted e he hb
    cases a with
    | count j =>
      have hne : e ≠ j := by
        rintro rfl
        rw [ha.2.2.1] at hcount
        cases hcount
      exact (Function.update_of_ne hne ..).trans hcount
    | _ => exact hcount

/-- In the RECV phase every block has passed its barrier. -/
theorem synced_of_recving (h : (runs l).Reachable s) (hrec : s.recving = true) :
    ∀ b < l.numSms, s.Synced l b := by
  revert hrec
  refine h.invariant (I := fun s => s.recving = true → ∀ b < l.numSms, s.Synced l b) ?_ ?_
  · intro s hs hrec
    rw [hs.fresh.recving] at hrec
    cases hrec
  · rintro s a s' - ih ⟨hen, rfl⟩ hrec b hb
    refine Synced_mono hen ?_
    cases a with
    | gridSync => exact hen.2.1 b hb
    | _ => exact ih hrec b hb

/-- The block of an expert is a block of the launch. -/
theorem block_lt (l : Launch) {e : ℕ} (he : e < l.numExperts) : e / kNumWarpGroups < l.numSms := by
  show e / 8 < (l.numExperts + 8 - 1) / 8
  omega

/-- A launch that has finished takes no step. -/
theorem not_enabled_of_done (hfit : Fits l) (hblocks : 0 < l.numSms) (h : (runs l).Reachable s)
    (hdone : s.Done l) (a : Action) : ¬enabled l s a := by
  have hacc := accounting_of_runs hfit h
  have hsync := synced_of_recving h hdone.recving
  have hsignal := (order_of_runs h).signals hdone.recving
  have hready := hdone.ready
  -- Every block has passed its barrier, so all sends are finished.
  have htoken : ∀ t < l.numTokens, ∀ w < numTokenWarps, s.TokenDone l t w := fun t ht =>
    (hsync _ (Nat.mod_lt t hblocks)).tokens t ht rfl
  intro ha
  -- So the guard of every step speaks about something that is over.
  cases a with
  | stage t w => exact (htoken t ha.1 w ha.2.1).1 w ha.2.1 ha.2.2.1
  | reserve t w =>
    have hfin := (htoken t ha.1 w ha.2.1).2 ha.2.2.2.1
    rw [ha.2.2.1] at hfin
    cases hfin
  | send t w =>
    have hfin := (htoken t ha.1 w ha.2.1).2 (hacc.inRange t w (by rw [ha.2.2]; rfl))
    rw [ha.2.2] at hfin
    cases hfin
  | finish t w =>
    have hfin := (htoken t ha.1 w ha.2.1).2 (hacc.inRange t w (by rw [ha.2.2]; rfl))
    rw [ha.2.2] at hfin
    cases hfin
  | clean i =>
    have htag := (hsync 0 hblocks).tagged rfl i ha.2.1
    -- The entries were cleaned before the tag was added.
    have hclean := hacc.tagged i ha.2.1 htag i ha.2.1
    rw [ha.2.2.1] at hclean
    cases hclean
  | tag i =>
    have htag := (hsync 0 hblocks).tagged rfl i ha.2.1
    rw [ha.2.2.1] at htag
    cases htag
  | count e =>
    have hcount := (hsync _ (block_lt l ha.2.1)).counted e ha.2.1 rfl
    rw [ha.2.2.1] at hcount
    cases hcount
  | poll e => exact absurd (ha.2.1.symm.trans (hsignal e ha.1)) (by decide)
  | signal e => exact absurd (ha.2.symm.trans (hsignal e ha.1)) (by decide)
  | resetCounter e => exact absurd (ha.2.symm.trans (hsignal e ha.1)) (by decide)
  | resetFinish e => exact absurd (ha.2.symm.trans (hsignal e ha.1)) (by decide)
  | resetCount e => exact absurd (ha.2.symm.trans (hsignal e ha.1)) (by decide)
  | gridSync => exact absurd (ha.1.symm.trans hdone.recving) (by decide)
  | acquire e v => exact absurd (ha.2.2.1.symm.trans (hready e ha.2.1)) (by decide)
  | miss e => exact absurd (ha.2.2.symm.trans (hready e ha.2.1)) (by decide)
  | expire e => exact absurd (ha.2.1.symm.trans (hready e ha.1)) (by decide)
  | giveUp e => exact absurd (ha.2.1.symm.trans (hready e ha.1)) (by decide)
  | retry e => exact absurd (ha.2.1.symm.trans (hready e ha.1)) (by decide)
  | claim e => exact absurd (ha.2.symm.trans (hready e ha.1)) (by decide)
  | publish e => exact absurd (ha.2.symm.trans (hready e ha.1)) (by decide)
  | copyRow e i =>
    have hcopied := hdone.copied e ha.1 i (by have := ha.2.2.1; omega)
    rw [ha.2.2.2.1] at hcopied
    cases hcopied

end

end EpDemo.Kernel.Dispatch
