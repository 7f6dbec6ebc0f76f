import EpDemo.Proofs.Kernel.CombineSend

/-!
# `EpDemo.Proofs.Kernel.CombineRun`: what holds in the runs of one launch of `combine`

`runs` are the interleavings of one launch that starts with a zero workspace. Whatever the
signal waits read, and whether or not they time out, in these runs a group signals after its rows
are sent, the rows are reduced after every signal wait has ended, and the workspace is zero by
then.
-/

set_option autoImplicit false

namespace EpDemo.Kernel.Combine

open EpDemo.Library

/-- A launch starts: nothing has happened, and the workspace is zero. -/
structure State.Starts (s : State) : Prop where
  fresh : s.Fresh
  ws : ∀ i, s.ws i = 0

/-- The interleavings of one launch. -/
def runs (l : CombineLaunch) : TransitionSystem State Action := (machine l).system State.Starts

section

variable {l : CombineLaunch} {s : State} {a : Action}

/-- Only `sendRow` sends, and what is sent stays sent. -/
theorem row_sent_fire (ha : enabled l s a) (x : ℕ × ℕ) :
    (fire l s a).row x = .sent ↔ s.row x = .sent ∨ a = .sendRow x.1 x.2 := by
  cases a with
  | stageRow e k =>
    by_cases hx : x = (e, k)
    · simp [fire, hx, ha.2.2.2.1]
    · simp [fire, Function.update_of_ne hx]
  | sendRow e k =>
    by_cases hx : x = (e, k)
    · simp [fire, hx]
    · have hne : ¬(e = x.1 ∧ k = x.2) := fun h => hx (Prod.ext h.1.symm h.2.symm)
      simp [fire, Function.update_of_ne hx, hne]
  | _ => simp [fire]

/-- Only `stageRow` begins a row that goes through the send buffer. -/
theorem row_ne_idle_of_fire (ha : enabled l s a) {x : ℕ × ℕ} (hstaged : l.staged x.1 = true)
    (hstage : ∀ e k, a ≠ .stageRow e k) (hx : (fire l s a).row x ≠ .idle) : s.row x ≠ .idle := by
  cases a with
  | stageRow e k => exact absurd rfl (hstage e k)
  | sendRow e k =>
    by_cases hxe : x = (e, k)
    · subst hxe
      rw [ha.2.2.1, if_pos hstaged]
      decide
    · simpa only [fire, Function.update_of_ne hxe] using hx
  | _ => exact hx

/-- Only `signal` signals, and what is signalled stays so. -/
theorem signal_isSent_fire (ha : enabled l s a) (e : ℕ) :
    ((fire l s a).signal e).isSent = true ↔ (s.signal e).isSent = true ∨ a = .signal e := by
  have key : ∀ (i : ℕ) (pc : SignalPc), pc.isSent = (s.signal i).isSent →
      ((Function.update s.signal i pc e).isSent = true ↔ (s.signal e).isSent = true) := by
    intro i pc hpc
    by_cases he : e = i
    · rw [he, Function.update_self, hpc]
    · rw [Function.update_of_ne he]
  cases a with
  | «open» i => simpa [fire] using key i .opened (by rw [ha.2.1]; rfl)
  | signal i =>
    by_cases he : e = i
    · simp [fire, he, SignalPc.isSent]
    · simp [fire, Function.update_of_ne he, Ne.symm he]
  | drop i => simpa [fire] using key i .done (by rw [ha.2]; rfl)
  | _ => simp [fire]

/-- Only `clean` cleans, and what is clean stays so. -/
theorem cleaned_fire (i : ℕ) :
    (fire l s a).cleaned i = true ↔ s.cleaned i = true ∨ a = .clean i := by
  cases a with
  | clean j =>
    by_cases hi : i = j
    · simp [fire, hi]
    · simp [fire, Function.update_of_ne hi, Ne.symm hi]
  | _ => simp [fire]

/-- A signal wait that has passed does not wait again. -/
theorem recv_passed_mono (ha : enabled l s a) {e : ℕ} (h : s.recv e = .passed) :
    (fire l s a).recv e = .passed := by
  have key : ∀ (i : ℕ) (pc : RecvPc), s.recv i ≠ .passed →
      Function.update s.recv i pc e = .passed := by
    intro i pc hi
    have hei : e ≠ i := by
      rintro rfl
      exact hi h
    rwa [Function.update_of_ne hei]
  cases a with
  | acquire i v => exact key i _ (by rw [ha.2.1]; decide)
  | miss i => exact key i _ (by rw [ha.2.1]; decide)
  | retry i => exact key i _ (by rw [ha.2.1]; decide)
  | giveUp i => exact key i _ (by rw [ha.2.1]; decide)
  | _ => exact h

/-- A signal wait passes when it acquires the signal, in a launch without timeouts. -/
theorem recv_passed_fire (hactive : ∀ q, s.activeRanks q = 1) (ha : enabled l s a) (e : ℕ) :
    (fire l s a).recv e = .passed ↔ s.recv e = .passed ∨ ∃ v, a = .acquire e v := by
  have key : ∀ (i : ℕ) (pc : RecvPc), pc ≠ .passed → s.recv i ≠ .passed →
      (Function.update s.recv i pc e = .passed ↔ s.recv e = .passed) := by
    intro i pc hpc hi
    by_cases he : e = i
    · rw [he, Function.update_self]
      exact ⟨fun h => absurd h hpc, fun h => absurd h hi⟩
    · rw [Function.update_of_ne he]
  cases a with
  | acquire i v =>
    by_cases he : e = i
    · simp [fire, he]
    · simp [fire, Function.update_of_ne he, Ne.symm he]
  | miss i => simpa [fire] using key i .missed (by decide) (by rw [ha.2.1]; decide)
  | retry i => simpa [fire] using key i .waiting (by decide) (by rw [ha.2.1]; decide)
  | giveUp i => exact absurd ((hactive _).symm.trans ha.2.2) (by decide)
  | _ => simp [fire]

/-- A signal wait passes when it acquires the signal or gives the source up. -/
theorem passed_cases (ha : enabled l s a) {e : ℕ} (h : (fire l s a).recv e = .passed) :
    s.recv e = .passed ∨ (∃ v, a = .acquire e v) ∨
      a = .giveUp e ∧ s.activeRanks (e / l.numLocalExperts) = 0 := by
  -- A step that leaves the wait open is not the one.
  have key : ∀ (i : ℕ) (pc : RecvPc), pc ≠ .passed → Function.update s.recv i pc e = .passed →
      s.recv e = .passed := by
    intro i pc hpc hi
    by_cases hei : e = i
    · subst hei
      rw [Function.update_self] at hi
      exact absurd hi hpc
    · rwa [Function.update_of_ne hei] at hi
  -- Only `acquire` and `giveUp` let a wait pass.
  cases a with
  | acquire i v =>
    by_cases hei : e = i
    · exact .inr (.inl ⟨v, by rw [hei]⟩)
    · exact .inl ((Function.update_of_ne hei ..).symm.trans h)
  | giveUp i =>
    by_cases hei : e = i
    · subst hei
      exact .inr (.inr ⟨rfl, ha.2.2⟩)
    · exact .inl ((Function.update_of_ne hei ..).symm.trans h)
  | miss i => exact .inl (key i .missed (by decide) h)
  | retry i => exact .inl (key i .waiting (by decide) h)
  | _ => exact .inl h

/-- The gate holds in every run. -/
theorem gate_of_runs (h : (runs l).Reachable s) : Gate l s := by
  refine h.invariant (fun q hq => .fresh hq.fresh (hq.ws 0)) ?_
  rintro q b q' - hgate ⟨hen, rfl⟩
  exact hgate.fire hen

/-- What the barriers order. -/
structure Order (l : CombineLaunch) (s : State) : Prop where
  rest : ∀ i, i ≠ 0 → s.ws i = 0
  rows : ∀ e k, s.row (e, k) ≠ .idle → e < l.numExperts ∧ k < l.numRows e
  rowsSent : ∀ e, s.signal e ≠ .waiting → s.RowsSent l e
  sendDone : s.reducing = true → s.SendDone l
  passed : s.reducing = true → ∀ e < l.numExperts, s.recv e = .passed
  reduced_le : ∀ p, s.reduced p ≤ l.numTopk
  reduced_of_stored : ∀ p, s.stored p = true → s.reduced p = l.numTopk
  reducing : ∀ p, s.reduced p ≠ 0 ∨ s.stored p = true → s.reducing = true

/-- A thread that has finished the SEND phase stays so. -/
theorem signal_done_mono (ha : enabled l s a) {e : ℕ} (h : s.signal e = .done) :
    (fire l s a).signal e = .done := by
  have key : ∀ (i : ℕ) (pc : SignalPc), s.signal i ≠ .done →
      Function.update s.signal i pc e = .done := by
    intro i pc hi
    have hei : e ≠ i := by
      rintro rfl
      exact hi h
    rw [Function.update_of_ne hei]
    exact h
  cases a with
  | «open» i => exact key i _ (by rw [ha.2.1]; decide)
  | signal i => exact key i _ (by rw [ha.2]; decide)
  | drop i => exact key i _ (by rw [ha.2]; decide)
  | _ => exact h

/-- The clean flag is published once. -/
theorem published_mono (h : s.published = true) : (fire l s a).published = true := by
  cases a with
  | publish => rfl
  | _ => exact h

/-- After the grid barrier there is no way back. -/
theorem reducing_mono (h : s.reducing = true) : (fire l s a).reducing = true := by
  cases a with
  | gridSync => rfl
  | _ => exact h

/-- An output that was stored stays stored. -/
theorem stored_mono {x : ℕ × ℕ} (h : s.stored x = true) : (fire l s a).stored x = true := by
  cases a with
  | store t w =>
    by_cases hx : x = (t, w)
    · simp only [fire, hx, Function.update_self]
    · simpa only [fire, Function.update_of_ne hx] using h
  | _ => exact h

/-- Rows that are sent stay sent. -/
theorem RowsSent_mono (ha : enabled l s a) {e : ℕ} (h : s.RowsSent l e) :
    (fire l s a).RowsSent l e :=
  ⟨fun k hk => (row_sent_fire ha _).mpr (.inl (h.1 k hk)), fun he => published_mono (h.2 he)⟩

/-- The SEND phase stays done. -/
theorem SendDone_mono (ha : enabled l s a) (h : s.SendDone l) : (fire l s a).SendDone l :=
  ⟨published_mono h.1, fun e he => signal_done_mono ha (h.2 e he)⟩

/-- The rows are only reduced after the grid barrier, which waits for the SEND phase. -/
theorem sendDone_of_reducing_fire (ha : enabled l s a) (h : s.reducing = true → s.SendDone l)
    (hr : (fire l s a).reducing = true) : (fire l s a).SendDone l := by
  refine SendDone_mono ha ?_
  cases a with
  | gridSync => exact ha.2.1
  | _ => exact h hr

/-- A warp adds up at most `num_topk` rows for a token. -/
theorem reduced_le_fire (ha : enabled l s a) {x : ℕ × ℕ} (h : s.reduced x ≤ l.numTopk) :
    (fire l s a).reduced x ≤ l.numTopk := by
  cases a with
  | accum t w =>
    by_cases hx : x = (t, w)
    · rw [hx]
      simpa only [fire, Function.update_self] using Nat.succ_le_of_lt ha.2.2.2.1
    · simpa only [fire, Function.update_of_ne hx] using h
  | _ => exact h

/-- Without timeouts every rank stays active. -/
theorem activeRanks_fire (htime : l.timeoutTicks = -1) (hactive : ∀ q, s.activeRanks q = 1)
    (ha : enabled l s a) (q : ℕ) : (fire l s a).activeRanks q = 1 := by
  cases a with
  | expire e => exact absurd htime ha.2.2
  | _ => exact hactive q

/-- A rank that is not active stays so. -/
theorem inactive_fire {q : ℕ} (h : s.activeRanks q = 0) : (fire l s a).activeRanks q = 0 := by
  cases a with
  | expire e =>
    show Function.update s.activeRanks (e / l.numLocalExperts) 0 q = 0
    by_cases hq : q = e / l.numLocalExperts
    · rw [hq, Function.update_self]
    · rw [Function.update_of_ne hq, h]
  | _ => exact h

namespace Order

/-- At the start of a call nothing has been done out of order. -/
theorem starts (hs : s.Starts) : Order l s := by
  refine ⟨fun i _ => hs.ws i, ?_, ?_, ?_, ?_, ?_, ?_, ?_⟩
  · exact fun e k hrow => absurd (hs.fresh.row _) hrow
  · exact fun e he => absurd (hs.fresh.signal e) he
  · exact fun hr => by simp [hs.fresh.reducing] at hr
  · exact fun hr => by simp [hs.fresh.reducing] at hr
  · exact fun p => by simp [hs.fresh.reduced]
  · exact fun p hp => by simp [hs.fresh.stored] at hp
  · exact fun p hp => by simp [hs.fresh.reduced, hs.fresh.stored] at hp

/-- Every step keeps the order. -/
theorem fire (h : Order l s) (ha : enabled l s a) : Order l (Combine.fire l s a) where
  rest i hi := (ws_fire_of_ne l s a hi).trans (h.rest i hi)
  rows e k hrow := by
    -- A row that has begun is one of the expert, and so is one that begins now.
    have key : ∀ (i j : ℕ) (pc : RowPc), i < l.numExperts ∧ j < l.numRows i →
        Function.update s.row (i, j) pc (e, k) ≠ .idle → e < l.numExperts ∧ k < l.numRows e := by
      intro i j pc hij hrow
      by_cases hp : (e, k) = (i, j)
      · cases hp
        exact hij
      · rw [Function.update_of_ne hp] at hrow
        exact h.rows e k hrow
    cases a with
    | stageRow i j => exact key i j _ ⟨ha.1, ha.2.1⟩ hrow
    | sendRow i j => exact key i j _ ⟨ha.1, ha.2.1⟩ hrow
    | _ => exact h.rows e k hrow
  rowsSent e he := by
    refine RowsSent_mono ha ?_
    -- A thread that moves on has found its rows sent.
    have key : ∀ (i : ℕ) (pc : SignalPc), Function.update s.signal i pc e ≠ .waiting →
        s.RowsSent l i → s.RowsSent l e := by
      intro i pc hpc hi
      by_cases hei : e = i
      · exact hei ▸ hi
      · rw [Function.update_of_ne hei] at hpc
        exact h.rowsSent e hpc
    cases a with
    | «open» i => exact key i _ he ha.2.2.1
    | signal i => exact key i _ he (h.rowsSent i (by rw [ha.2]; decide))
    | drop i => exact key i _ he (h.rowsSent i (by rw [ha.2]; decide))
    | _ => exact h.rowsSent e he
  sendDone hr := sendDone_of_reducing_fire ha h.sendDone hr
  passed hr e he := by
    refine recv_passed_mono ha ?_
    -- The grid barrier is passed when all waits have passed.
    cases a with
    | gridSync => exact ha.2.2 e he
    | _ => exact h.passed hr e he
  reduced_le p := reduced_le_fire ha (h.reduced_le p)
  reduced_of_stored p hp := by
    cases a with
    | accum t w =>
      -- A part that is stored is complete, so nothing is added to it.
      have hpt : p ≠ (t, w) := by
        rintro rfl
        exact absurd (h.reduced_of_stored _ hp) ha.2.2.2.1.ne
      simpa only [Combine.fire, Function.update_of_ne hpt] using h.reduced_of_stored p hp
    | store t w =>
      by_cases hpt : p = (t, w)
      · rw [hpt]
        exact ha.2.2.2.1
      · simp only [Combine.fire, Function.update_of_ne hpt] at hp
        exact h.reduced_of_stored p hp
    | _ => exact h.reduced_of_stored p hp
  reducing p hp := by
    -- Nothing is added or stored before the grid barrier.
    cases a with
    | gridSync => rfl
    | accum t w => exact ha.1
    | store t w => exact ha.1
    | _ => exact h.reducing p hp

end Order

/-- The barriers hold in every run. -/
theorem order_of_runs (h : (runs l).Reachable s) : Order l s := by
  refine h.invariant (fun _ hq => .starts hq) ?_
  rintro q b q' - hq ⟨hen, rfl⟩
  exact hq.fire hen

/-- The workspace is zero when the rows are reduced. -/
theorem ws_of_reducing (h : (runs l).Reachable s) (hr : s.reducing = true) (i : ℕ) :
    s.ws i = 0 := by
  have hprog := order_of_runs h
  have hgate := gate_of_runs h
  by_cases hi : i = 0
  · exact hi ▸ hgate.flag_of_sendDone (hprog.sendDone hr)
  · exact hprog.rest i hi

end

end EpDemo.Kernel.Combine
