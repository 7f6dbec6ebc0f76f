import EpDemo.Proofs.System.Progress
import EpDemo.Proofs.System.Transports

/-!
# `EpDemo.Proofs.System.FirstUse`: the first `dispatch` on a buffer that was only allocated

The constructor zeroes the workspace, `nvlink_available` and `ipc_peer_ptrs`, but not the buffer
itself, and the first `dispatch` cleans the receive signals of the other buffer. So the signal
words that it waits for hold whatever the allocation gave (`Allocated`). A wait ends at the first
non-zero value, a store replaces it and a remote atomic adds to it.

`SignalReady` says which contents do no harm: anything in the words that a rank signals to itself,
which it does before it waits, and elsewhere zero, or, where the source stores its signal, the value
that the source is going to store. From such a state every count is decoded as it was sent. From
every other one some run misreads a count: the waiting rank takes what is there before the source
sends anything, or, where the first content happens to be the signal, what is there after the atomic
has added to it (`first_use_decodes_iff`).
-/

set_option autoImplicit false

namespace EpDemo.System.Config

open EpDemo.Kernel EpDemo.Library

variable {A : Type} {c : Config A} {w₀ w : World A} {a : Action}

/-- The word that source `s` signals for local expert `le` of rank `q` in the first call. -/
def firstSignal (c : Config A) (w : World A) (q le s : ℕ) : ℤ :=
  w.sig (c.calls 0).buf (c.fabric.recvSignal (c.calls 0).buf q (le * c.numRanks + s))

/-- Every signal word of the first call is one that a rank signals to itself, or it is zero, or its
source stores the value that it already holds. -/
def SignalReady (c : Config A) (w : World A) : Prop :=
  ∀ q < c.numRanks, ∀ le < c.numLocalExperts, ∀ s < c.numRanks,
    s = q ∨ c.firstSignal w q le s = 0 ∨
      c.fabric.path s q ≠ .rdma ∧
        c.firstSignal w q le s = c.signalValue 0 s (q * c.numLocalExperts + le)

instance (w : World A) : Decidable (c.SignalReady w) :=
  inferInstanceAs (Decidable (∀ q < c.numRanks, ∀ le < c.numLocalExperts, ∀ s < c.numRanks,
    _ ∨ _ ∨ _))

/-- The signal words are of type `int`. -/
def IntSignals (c : Config A) (w : World A) : Prop :=
  ∀ q < c.numRanks, ∀ le < c.numLocalExperts, ∀ s < c.numRanks,
    toInt32 (c.firstSignal w q le s) = c.firstSignal w q le s

/-- Whatever count a group of the first call has decoded is the number of tokens that its source
has for the local expert. -/
def DecodesCounts (c : Config A) (w : World A) : Prop :=
  ∀ q < c.numRanks, ∀ le < c.numLocalExperts, ∀ s < c.numRanks,
    ((w.disp (q, 0)).recv (s * c.numLocalExperts + le)).hasCount = true →
      (w.disp (q, 0)).numRecv (s * c.numLocalExperts + le) =
        ((c.launch s 0).tokensFor (q * c.numLocalExperts + le)).card

/-- The runs from one state. -/
def runsFrom (c : Config A) (w₀ : World A) : TransitionSystem (World A) Action :=
  c.machine.system fun w => w = w₀

/-- A run from a state after the constructors starts in such a state. -/
theorem runsFrom_allocated (h₀ : c.Allocated w₀) (w : World A) (hw : w = w₀) : c.Allocated w :=
  hw ▸ h₀

/-- A step that is enabled leads on. -/
theorem runsFrom_fire (h : (c.runsFrom w₀).Reachable w) (hen : c.enabled w a) :
    (c.runsFrom w₀).Reachable (c.fire w a) := .step h ⟨hen, rfl⟩

/-! ### The signal words of the first call -/

/-- What entry `i` of rank `q` holds when its signal has landed: a store replaces what was there, an
atomic adds to it. -/
def landedSignal (c : Config A) (w₀ : World A) (q i : ℕ) : ℤ :=
  if c.fabric.path (c.cellSender 0 i) q = .rdma then
    toInt32 (w₀.sig (c.calls 0).buf (c.fabric.recvSignal (c.calls 0).buf q i) +
      c.signalValue 0 (c.cellSender 0 i) (c.cellExpert 0 q i))
  else c.signalValue 0 (c.cellSender 0 i) (c.cellExpert 0 q i)

/-- A signal word changes when its signal lands, and at no other time. -/
def FirstWords (c : Config A) (w₀ w : World A) : Prop :=
  ∀ q < c.numRanks, ∀ i < c.numExperts,
    (c.Landed w 0 (c.cellSender 0 i) (.signal (c.cellExpert 0 q i)) →
      w.sig (c.calls 0).buf (c.fabric.recvSignal (c.calls 0).buf q i) = c.landedSignal w₀ q i) ∧
    (¬c.Landed w 0 (c.cellSender 0 i) (.signal (c.cellExpert 0 q i)) →
      w.sig (c.calls 0).buf (c.fabric.recvSignal (c.calls 0).buf q i) =
        w₀.sig (c.calls 0).buf (c.fabric.recvSignal (c.calls 0).buf q i))

/-- The current call of every rank is the first one. -/
theorem SingleDispatch.call_eq (hone : c.SingleDispatch) (hl : c.Launches w) {r : ℕ}
    (hr : r < c.numRanks) : w.call r = 0 := by
  have hcall := (hasCall_iff_of_length hone.length).mp (hl.hasCall r hr)
  omega

/-- Every step of the only call keeps what the words say. -/
theorem FirstWords.fire (hv : c.Sound) (hone : c.SingleDispatch) (hl : c.Launches w)
    (hq : c.Queues w) (h : c.FirstWords w₀ w) (hen : c.enabled w a) :
    c.FirstWords w₀ (c.fire w a) := by
  intro d hd i hi
  -- An entry stays what it is when its word and its signal do.
  have frame : (c.fire w a).sig (c.calls 0).buf (c.fabric.recvSignal (c.calls 0).buf d i) =
        w.sig (c.calls 0).buf (c.fabric.recvSignal (c.calls 0).buf d i) →
      (c.Landed (c.fire w a) 0 (c.cellSender 0 i) (.signal (c.cellExpert 0 d i)) ↔
        c.Landed w 0 (c.cellSender 0 i) (.signal (c.cellExpert 0 d i))) →
      (c.Landed (c.fire w a) 0 (c.cellSender 0 i) (.signal (c.cellExpert 0 d i)) →
        (c.fire w a).sig (c.calls 0).buf (c.fabric.recvSignal (c.calls 0).buf d i) =
          c.landedSignal w₀ d i) ∧
      (¬c.Landed (c.fire w a) 0 (c.cellSender 0 i) (.signal (c.cellExpert 0 d i)) →
        (c.fire w a).sig (c.calls 0).buf (c.fabric.recvSignal (c.calls 0).buf d i) =
          w₀.sig (c.calls 0).buf (c.fabric.recvSignal (c.calls 0).buf d i)) := by
    intro hsig hland
    rw [hsig, hland]
    exact h d hd i hi
  rcases signal_cases hv hl hq hen with hquiet | ⟨r, j, hclean, hlanded⟩ | ⟨m, r, e, hland⟩
  · exact frame (by rw [hquiet.sig]) (hquiet.landed ..)
  · -- The other buffer is cleaned.
    refine frame ?_ (hlanded ..)
    rw [(sig_fire_cleaned hclean _ _).1, hone.call_eq hl (of_cleaned hen hclean).1]
    exact if_neg fun heq => hone.clean_ne heq.1.symm
  · have hm : m = 0 := by
      have hle := hland.call_le
      rw [hone.call_eq hl hland.rank] at hle
      exact Nat.le_zero.mp hle
    subst hm
    by_cases hcell : c.cellSender 0 i = r ∧ c.cellExpert 0 d i = e
    · have hword : (c.calls 0).buf = (c.calls 0).buf ∧
          c.fabric.recvSignal (c.calls 0).buf d i = c.signalDst 0 r e := by
        obtain ⟨rfl, rfl⟩ := (cell_eq_iff hv hi hland.rank).mp hcell
        exact ⟨rfl, (signalDst_eq hv ..).symm⟩
      obtain ⟨rfl, rfl⟩ := hcell
      refine ⟨fun _ => ?_, fun hnot => absurd ((hland.landed ..).mpr (.inr ⟨rfl, rfl, rfl⟩)) hnot⟩
      have hdst : c.cellExpert 0 d i / c.numLocalExperts = d := (sendCell_of_cell hv hi).1
      unfold landedSignal
      cases hland.how with
      | inl hstore =>
        rw [hdst] at hstore
        rw [(hstore.2 _ _).1, if_pos hword, if_neg hstore.1]
      | inr hadd =>
        -- The signal had not landed, so the word is what it was at first.
        rw [hdst] at hadd
        rw [(hadd.2 _ _).1, if_pos hword, (h d hd i hi).2 hland.notLanded, if_pos hadd.1]
    · refine frame ?_ ((hland.landed ..).trans (or_iff_left ?_))
      · have hne : ¬((c.calls 0).buf = (c.calls 0).buf ∧
            c.fabric.recvSignal (c.calls 0).buf d i = c.signalDst 0 r e) :=
          fun hword => hcell (Signals.cell_of_signalDst hv hland.rank hword)
        cases hland.how with
        | inl hstore => rw [(hstore.2 _ _).1, if_neg hne]
        | inr hadd => rw [(hadd.2 _ _).1, if_neg hne]
      · exact fun heq => hcell ⟨heq.2.1, heq.2.2⟩

/-- The signal words of the first call in every run from one state. -/
theorem firstWords_of_run (hv : c.Sound) (hone : c.SingleDispatch) (h₀ : c.Allocated w₀)
    (h : (c.runsFrom w₀).Reachable w) : c.FirstWords w₀ w := by
  refine h.invariant ?_ ?_
  · rintro q rfl d - i -
    refine ⟨fun hland => absurd hland.1 ?_, fun _ => rfl⟩
    show ¬c.SignalSent q 0 _ _
    simp [SignalSent, hone.kind, (h₀.disp _).signal, Dispatch.SignalPc.isSent]
  · rintro q a q' hreach hold ⟨hen, rfl⟩
    have hinit := runsFrom_allocated h₀
    exact hold.fire hv hone (launches_of_run hv hinit hreach) (queues_of_run hv hinit hreach) hen

/-- The same, by rank, local expert and source. -/
theorem FirstWords.firstSignal (hv : c.Sound) (hone : c.SingleDispatch) (h : c.FirstWords w₀ w)
    {q le s : ℕ} (hq : q < c.numRanks) (hle : le < c.numLocalExperts) (hs : s < c.numRanks) :
    (c.Landed w 0 s (.signal (q * c.numLocalExperts + le)) →
      c.firstSignal w q le s =
        if c.fabric.path s q = .rdma then
          toInt32 (c.firstSignal w₀ q le s + c.signalValue 0 s (q * c.numLocalExperts + le))
        else c.signalValue 0 s (q * c.numLocalExperts + le)) ∧
    (¬c.Landed w 0 s (.signal (q * c.numLocalExperts + le)) →
      c.firstSignal w q le s = c.firstSignal w₀ q le s) := by
  have hcell := h q hq (le * c.numRanks + s) (hv.cell_lt hle hs)
  have hsender : c.cellSender 0 (le * c.numRanks + s) = s := by
    simp only [cellSender, hone.kind, mul_add_div_mod hs]
  have hexpert : c.cellExpert 0 q (le * c.numRanks + s) = q * c.numLocalExperts + le := by
    simp only [cellExpert, hone.kind, mul_add_div_mod hs]
  unfold landedSignal at hcell
  rw [hsender, hexpert] at hcell
  exact hcell

/-! ### Counts -/

/-- A rank that waits has sent its signals. -/
theorem signalSent_of_recving (hone : c.SingleDispatch) (hl : c.Launches w) {r e : ℕ}
    (hr : r < c.numRanks) (he : e < c.numExperts) (hrecving : (w.disp (r, 0)).recving = true) :
    c.SignalSent w 0 r e := by
  have hrun := hl.disp r hr 0 (Nat.zero_le _) hone.kind
  have hdone := (Dispatch.order_of_runs hrun).signals hrecving e he
  simp only [SignalSent, hone.kind, hdone]
  rfl

/-- Those that it has sent to itself have landed: only requests to other ranks are ever in a queue.
-/
theorem landed_own (hone : c.SingleDispatch) (hl : c.Launches w) (hq : c.Queues w) {r e : ℕ}
    (hr : r < c.numRanks) (he : e < c.numExperts) (hown : e / c.numLocalExperts = r)
    (hrecving : (w.disp (r, 0)).recving = true) : c.Landed w 0 r (.signal e) := by
  refine ⟨signalSent_of_recving hone hl hr he hrecving, fun hpending => ?_⟩
  obtain ⟨x, hx, htag⟩ := hpending
  have hpath := hq.path r _ x hx
  rw [htag] at hpath
  simp [requestExpert, hown, Fabric.path] at hpath

/-- A wait reads the value of the signal, whether it has landed or not. -/
theorem signalValue_of_acquired (hv : c.Valid) (hone : c.SingleDispatch) (hready : c.SignalReady w₀)
    (hl : c.Launches w) (hq : c.Queues w) (h : c.FirstWords w₀ w) (hen : c.enabled w a) {r e : ℕ}
    {v : ℤ} (hacq : a.acquired = some (r, e, v)) :
    v = c.signalValue 0 (e / c.numLocalExperts)
      (r * c.numLocalExperts + e % c.numLocalExperts) := by
  obtain ⟨hr, he, hne, hread⟩ := of_acquired hen hacq
  rw [hone.call_eq hl hr] at hread
  simp only [waitCell, hone.kind] at hread
  change c.firstSignal w r _ _ = v at hread
  have hs := hv.div_lt he
  have hle := hv.mod_lt e
  obtain ⟨hlanded, hbefore⟩ := h.firstSignal hv.sound hone hr hle hs
  by_cases hland : c.Landed w 0 (e / c.numLocalExperts)
      (.signal (r * c.numLocalExperts + e % c.numLocalExperts))
  · rw [← hread, hlanded hland]
    split
    · rename_i hpath
      -- The atomic has added to zero.
      obtain hown | hzero | ⟨hstored, -⟩ := hready r hr _ hle _ hs
      · rw [hown] at hpath
        simp [Fabric.path] at hpath
      · rw [hzero, zero_add, signalValue_range]
      · exact absurd hpath hstored
    · rfl
  · rw [hbefore hland] at hread
    obtain hown | hzero | ⟨-, hsame⟩ := hready r hr _ hle _ hs
    · -- A rank waits after it has signalled itself.
      have hrecving : (w.disp (r, 0)).recving = true := by
        cases Action.acquired_iff.mp hacq with
        | inl ha =>
          subst ha
          have hrecving := hen.2.2.1.1
          rwa [hone.call_eq hl hr] at hrecving
        | inr ha =>
          subst ha
          have hkind := hen.2.1
          rw [hone.call_eq hl hr, hone.kind] at hkind
          cases hkind
      have hexpert := hv.expert_lt hr hle
      rw [hown] at hland
      exact absurd (landed_own hone hl hq hr hexpert (mul_add_div_mod hle).1 hrecving) hland
    · exact absurd (hread.symm.trans hzero) hne
    · exact hread.symm.trans hsame

/-- The first `dispatch` decodes every count as it was sent, in every run from a state in which
the signal words do no harm. -/
theorem decodesCounts_of_run (hv : c.Valid) (hone : c.SingleDispatch) (h₀ : c.Allocated w₀)
    (hready : c.SignalReady w₀) (hw : (c.runsFrom w₀).Reachable w) : c.DecodesCounts w := by
  have hinit := runsFrom_allocated h₀
  have hdecoded : ∀ r < c.numRanks, ∀ e < c.numExperts,
      ((w.disp (r, 0)).recv e).hasCount = true → (w.disp (r, 0)).numRecv e = c.recvCount 0 r e := by
    refine hw.invariant (I := fun w : World A => ∀ r < c.numRanks, ∀ e < c.numExperts,
      ((w.disp (r, 0)).recv e).hasCount = true → (w.disp (r, 0)).numRecv e = c.recvCount 0 r e)
      ?_ ?_
    · rintro q rfl r _ e _ hcount
      rw [(h₀.disp _).recv] at hcount
      cases hcount
    · rintro q a q' hreach hold ⟨hen, rfl⟩ r hr e he hcount
      replace hcount : (((c.fire q a).disp (r, 0)).recv e).hasCount = true := hcount
      show ((c.fire q a).disp (r, 0)).numRecv e = _
      have hl := launches_of_run hv.sound hinit hreach
      have hcall := hone.call_eq hl hr
      by_cases hrun : ∃ b, a = .dispatch r b
      · obtain ⟨b, rfl⟩ := hrun
        have hben := hen.2.2.1
        have hself := disp_fire_self (c := c) (w := q) r b
        rw [hcall] at hben hself
        rw [hself] at hcount ⊢
        rcases Dispatch.hasCount_cases hben hcount with hbefore | ⟨v, rfl, hnum⟩ | ⟨rfl, -⟩
        · rw [(Dispatch.hasCount_mono hben hbefore).2]
          exact hold r hr e he hbefore
        · rw [hnum, signalValue_of_acquired (a := .dispatch r (.acquire e v)) hv hone hready hl
            (queues_of_run hv.sound hinit hreach)
            (firstWords_of_run hv.sound hone h₀ hreach) hen rfl]
          exact count_of_signalValue hv.sound hv.hasCall hone.kind he
        · -- Without timeouts no source is given up.
          have hactive := (hl.active hv r hr 0 (Nat.zero_le _)).1 hone.kind
          exact absurd ((hactive _).symm.trans hben.2.2) one_ne_zero
      · have hother : ∀ b, a = .dispatch r b → 0 ≠ q.call r := fun b hb => absurd ⟨b, hb⟩ hrun
        rw [(disp_pc_fire a hother).2.2.2.2] at hcount
        rw [disp_fire_of_le a (Nat.zero_le _) hother]
        exact hold r hr e he hcount
  intro q hq le hle s hs hcount
  obtain ⟨hdiv, hmod⟩ := mul_add_div_mod (a := s) hle
  rw [hdecoded q hq _ (hv.expert_lt hs hle) hcount, card_tokensFor hv.sound hv.hasCall hs,
    recvCount, hdiv, hmod]

/-! ### Runs in which a count is misread -/

/-- The ranks in `R` take steps that are no signal waits, and the network cards work. -/
def Sends (R : ℕ → Prop) : Action → Prop
  | .dispatch r b => R r ∧ b.waiter = none
  | .deliver .. => True
  | _ => False

/-- Only such steps have been taken: no signal wait has ended, and the ranks that are not in `R`
have not begun. -/
structure OnlySent (c : Config A) (w₀ : World A) (R : ℕ → Prop) (w : World A) : Prop where
  reachable : (c.runsFrom w₀).Reachable w
  waiting : ∀ r < c.numRanks, ∀ e < c.numExperts, (w.disp (r, 0)).recv e = .waiting
  idle : ∀ r < c.numRanks, ¬R r → (w.disp (r, 0)) = w₀.disp (r, 0)

/-- A step that is no wait leaves the waits alone that have not begun to be served. -/
theorem recv_fire_of_waiting {l : Launch} {s : Dispatch.State} {b : Dispatch.Action}
    (hben : Dispatch.enabled l s b) (hwait : b.waiter = none)
    (hwaiting : ∀ e < l.numExperts, s.recv e = .waiting) :
    (Dispatch.fire l s b).recv = s.recv := by
  cases b with
  | acquire | miss | expire | giveUp | retry => cases hwait
  | claim e =>
    have hgot := hben.2
    rw [hwaiting e hben.1] at hgot
    cases hgot
  | publish e =>
    have hclaimed := hben.2
    rw [hwaiting e hben.1] at hclaimed
    cases hclaimed
  | _ => rfl

/-- Such a step keeps the waits open, and leaves less to do. -/
theorem OnlySent.fire (hv : c.Sound) (hone : c.SingleDispatch) (h₀ : c.Allocated w₀)
    {R : ℕ → Prop} (h : c.OnlySent w₀ R w) (ha : Sends R a) (hen : c.enabled w a) :
    c.OnlySent w₀ R (c.fire w a) ∧ c.workLeft (c.fire w a) < c.workLeft w := by
  have hinit := runsFrom_allocated h₀
  have hl := launches_of_run hv hinit h.reachable
  have hq := queues_of_run hv hinit h.reachable
  have hreach := runsFrom_fire h.reachable hen
  -- A step of one rank, which must be among the senders and does not wait.
  cases a with
  | dispatch p b =>
    obtain ⟨hR, hwait⟩ := ha
    have hp := hen.1
    have hcall := hone.call_eq hl hp
    have hben := hen.2.2.1
    rw [hcall] at hben
    have hdisp : (c.fire w (.dispatch p b)).disp = Function.update w.disp (p, w.call p)
        (Dispatch.fire (c.launch p (w.call p)) (w.disp (p, w.call p)) b) := disp_fire ..
    rw [hcall] at hdisp
    refine ⟨⟨hreach, fun r hr e he => ?_, fun r hr hnot => ?_⟩, ?_⟩
    · -- The receiving side of this rank stays where it is.
      by_cases hrp : r = p
      · subst hrp
        rw [hdisp, Function.update_self, recv_fire_of_waiting hben hwait (h.waiting r hr)]
        exact h.waiting r hr e he
      · -- No other rank has moved.
        have hne : (r, 0) ≠ (p, 0) := fun heq => hrp (Prod.mk.inj heq).1
        rw [hdisp, Function.update_of_ne hne]
        exact h.waiting r hr e he
    · have hne : (r, 0) ≠ (p, 0) := by
        intro heq
        obtain ⟨rfl, -⟩ := Prod.mk.inj heq
        exact hnot hR
      rw [hdisp, Function.update_of_ne hne]
      exact h.idle r hr hnot
    · refine workLeft_fire_lt (r := p) hv hl hen (.inl ⟨b, rfl, ?_⟩)
      cases b with
      | acquire | miss | expire | giveUp | retry => cases hwait
      | _ => rfl
  | deliver p ctx =>
    -- A delivery changes no rank's position.
    have hdisp : (c.fire w (.deliver p ctx)).disp = w.disp := disp_fire ..
    refine ⟨⟨hreach, fun r hr e he => ?_, fun r hr hnot => ?_⟩, workLeft_fire_deliver hv hl hq hen⟩
    · rw [hdisp]
      exact h.waiting r hr e he
    · rw [hdisp]
      exact h.idle r hr hnot
  | combine | advance => cases ha

/-- The ranks in `R` can all come to their signal waits, with nothing left in a queue, while the
others have not begun. -/
theorem exists_onlySent (hv : c.Valid) (hone : c.SingleDispatch) (hblocks : c.TwoBlocks)
    (h₀ : c.Allocated w₀) (R : ℕ → Prop) :
    ∃ w, c.OnlySent w₀ R w ∧ (∀ r < c.numRanks, R r → (w.disp (r, 0)).recving = true) ∧
      ∀ p, w.nic p = [] := by
  have hinit : (c.runsFrom w₀).Reachable w₀ := .init rfl
  have hstart : c.OnlySent w₀ R w₀ :=
    ⟨hinit, fun r _ e _ => (h₀.disp (r, 0)).recv e, fun _ _ _ => rfl⟩
  -- Without the waits every run comes to an end, where nothing more can be sent.
  obtain ⟨w, -, h, hstuck⟩ := Machine.exists_stuck (M := c.machine) (A := Sends R)
    c.workLeft (fun s a hs ha hen => hs.fire hv.sound hone h₀ ha hen) hinit hstart
  have hl := launches_of_run hv.sound (runsFrom_allocated h₀) h.reachable
  refine ⟨w, h, fun r hr hR => ?_, fun p => ?_⟩
  · -- A sender that is not yet receiving would have one more step.
    have hcall := hone.call_eq hl hr
    have hrun := hl.disp r hr 0 (Nat.zero_le _) hone.kind
    have hdone : ¬(w.disp (r, 0)).Done (c.launch r 0) := by
      intro hdone
      have hready := hdone.ready 0 hv.numExperts_pos
      rw [h.waiting r hr 0 hv.numExperts_pos] at hready
      cases hready
    obtain ⟨b, hwait, hben⟩ | ⟨hrecving, -⟩ :=
      Dispatch.exists_work (hv.sound.fits hv.hasCall hr) (hblocks 0 hv.hasCall hone.kind) hrun hdone
    · have hkind : (c.calls (w.call r)).kind = .dispatch := by rw [hcall, hone.kind]
      have hben' : Dispatch.enabled (c.launch r (w.call r)) (w.disp (r, w.call r)) b := by
        rwa [hcall]
      exact absurd (enabled_dispatch hr hkind hwait hben').1 (hstuck (.dispatch r b) ⟨hR, hwait⟩)
    · exact hrecving
  · -- A queue that is not empty would have one more delivery.
    by_contra hne
    exact hstuck (.deliver p.1 p.2) trivial hne

/-- The signal of another rank is the number of its tokens, and doubling it does not wrap. -/
theorem signalValue_of_ne (hv : c.Valid) (hone : c.SingleDispatch) {q le s : ℕ}
    (hq : q < c.numRanks) (hle : le < c.numLocalExperts) (hs : s < c.numRanks) (hne : s ≠ q) :
    c.signalValue 0 s (q * c.numLocalExperts + le) =
        -(((c.launch s 0).tokensFor (q * c.numLocalExperts + le)).card : ℤ) - 1 ∧
      ((c.launch s 0).tokensFor (q * c.numLocalExperts + le)).card < 2 ^ 30 := by
  have hexperts : 2 ≤ c.numExperts := by
    have hdvd := Nat.le_of_dvd hv.numExperts_pos hv.dvd
    omega
  have hcount : ((c.launch s 0).tokensFor (q * c.numLocalExperts + le)).card ≤
      c.numMaxDispatchTokensPerRank := by
    have hexpert := hv.expert_lt hs hle
    obtain ⟨hdiv, hmod⟩ := mul_add_div_mod (a := s) hle
    have hrecv := recvCount_le hv.sound hv.hasCall hexpert (r := q)
    rwa [recvCount, hdiv, hmod, ← card_tokensFor hv.sound hv.hasCall hs] at hrecv
  have hrows := hv.rows_lt
  have hmul := Nat.mul_le_mul_right c.numMaxDispatchTokensPerRank hexperts
  refine ⟨?_, by omega⟩
  rw [signalValue, hone.kind]
  show toInt32 (-((c.launch s 0).numTokensSent (q * c.numLocalExperts + le) : ℤ) - 1) = _
  rw [← card_tokensFor hv.sound hv.hasCall hs]
  exact toInt32_of_range (by omega) (by omega)

/-- A rank that stands at its waits can end one with what is in the signal word, so in a run that
decodes every count the word is zero or the signal. -/
theorem firstSignal_of_decodes (hv : c.Valid) (hone : c.SingleDispatch)
    (hdecodes : ∀ w, (c.runsFrom w₀).Reachable w → c.DecodesCounts w) (h₀ : c.Allocated w₀)
    {R : ℕ → Prop} (h : c.OnlySent w₀ R w) {q le s : ℕ} (hq : q < c.numRanks)
    (hle : le < c.numLocalExperts) (hs : s < c.numRanks) (hsq : s ≠ q)
    (hrecving : (w.disp (q, 0)).recving = true)
    (hint : toInt32 (c.firstSignal w q le s) = c.firstSignal w q le s)
    (hne : c.firstSignal w q le s ≠ 0) :
    c.firstSignal w q le s = c.signalValue 0 s (q * c.numLocalExperts + le) := by
  have hl := launches_of_run hv.sound (runsFrom_allocated h₀) h.reachable
  have hcall := hone.call_eq hl hq
  have hexpert := hv.expert_lt hs hle
  obtain ⟨hdiv, hmod⟩ := mul_add_div_mod (a := s) hle
  have hen : c.enabled w
      (.dispatch q (.acquire (s * c.numLocalExperts + le) (c.firstSignal w q le s))) := by
    refine ⟨hq, by rw [hcall, hone.kind], ?_, ?_⟩
    · rw [hcall]
      exact ⟨hrecving, hexpert, h.waiting q hq _ hexpert, hne⟩
    · intro x hx
      cases hx
      simp only [dispatchWait, hcall, hdiv, hmod]
      rfl
  have hcount := hdecodes _ (runsFrom_fire h.reachable hen) q hq le hle s hs
  have hdisp := disp_fire_self (c := c) (w := w) q
    (.acquire (s * c.numLocalExperts + le) (c.firstSignal w q le s))
  rw [hcall] at hdisp
  rw [hdisp] at hcount
  simp only [Dispatch.fire, Function.update_self] at hcount
  have hvalue := hcount rfl
  -- What was decoded determines what was read.
  have hlo := le_toInt32 (c.firstSignal w q le s)
  have hhi := toInt32_lt (c.firstSignal w q le s)
  rw [hint] at hlo hhi
  rw [toInt32_of_range (by omega) (by omega)] at hvalue
  rw [(signalValue_of_ne hv hone hq hle hs hsq).1]
  omega

/-- If every run decodes every count, the signal words do no harm. -/
theorem signalReady_of_decodes (hv : c.Valid) (hone : c.SingleDispatch) (hblocks : c.TwoBlocks)
    (h₀ : c.Allocated w₀) (hint : c.IntSignals w₀)
    (hdecodes : ∀ w, (c.runsFrom w₀).Reachable w → c.DecodesCounts w) : c.SignalReady w₀ := by
  intro q hq le hle s hs
  by_cases hsq : s = q
  · exact .inl hsq
  refine .inr ?_
  by_cases hzero : c.firstSignal w₀ q le s = 0
  · exact .inl hzero
  refine .inr ?_
  obtain ⟨hvalue, hcount⟩ := signalValue_of_ne hv hone hq hle hs hsq
  -- Before the source has begun, rank `q` reads what was there at first.
  have hsame : c.firstSignal w₀ q le s = c.signalValue 0 s (q * c.numLocalExperts + le) := by
    obtain ⟨w, h, hrecving, -⟩ := exists_onlySent hv hone hblocks h₀ (· = q)
    have hnot : ¬c.Landed w 0 s (.signal (q * c.numLocalExperts + le)) := by
      intro hland
      have hsent : c.SignalSent w 0 s (q * c.numLocalExperts + le) := hland.1
      simp [SignalSent, hone.kind, h.idle s hs hsq, (h₀.disp _).signal,
        Dispatch.SignalPc.isSent] at hsent
    have hword := ((firstWords_of_run hv.sound hone h₀ h.reachable).firstSignal hv.sound hone hq hle
      hs).2 hnot
    have hread := firstSignal_of_decodes hv hone hdecodes h₀ h hq hle hs hsq (hrecving q hq rfl)
    rw [hword] at hread
    exact hread (hint q hq le hle s hs) hzero
  refine ⟨fun hpath => ?_, hsame⟩
  -- After the atomic has been executed, it reads twice the value.
  obtain ⟨w, h, hrecving, hnic⟩ := exists_onlySent hv hone hblocks h₀ fun _ => True
  have hland : c.Landed w 0 s (.signal (q * c.numLocalExperts + le)) := by
    have hl := launches_of_run hv.sound (runsFrom_allocated h₀) h.reachable
    refine ⟨signalSent_of_recving hone hl hs (hv.expert_lt hq hle) (hrecving s hs trivial),
      fun hpending => ?_⟩
    obtain ⟨x, hx, -⟩ := hpending
    rw [hnic] at hx
    cases hx
  have hword := ((firstWords_of_run hv.sound hone h₀ h.reachable).firstSignal hv.sound hone hq hle
    hs).1 hland
  rw [if_pos hpath, hsame, hvalue, toInt32_of_range (by omega) (by omega)] at hword
  have hread := firstSignal_of_decodes hv hone hdecodes h₀ h hq hle hs hsq (hrecving q hq trivial)
    (by rw [hword]; exact toInt32_of_range (by omega) (by omega)) (by rw [hword]; omega)
  rw [hword, hvalue] at hread
  omega

/-- The first `dispatch` decodes every count as it was sent, in every run from a state in which the
signal words do no harm. Otherwise, if the kernel passes its assertion on the number of blocks, some
run decodes a count that was not sent. -/
theorem first_use_decodes_iff (c : Config A) (hv : c.Valid) (hone : c.SingleDispatch) (w₀ : World A)
    (h₀ : c.Allocated w₀) :
    (c.SignalReady w₀ → ∀ w, (c.runsFrom w₀).Reachable w → c.DecodesCounts w) ∧
      (c.TwoBlocks → c.IntSignals w₀ →
        (∀ w, (c.runsFrom w₀).Reachable w → c.DecodesCounts w) → c.SignalReady w₀) :=
  ⟨fun hready _ hw => decodesCounts_of_run hv hone h₀ hready hw,
    fun hblocks hint hdecodes => signalReady_of_decodes hv hone hblocks h₀ hint hdecodes⟩

/-! ### Two ranks -/

/-- The ranks of `twoRanks` after an allocation that left `v` in the signal words for which `P`
holds. -/
def leftover (P : Ptr → Bool) (v : ℤ) : World ℕ :=
  { blank with sig := fun _ p => if P p then v else 0 }

/-- It is a state after the constructors, whatever is left over in the signal words. -/
theorem leftover_allocated {c : Config ℕ} (hzero : c.zero = 0) (P : Ptr → Bool) (v : ℤ) :
    c.Allocated (leftover P v) :=
  { (init_blank hzero).allocated with }

/-- The ranks reach each other over NVLink. The word that rank 0 signals for its token to rank 1
already holds -2, and rank 1 reads it before rank 0 has begun. -/
theorem first_use_decodes_twoRanks :
    let c := (twoRanks (some 1) (fun _ => 0) fun _ => 1).withNvlink fun _ _ => true
    c.DecodesCounts (c.machine.exec (leftover (fun p => p == c.fabric.recvSignal 0 1 4) (-2))
      (sendPhase 1 false ++ [.dispatch 1 (.acquire 2 (-2))])) := by
  intro c
  have hready : c.SignalReady (leftover (fun p => p == c.fabric.recvSignal 0 1 4) (-2)) := by
    decide +kernel
  have hlegal : c.machine.Legal (leftover (fun p => p == c.fabric.recvSignal 0 1 4) (-2))
      (sendPhase 1 false ++ [.dispatch 1 (.acquire 2 (-2))]) := by decide +kernel
  exact (first_use_decodes_iff c ((twoRanks_valid (by simp) _ _).withNvlink _)
    ⟨rfl, rfl, by decide⟩ _ (leftover_allocated rfl _ _)).1 hready _
    (Machine.reachable_exec _ (.init rfl) hlegal)

/-- The allocation left -3 in the signal words. Rank 1 takes this for the signal of rank 0, which
has one token for local expert 2 and has not sent anything yet, and decodes two tokens. -/
theorem first_use_misread :
    let c := twoRanks (some 1) (fun _ => 0) fun _ => 1
    c.Valid ∧ c.SingleDispatch ∧ c.Allocated (leftover (fun _ => true) (-3)) ∧
      ∃ w, (c.runsFrom (leftover (fun _ => true) (-3))).Reachable w ∧ ¬c.DecodesCounts w := by
  intro c
  have hlegal : c.machine.Legal (leftover (fun _ => true) (-3))
      (sendPhase 1 false ++ [.dispatch 1 (.acquire 2 (-3))]) := by decide +kernel
  refine ⟨twoRanks_valid (by simp) _ _, ⟨rfl, rfl, by decide⟩, leftover_allocated rfl _ _, _,
    Machine.reachable_exec _ (.init rfl) hlegal, fun hdecodes => ?_⟩
  have hcount := hdecodes 1 (by decide) 2 (by decide) 0 (by decide) (by decide +kernel)
  revert hcount
  decide +kernel

end EpDemo.System.Config
