import EpDemo.Proofs.System.DispatchDelivers

/-!
# `EpDemo.Proofs.System.LateSignals`: signals that arrive after their receiver gave up

With timeouts a rank may leave a call before the signal of a peer has landed. The signal is then
still on its way, and the entry that it is for is cleaned one call later and used again two calls
later. `SignalOnTime` says where a signal does no harm: in an entry whose wait has ended, in one
that is still to be cleaned, and in the one of the call that it was sent for. `Punctual` adds what
is asked of messages (`OnTime`).

Then every wait is ended by the signal of its own call (`separate_of_punctual`). So every count that
a `dispatch` decodes is the one that the source sent in the same call, or zero (`CountsSent`), and
every row that it then copies is one of the source (`RowsSent`). `late_signal_misread` is a run in
which a signal lands one call late.
-/

set_option autoImplicit false

namespace EpDemo.System.Config

open EpDemo.Kernel EpDemo.Library

variable {A : Type} {c : Config A} {w₀ w : World A} {a : Action}

/-- A signal that lands is for the call that its entry is in use for, or its receiver does not
read the entry any more before cleaning it. -/
def SignalOnTime (c : Config A) (w : World A) (a : Action) : Prop :=
  ∀ m r e, c.SignalLanding w a m r e →
    let d := e / c.numLocalExperts
    let i := c.sendCell m r e
    ((c.calls m).buf = (c.calls (w.call d)).buf →
      m = w.call d ∨ c.Taken w (w.call d) d (c.waiter (w.call d) i)) ∧
    ((c.calls m).buf ≠ (c.calls (w.call d)).buf → c.Cleaned w (w.call d) d i → m = w.call d + 1)

/-- The step lets nothing land where the receiver takes it for something else. -/
structure Punctual (c : Config A) (w : World A) (a : Action) : Prop extends c.OnTime w a where
  signal : c.SignalOnTime w a

/-- The runs of punctual steps. -/
def punctual (c : Config A) : TransitionSystem (World A) Action := c.system.restrict c.Punctual

/-! ### Waits and barriers with timeouts -/

/-- A signal wait that has ended does not wait again. -/
theorem taken_mono (hen : c.enabled w a) {m r e : ℕ} (h : c.Taken w m r e) :
    c.Taken (c.fire w a) m r e := by
  unfold Taken at h ⊢
  -- A wait that has taken its signal does not begin again.
  cases hkind : (c.calls m).kind with
  | dispatch =>
    simp only [hkind] at h
    by_cases hrun : ∃ b, a = .dispatch r b ∧ m = w.call r
    · obtain ⟨b, rfl, rfl⟩ := hrun
      show (((c.fire w (.dispatch r b)).disp (r, w.call r)).recv e).hasCount = true
      rw [disp_fire_self]
      exact (Dispatch.hasCount_mono hen.2.2.1 h).1
    · show (((c.fire w a).disp (r, m)).recv e).hasCount = true
      rw [(disp_pc_fire a fun b hb hm => hrun ⟨b, hb, hm⟩).2.2.2.2]
      exact h
  | combine =>
    simp only [hkind] at h
    by_cases hrun : ∃ b, a = .combine r b ∧ m = w.call r
    · obtain ⟨b, rfl, rfl⟩ := hrun
      show ((c.fire w (.combine r b)).comb (r, w.call r)).recv e = .passed
      rw [comb_fire_self]
      exact Combine.recv_passed_mono hen.2.2.1 h
    · show ((c.fire w a).comb (r, m)).recv e = .passed
      rw [(comb_pc_fire a fun b hb hm => hrun ⟨b, hb, hm⟩).2.2.2]
      exact h

/-- A kernel that has finished has issued its signals. -/
theorem Launches.signalSent_of_done (hl : c.Launches w) {r : ℕ} (hr : r < c.numRanks)
    (hdone : c.KernelDone w r) {e : ℕ} (he : e < c.numExperts) :
    c.SignalSent w (w.call r) r e := by
  unfold SignalSent
  cases hkind : (c.calls (w.call r)).kind with
  | dispatch =>
    have hsignals := (Dispatch.order_of_runs (hl.disp r hr _ le_rfl hkind)).signals
      (hdone.1 hkind).recving e he
    show ((w.disp (r, w.call r)).signal e).isSent = true
    rw [hsignals]
    rfl
  | combine =>
    have hsend := (Combine.order_of_runs (hl.comb r hr _ le_rfl hkind)).sendDone (hdone.2 hkind).1
    show ((w.comb (r, w.call r)).signal e).isSent = true
    rw [hsend.2 e he]
    rfl

/-- A kernel that has finished has cleaned `next_clean_buffer`. -/
theorem Launches.cleaned_of_done (hv : c.Sound) (hl : c.Launches w) {r : ℕ} (hr : r < c.numRanks)
    (hdone : c.KernelDone w r) {i : ℕ} (hi : i < c.numExperts) : c.Cleaned w (w.call r) r i := by
  have hpos := (Nat.zero_le i).trans_lt hi
  exact (hl.of_signalSent hv hr hpos (hl.signalSent_of_done hr hdone hpos)).2.1 i hi

/-- A call that a rank has not reached has cleaned nothing. -/
theorem Launches.not_cleaned (hl : c.Launches w) {r m : ℕ} (hr : r < c.numRanks)
    (hm : w.call r < m) {i : ℕ} : ¬c.Cleaned w m r i := by
  obtain ⟨hdisp, hcomb⟩ := hl.future r hr m hm
  unfold Cleaned
  cases (c.calls m).kind with
  | dispatch => simp [hdisp.cleaned]
  | combine => simp [hcomb.cleaned]

/-! ### The signals in an entry -/

/-- The signals in the entries of rank `d`: none twice, in an entry that is waited for only those
of the current call, and in one that was cleaned only those of the next call. -/
structure Entries (c : Config A) (w : World A) (d : ℕ) : Prop where
  nodup : ∀ b, ∀ i < c.numExperts, ((w.sigFrom b (c.fabric.recvSignal b d i)).map Prod.fst).Nodup
  current : ∀ i < c.numExperts, ∀ x ∈ w.sigFrom (c.calls (w.call d)).buf
      (c.fabric.recvSignal (c.calls (w.call d)).buf d i),
    x.1 = w.call d ∨ c.Taken w (w.call d) d (c.waiter (w.call d) i)
  next : ∀ i < c.numExperts, c.Cleaned w (w.call d) d i →
    ∀ x ∈ w.sigFrom (c.calls (w.call d)).clean (c.fabric.recvSignal (c.calls (w.call d)).clean d i),
      x.1 = w.call d + 1

/-- There are no signals before the first call. -/
theorem Entries.of_init (hw : c.Init w) (d : ℕ) : c.Entries w d := by
  constructor
  · intro b i _
    rw [hw.sigFrom]
    exact List.nodup_nil
  · intro i _ x hx
    rw [hw.sigFrom] at hx
    cases hx
  · intro i _ _ x hx
    rw [hw.sigFrom] at hx
    cases hx

/-- The two buffers take turns: call `k` uses buffer `k % 2` and cleans the receive signals of the
other one. -/
structure TakesTurns (c : Config A) : Prop where
  buf : ∀ k, (c.calls k).buf = k % 2
  clean : ∀ k, (c.calls k).clean = (k + 1) % 2

/-- A call cleans the buffer of the next one. -/
theorem TakesTurns.clean_eq (h : c.TakesTurns) (k : ℕ) :
    (c.calls k).clean = (c.calls (k + 1)).buf := by
  rw [h.clean, h.buf]

/-- A call does not clean its own buffer. -/
theorem TakesTurns.clean_ne (h : c.TakesTurns) (k : ℕ) : (c.calls k).clean ≠ (c.calls k).buf := by
  rw [h.clean, h.buf]
  omega

/-- The entries stay in order when their owner goes to its next call. -/
theorem Entries.advance (hv : c.Sound) (hturn : c.TakesTurns) (hl : c.Launches w) {d : ℕ}
    (h : c.Entries w d) (hen : c.enabled w (.advance d)) :
    c.Entries (c.fire w (.advance d)) d := by
  obtain ⟨hd, -, hdone⟩ := id hen
  have hcall : (c.fire w (.advance d)).call d = w.call d + 1 := by
    rw [call_fire]
    exact Function.update_self ..
  refine ⟨h.nodup, fun i hi x hx => .inl ?_, fun i hi hclean => ?_⟩
  · rw [hcall, ← hturn.clean_eq] at hx
    rw [hcall]
    exact h.next i hi (hl.cleaned_of_done hv hd hdone hi) x hx
  · rw [hcall, cleaned_fire hen] at hclean
    cases hclean with
    | inl hold => exact absurd hold (hl.not_cleaned hd (Nat.lt_succ_self _))
    | inr hnew => cases hnew.1

/-- The entries stay in order within a call, when the signals that land are on time. -/
theorem Entries.fire_of_call_eq (hv : c.Sound) (hturn : c.TakesTurns) (hl : c.Launches w)
    (hq : c.Queues w) (hs : c.Signals w) {d : ℕ} (hd : d < c.numRanks) (h : c.Entries w d)
    (hon : c.SignalOnTime w a) (hen : c.enabled w a) (hcall : (c.fire w a).call d = w.call d) :
    c.Entries (c.fire w a) d := by
  have hold : ∀ i < c.numExperts, ∀ x ∈ w.sigFrom (c.calls (w.call d)).buf
      (c.fabric.recvSignal (c.calls (w.call d)).buf d i),
      x.1 = w.call d ∨ c.Taken (c.fire w a) (w.call d) d (c.waiter (w.call d) i) :=
    fun i hi x hx => (h.current i hi x hx).imp_right (taken_mono hen)
  rcases signal_cases hv hl hq hen with hquiet | ⟨r, j, hclean, -⟩ | ⟨m, r, e, hland⟩
  · refine ⟨by simpa only [hquiet.sigFrom] using h.nodup, ?_, ?_⟩
    · rw [hcall, hquiet.sigFrom]
      exact hold
    · intro i hi hcleaned
      rw [hcall, cleaned_fire hen, hquiet.cleaned] at hcleaned
      rw [hcall, hquiet.sigFrom]
      exact h.next i hi (hcleaned.resolve_right fun hnew => by cases hnew.1)
  · refine ⟨fun b i hi => ?_, ?_, ?_⟩
    · rw [(sig_fire_cleaned hclean _ _).2]
      split
      · exact List.nodup_nil
      · exact h.nodup b i hi
    · rw [hcall]
      exact fun i hi x hx => hold i hi x (Signals.mem_fire_cleaned hclean hx)
    · intro i hi hcleaned x hx
      rw [hcall] at hcleaned hx ⊢
      cases (cleaned_fire hen _ _ _).mp hcleaned with
      | inl hcleaned => exact h.next i hi hcleaned x (Signals.mem_fire_cleaned hclean hx)
      | inr hnew =>
        -- The entry is cleaned by this step.
        obtain ⟨hnew, -⟩ := hnew
        rw [hclean] at hnew
        cases hnew
        rw [(sig_fire_cleaned hclean _ _).2, if_pos ⟨rfl, rfl⟩] at hx
        cases hx
  · have hnew : ∀ i < c.numExperts, c.cellSender m i = r → c.cellExpert m d i = e →
        d = e / c.numLocalExperts ∧ i = c.sendCell m r e := fun i hi hsender hexpert =>
      (cell_eq_iff hv hi hland.rank).mp ⟨hsender, hexpert⟩
    refine ⟨fun b i hi => ?_, ?_, ?_⟩
    · cases hland.how with
      | inl hstore =>
        rw [(hstore.2 _ _).2]
        split
        · exact List.nodup_singleton _
        · exact h.nodup b i hi
      | inr hadd =>
        rw [(hadd.2 _ _).2]
        split
        · rename_i hword
          refine List.nodup_cons.mpr ⟨fun hmem => ?_, h.nodup b i hi⟩
          -- Everything in the entry has landed, and this signal had not.
          obtain ⟨x, hx, hxm⟩ := List.mem_map.mp hmem
          have hlanded := (hs.landed b d hd i hi x hx).2
          obtain ⟨hsender, hexpert⟩ := Signals.cell_of_signalDst hv hland.rank hword
          rw [hxm, hsender, hexpert] at hlanded
          exact hland.notLanded hlanded
        · exact h.nodup b i hi
    · intro i hi x hx
      rw [hcall] at hx ⊢
      cases Signals.mem_fire hv hland hx with
      | inl hx => exact hold i hi x hx
      | inr hx =>
        obtain ⟨rfl, hb, hsender, hexpert⟩ := hx
        obtain ⟨rfl, rfl⟩ := hnew i hi hsender hexpert
        exact ((hon m r e hland).1 hb.symm).imp_right (taken_mono hen)
    · intro i hi hcleaned x hx
      rw [hcall] at hcleaned hx ⊢
      rw [cleaned_fire hen, hland.cleaned] at hcleaned
      replace hcleaned := hcleaned.resolve_right fun hnew => by cases hnew.1
      cases Signals.mem_fire hv hland hx with
      | inl hx => exact h.next i hi hcleaned x hx
      | inr hx =>
        obtain ⟨rfl, hb, hsender, hexpert⟩ := hx
        obtain ⟨rfl, rfl⟩ := hnew i hi hsender hexpert
        exact (hon m r e hland).2 (hb ▸ hturn.clean_ne _) hcleaned

/-- The entries are in order in every punctual run. -/
theorem entries_of_punctual (hv : c.Sound) (hturn : c.TakesTurns) (h : c.punctual.Reachable w) :
    ∀ d < c.numRanks, c.Entries w d := by
  refine h.invariant (I := fun w => ∀ d < c.numRanks, c.Entries w d)
    (fun q hq d _ => .of_init hq d) ?_
  rintro q a q' hreach hold ⟨hon, hen, rfl⟩ d hd
  have hreach := hreach.of_restrict
  have hl := launches_of_reachable hv hreach
  by_cases hadv : a = .advance d
  · subst hadv
    exact (hold d hd).advance hv hturn hl hen
  · refine (hold d hd).fire_of_call_eq hv hturn hl (queues_of_reachable hv hreach)
      (signals_of_reachable hv hreach) hd hon.signal hen ?_
    rw [call_fire]
    cases a with
    | advance r => exact Function.update_of_ne (fun heq => hadv (by rw [heq])) ..
    | _ => rfl

/-- A wait that reads a signal reads the one of its call, and no other. -/
theorem Entries.sigFrom_of_acquired (hv : c.Sound) (hl : c.Launches w) (hs : c.Signals w)
    (hen : c.enabled w a) {r e : ℕ} {v : ℤ} (hacq : a.acquired = some (r, e, v))
    (h : c.Entries w r) :
    (w.sigFrom (c.calls (w.call r)).buf
      (c.fabric.recvSignal (c.calls (w.call r)).buf r (c.waitCell (w.call r) e))).map Prod.fst =
        [w.call r] := by
  obtain ⟨hr, he, hne, hread⟩ := Config.of_acquired hen hacq
  have hi := waitCell_lt hv he (m := w.call r)
  have hnot : ¬c.Taken w (w.call r) r e := by
    unfold Taken
    cases Action.acquired_iff.mp hacq with
    | inl ha =>
      subst ha
      obtain ⟨-, hkind, ⟨-, -, hwait, -⟩, -⟩ := hen
      simp only [hkind, hwait]
      decide
    | inr ha =>
      subst ha
      obtain ⟨-, hkind, ⟨-, hwait, -⟩, -⟩ := hen
      simp only [hkind, hwait]
      decide
  have hword := hs.word _ (hl.hasCall r hr) r hr _ hi
  rw [hread] at hword
  have hcall : ∀ x ∈ w.sigFrom (c.calls (w.call r)).buf
      (c.fabric.recvSignal (c.calls (w.call r)).buf r (c.waitCell (w.call r) e)),
      x.1 = w.call r := by
    intro x hx
    have hcur := h.current _ hi x hx
    rw [waiter_waitCell hv he] at hcur
    exact hcur.resolve_right hnot
  have hnodup := h.nodup (c.calls (w.call r)).buf _ hi
  generalize w.sigFrom (c.calls (w.call r)).buf
    (c.fabric.recvSignal (c.calls (w.call r)).buf r (c.waitCell (w.call r) e)) = list
    at hword hcall hnodup
  match list with
  | [] => exact absurd hword hne
  | [x] => rw [List.map_singleton, hcall x (List.mem_singleton_self x)]
  | x :: y :: _ =>
    -- Two signals would be the same one twice.
    have hx := hcall x List.mem_cons_self
    have hy := hcall y (List.mem_cons_of_mem _ List.mem_cons_self)
    simp [hx, hy] at hnodup

/-- Punctual runs are separate. -/
theorem separate_of_punctual (hv : c.Sound) (hturn : c.TakesTurns) (h : c.punctual.Reachable w) :
    c.separate.Reachable w := by
  refine h.mono (T := c.punctual) (U := c.separate) (fun _ hw => hw) ?_
  rintro q a q' hr ⟨hon, hen, rfl⟩
  have hreach := hr.of_restrict
  refine ⟨⟨hon.toOnTime, fun r e v hacq => ?_⟩, hen, rfl⟩
  have hfrom := (entries_of_punctual hv hturn hr r (of_acquired hen hacq).1).sigFrom_of_acquired hv
    (launches_of_reachable hv hreach) (signals_of_reachable hv hreach) hen hacq
  rw [hfrom]
  exact ⟨List.mem_singleton_self _, fun _ => rfl⟩

/-! ### Late signals -/

/-- Every count that a `dispatch` has decoded for a source is the number of tokens that the source
has for the local expert in the same call, or zero. -/
def CountsSent (c : Config A) (w : World A) : Prop :=
  ∀ d < c.numRanks, ∀ m, (c.calls m).kind = .dispatch → ∀ le < c.numLocalExperts,
    ∀ s < c.numRanks,
    ((w.disp (d, m)).recv (s * c.numLocalExperts + le)).hasCount = true →
      (w.disp (d, m)).numRecv (s * c.numLocalExperts + le) =
          ((c.launch s m).tokensFor (d * c.numLocalExperts + le)).card ∨
        (w.disp (d, m)).numRecv (s * c.numLocalExperts + le) = 0

/-- Message slot `i` of source `s` for local expert `le` of rank `d` holds the message that the
source sent to this slot in call `m`: the token, and the words that it packed for it. -/
def SlotHolds (c : Config A) (w : World A) (d m le s i : ℕ) : Prop :=
  ∃ key ∈ (c.launch s m).tasks (d * c.numLocalExperts + le), (w.disp (s, m)).slot key = i ∧
    ∀ j < c.shape.numBytesPerMsg / 4, (c.shape.stagingThread j).isSome = true →
      w.data (c.calls m).buf
          ((c.fabric.recvData (c.calls m).buf d (c.messageOffset le s i)).add (4 * j)) =
        if j = 0 then BitVec.ofInt 32 key.1 else ((c.calls m).input s).packed key.1 j

/-- Every row that a `dispatch` can copy next is one that its source sent in the same call. -/
def RowsSent (c : Config A) (w : World A) : Prop :=
  ∀ d e i, c.enabled w (.dispatch d (.copyRow e i)) →
    c.SlotHolds w d (w.call d) (e % c.numLocalExperts) (e / c.numLocalExperts) i

/-- Where groups have decoded what their sources sent, the counts are the numbers of tokens or
zero. -/
theorem Settled.countsSent (hv : c.Sound) (hl : c.Launches w) (h : c.Settled w) :
    c.CountsSent w := by
  intro d hd m hkind le hle s hs hcount
  obtain ⟨hdiv, hmod⟩ := mul_add_div_mod (a := s) hle
  have hm := hl.le_of_hasCount hd hcount
  refine (h d hd m hkind _ (hv.expert_lt hs hle) hcount).imp (fun hnum => ?_) And.left
  rw [hnum.1, card_tokensFor hv ((hl.hasCall d hd).of_le hm) hs, recvCount, hdiv, hmod]

/-- The rows that a group copies have landed and are intact. -/
theorem Facts.rowsSent (hf : c.Facts w)
    (hintact : c.Intact (fun m => (c.calls m).kind = .dispatch) w₀ w) : c.RowsSent w := by
  rintro d e i ⟨hd, hkind, ⟨he, hready, hi, -⟩, -⟩
  have hv := hf.sound
  rw [(hf.claims d hd _ hkind).numRecv e (by rw [hready]; rfl)] at hi
  obtain ⟨key, hkey, hslot, hland⟩ := hf.settled.exists_landed hv hf.launches hf.queues hd hkind he
    (by exact_mod_cast hi)
  have hdst := dataExpert_of_mem hkind hkey
  have hmessage : c.HasMessage w₀ w (w.call d) (e / c.numLocalExperts) key := by
    refine hintact _ hkind _ (hv.div_lt he) key hland ?_
    rw [hdst, (mul_add_div_mod (hv.mod_lt e)).1]
  exact ⟨key, hkey, hslot, fun j hj hstaged =>
    hmessage.word hv hkind hdst hslot hj (Option.isSome_iff_exists.mp hstaged)⟩

/-- In punctual runs no late signal is misread. -/
theorem late_signals_not_misread (c : Config A) (hv : c.Sound) (hturn : c.TakesTurns) (w : World A)
    (hw : c.punctual.Reachable w) : c.CountsSent w ∧ c.RowsSent w := by
  have hsep := separate_of_punctual hv hturn hw
  have hf := facts_of_separate hv hsep
  obtain ⟨w₀, hw₀, hfrom⟩ := hsep.exists_startingAt
  exact ⟨hf.settled.countsSent hv hf.launches,
    hf.rowsSent (intact_dispatch hv hw₀ (onTime_of_separate hfrom))⟩

/-! ### The first call -/

/-- Every rank is in its first call. -/
def FirstCall (c : Config A) (w : World A) (_ : Action) : Prop := ∀ r < c.numRanks, w.call r = 0

instance (w : World A) (a : Action) : Decidable (c.FirstCall w a) :=
  inferInstanceAs (Decidable (∀ r < c.numRanks, _))

/-- While every rank is in its first call, nothing can be late. -/
theorem punctual_of_first (hv : c.Sound) (h : (c.system.restrict c.FirstCall).Reachable w) :
    c.punctual.Reachable w := by
  -- In the first call there is no older signal or message that could arrive late.
  refine h.mono (T := c.system.restrict c.FirstCall) (U := c.punctual) (fun _ hw => hw) ?_
  intro q a q' hr hs
  have hreach := hr.of_restrict
  have hl := launches_of_reachable hv hreach
  have hq := queues_of_reachable hv hreach
  obtain ⟨hfirst, hs⟩ := hs
  refine ⟨⟨⟨?_, ?_⟩, ?_⟩, hs⟩
  · -- The words that it overwrites belong to this call.
    intro m r key content hland j _ n hfrom
    obtain ⟨s, hs, hn⟩ := dataFrom_le hv hreach hfrom
    have hm := hland.call_le
    rw [hfirst s hs] at hn
    rw [hfirst r hland.rank] at hm
    exact .inl (by omega)
  · -- What is still pending belongs to this call as well.
    intro r _ m key hp hne
    obtain ⟨x, hx, -⟩ := id hp
    have hr := hq.rank r _ x hx
    have hm := hl.le_of_sent hr (hq.sent_of_pending hp)
    rw [hfirst r hr] at hm hne
    exact absurd (Nat.le_zero.mp hm) hne
  · -- So do the signals.
    intro m r e hland
    have hm := hland.call_le
    rw [hfirst r hland.rank, Nat.le_zero] at hm
    subst hm
    have hcall := hfirst _ (hv.div_lt hland.expert)
    exact ⟨fun _ => .inl hcall.symm, fun hne => absurd (by rw [hcall]) hne⟩

/-! ### A signal that is late -/

/-- The ranks of `twoRanks` with timeouts, where only the first `dispatch` has a token. -/
def lateRanks : Config ℕ :=
  let c := twoRanks none (· % 2) fun k => (k + 1) % 2
  { c with
    calls := fun k =>
      { c.calls k with
        input := fun r =>
          { (c.calls k).input r with
            numTokens := if k = 0 ∧ r = 0 then 1 else 0
            timeoutTicks := 1000 } } }

/-- The inputs of these ranks pass all checks. -/
theorem lateRanks_sound : lateRanks.Sound where
  hasCall := fun _ hn => by cases hn
  numRanks_pos := (by decide : 0 < 2)
  numExperts_pos := (by decide : 0 < 10)
  dvd := (by decide : 2 ∣ 10)
  numExperts_lt := (by decide : 10 < 2 ^ 31)
  rows_lt := (by decide : 10 * 1 < 2 ^ 31)
  mapped _ _ := ⟨rfl, rfl⟩
  input m _ r _ := by
    have hlt : (if m = 0 ∧ r = 0 then 1 else 0) ≤ 1 := by split <;> decide
    refine ⟨hlt, (by decide : 1 ≤ kNumMaxTopK), ?_, ?_, ?_, rfl, ?_⟩
    · exact (Nat.mul_le_mul_right 1 hlt).trans_lt (by decide)
    · exact fun _ _ => (by decide : toInt32 7 < 10)
    · intro t _ i hi j hj _ _
      rw [Nat.lt_one_iff.mp hi, Nat.lt_one_iff.mp hj]
    · intro hkind k hk
      cases hk
      have hvalid := @twoRanks_valid none (by simp) (· % 2) fun k => (k + 1) % 2
      exact (hvalid.input m (fun _ hn => by cases hn) 0 (by decide : 0 < 2)).source hkind _ rfl

/-- Their two buffers take turns. -/
theorem lateRanks_takesTurns : lateRanks.TakesTurns := ⟨fun _ => rfl, fun _ => rfl⟩

/-- The blank state is one before their first call. -/
theorem lateRanks_init : lateRanks.Init blank := init_blank rfl

/-- A `dispatch` of both ranks, up to the copy of the token. -/
def punctualSchedule : List Action :=
  sendPhase 0 true ++ sendPhase 1 false ++ List.replicate 6 (Action.deliver 0 1) ++
    ([.dispatch 1 (.acquire 2 (-2)), .dispatch 1 (.claim 2), .dispatch 1 (.publish 2)] :
      List Action)

/-- A `dispatch` of both ranks up to the copy of its token, in which no signal is late. -/
theorem late_signals_not_misread_lateRanks :
    let w := lateRanks.machine.exec blank punctualSchedule
    lateRanks.CountsSent w ∧ lateRanks.RowsSent w := by
  intro w
  have hlegal : (lateRanks.machine.guarded lateRanks.FirstCall).Legal blank punctualSchedule := by
    decide +kernel
  have hrun := Machine.reachable_restrict_exec punctualSchedule (.init lateRanks_init) hlegal
  exact late_signals_not_misread lateRanks lateRanks_sound lateRanks_takesTurns w
    (punctual_of_first lateRanks_sound hrun)

/-- The SEND phase of rank 0 in `lateRanks`, up to the signal for expert 7. -/
def sendLate : List Dispatch.Action :=
  (List.range numTokenWarps).map (fun warp => Dispatch.Action.stage 0 warp) ++
    ([.reserve 0 0, .send 0 0, .finish 0 0] : List Dispatch.Action) ++
    (List.range 10).map Dispatch.Action.clean ++ (List.range 10).map Dispatch.Action.tag ++
    (List.range 10).map Dispatch.Action.count ++
    ([.poll 7, .signal 7] : List Dispatch.Action)

/-- The RECV phase of rank 1 when it gives rank 0 up. -/
def recvAlone : List Dispatch.Action :=
  ([.miss 0, .expire 0, .giveUp 0] : List Dispatch.Action) ++
    (List.range' 1 4).flatMap (fun e => ([.miss e, .giveUp e] : List Dispatch.Action)) ++
    (List.range' 5 5).map (fun e => Dispatch.Action.acquire e (-1)) ++
    (List.range 10).flatMap fun e => ([.claim e, .publish e] : List Dispatch.Action)

/-- The `combine` of rank 1 without rank 0. -/
def combineAlone : List Combine.Action :=
  (List.range 10).map Combine.Action.clean ++ ([.publish] : List Combine.Action) ++
    (List.range 10).flatMap (fun e => ([.open e, .signal e, .drop e] : List Combine.Action)) ++
    (List.range 5).flatMap (fun e => ([.miss e, .giveUp e] : List Combine.Action)) ++
    (List.range' 5 5).map (fun e => Combine.Action.acquire e 1) ++
    ([.gridSync] : List Combine.Action)

/-- The messages of rank 0 arrive when rank 1 has left the call after. -/
def lateSchedule : List Action :=
  sendLate.map (Action.dispatch 0) ++ sendPhase 1 false ++ recvAlone.map (Action.dispatch 1) ++
    ([.advance 1] : List Action) ++ combineAlone.map (Action.combine 1) ++
    ([.deliver 0 1, .deliver 0 1, .advance 1] : List Action) ++ sendPhase 1 false ++
    ([.dispatch 1 (.acquire 2 (-2))] : List Action)

/-- Rank 1 cleans the entry for its expert 2 before the signal of the first call lands in it, and
takes the signal for the one of the third call, in which rank 0 has no token. -/
theorem late_signal_misread :
    lateRanks.Sound ∧ lateRanks.TakesTurns ∧ ∃ w, lateRanks.system.Reachable w ∧
      ¬(lateRanks.CountsSent w ∧ lateRanks.RowsSent w) := by
  have hlegal : lateRanks.machine.Legal blank lateSchedule := by decide +kernel
  have hcount : (((lateRanks.machine.exec blank lateSchedule).disp (1, 2)).recv 2).hasCount = true ∧
      ((lateRanks.machine.exec blank lateSchedule).disp (1, 2)).numRecv 2 = 1 := by decide +kernel
  have hreach : lateRanks.system.Reachable (lateRanks.machine.exec blank lateSchedule) :=
    Machine.reachable_exec _ (.init lateRanks_init) hlegal
  refine ⟨lateRanks_sound, lateRanks_takesTurns, _, hreach, ?_⟩
  generalize lateRanks.machine.exec blank lateSchedule = w at hcount
  rintro ⟨hcounts, -⟩
  have htokens : ((lateRanks.launch 0 2).tokensFor 7).card = 0 := by decide
  have hsent := hcounts 1 (by decide) 2 rfl 2 (by decide) 0 (by decide) hcount.1
  rw [show 0 * lateRanks.numLocalExperts + 2 = 2 from rfl,
    show 1 * lateRanks.numLocalExperts + 2 = 7 from rfl, hcount.2, htokens] at hsent
  revert hsent
  decide

end EpDemo.System.Config
