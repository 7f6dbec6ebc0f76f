import EpDemo.Proofs.System.Source
import EpDemo.Proofs.System.Waits

/-!
# `EpDemo.Proofs.System.Delivery`: what is delivered

A message lands over no message of another call that is still to be read (`OnTime`). So where the
messages of a call have disjoint slots (`Apart`), a message that has landed stays intact until its
receiver leaves the call (`intact_of_run`). Without timeouts no message lands at a rank that has
left its call (`Landing.recv_call_le`), and undisturbed steps are on time. Words that no message
has are as they were (`unwritten_of_undisturbed`).
-/

set_option autoImplicit false

namespace EpDemo.System.Config

open EpDemo.Kernel EpDemo.Library

variable {A : Type} {c : Config A} {w₀ w : World A} {a : Action}

/-- Nothing is sent before the first call. -/
theorem not_dataSent_of_allocated (hw : c.Allocated w) {m r : ℕ} {key : ℕ × ℕ} :
    ¬c.DataSent w m r key := by
  unfold DataSent
  cases (c.calls m).kind with
  | dispatch => simp [(hw.disp _).token, Dispatch.TokenPc.isSent]
  | combine => simp [(hw.comb _).row]

/-! ### Which messages are in a buffer -/

/-- A rank has left a call when all its signal waits have ended. -/
theorem Launches.taken_of_lt (hl : c.Launches w) {m r e : ℕ} (hr : r < c.numRanks)
    (hlt : m < w.call r) (he : e < c.numExperts) : c.Taken w m r e := by
  unfold Taken
  cases hkind : (c.calls m).kind with
  | dispatch =>
    have hready := (hl.dispDone r hr m hlt hkind).ready e he
    simp only [hready]
    rfl
  | combine =>
    exact (Combine.order_of_runs (hl.comb r hr m hlt.le hkind)).passed
      (hl.combDone r hr m hlt hkind).1 e he

/-- The signal of rank `r` for an expert has landed when the wait for it has ended. -/
theorem landed_of_taken (hv : c.Valid) (hacq : c.Acquired w) {m r e : ℕ} (hr : r < c.numRanks)
    (he : e < c.numExperts)
    (htaken : c.Taken w m (e / c.numLocalExperts) (r * c.numLocalExperts + e % c.numLocalExperts)) :
    c.Landed w m r (.signal e) := by
  have hmod := hv.mod_lt e
  have hland := hacq _ (hv.div_lt he) m _ (hv.expert_lt hr hmod) htaken
  simp only [mul_add_div_mod hmod, Nat.div_add_mod'] at hland
  exact hland

/-- The messages for an expert have landed when the wait for their signal has ended. -/
theorem data_landed_of_taken (hv : c.Valid) (hl : c.Launches w) (hq : c.Queues w)
    (hacq : c.Acquired w) {m r : ℕ} {key : ℕ × ℕ} (hr : r < c.numRanks)
    (he : c.dataExpert m r key < c.numExperts) (htask : c.Task w m r key)
    (htaken : c.Taken w m (c.dataExpert m r key / c.numLocalExperts)
      (r * c.numLocalExperts + c.dataExpert m r key % c.numLocalExperts)) :
    c.Landed w m r (.data key) :=
  hq.data_landed hv hl hr he (landed_of_taken hv hacq hr he htaken) htask rfl

/-- The messages in the receive data are of calls that some rank has reached. -/
theorem dataFrom_le (hv : c.Sound) (h : c.system.Reachable w) {b n : ℕ} {p : Ptr}
    (hfrom : w.dataFrom b p = some n) : ∃ r < c.numRanks, n ≤ w.call r := by
  revert b p n
  refine h.invariant (I := fun w => ∀ {b n : ℕ} {p : Ptr}, w.dataFrom b p = some n →
    ∃ r < c.numRanks, n ≤ w.call r) ?_ ?_
  · intro q hq b n p hfrom
    rw [hq.dataFrom] at hfrom
    cases hfrom
  · rintro q a q' hreach hold ⟨hen, rfl⟩ b n p hfrom
    have hl := launches_of_reachable hv hreach
    have hbefore : ∃ r < c.numRanks, n ≤ q.call r := by
      cases dataFrom_cases hv hl (queues_of_reachable hv hreach) hen hfrom with
      | inl hfrom => exact hold hfrom
      | inr hnew =>
        obtain ⟨r, key, content, hland, -⟩ := hnew
        exact ⟨r, hland.rank, hland.call_le⟩
    obtain ⟨r, hr, hle⟩ := hbefore
    exact ⟨r, hr, hle.trans (call_le_fire c q a r)⟩

/-- A message does not land at a rank that has left its call. -/
theorem Landing.recv_call_le (hv : c.Valid) (hl : c.Launches w) (hq : c.Queues w)
    (hacq : c.Acquired w) (hen : c.enabled w a) {m r : ℕ} {key : ℕ × ℕ} {content : ℕ → Word}
    (hland : c.Landing w a m r key content) :
    w.call (c.dataExpert m r key / c.numLocalExperts) ≤ m := by
  by_contra hlt
  have he := hland.expert
  have hsent : c.DataSent (c.fire w a) m r key :=
    ((hland.landed m r key).mpr (.inr ⟨rfl, rfl, rfl⟩)).1
  have htask : c.Task w m r key := by
    cases (dataSent_fire hen m r key).mp hsent with
    | inl hsent => exact hl.task_of_sent hv hland.rank hsent
    | inr hreq =>
      obtain ⟨hreq, rfl⟩ := hreq
      exact (hl.of_request_data hv hen hreq).2.1
  refine hland.notLanded (data_landed_of_taken hv hl hq hacq hland.rank he htask ?_)
  exact hl.taken_of_lt (hv.div_lt he) (by omega)
    (hv.expert_lt hland.rank (hv.mod_lt _))

/-- The step keeps the messages of different calls apart: none lands over a word of a message of
another call that its receiver has not left, and none is staged over one that is still queued. -/
structure OnTime (c : Config A) (w : World A) (a : Action) : Prop where
  landing : ∀ m r key content, c.Landing w a m r key content → ∀ j < c.dataBytes m / 4, ∀ n,
    w.dataFrom (c.calls m).buf ((c.dataDst w m r key).add (4 * j)) = some n →
      n = m ∨ n < w.call (c.dataExpert m r key / c.numLocalExperts)
  staging : c.StagesFree w a

/-- The runs whose steps are on time. -/
def onTime (c : Config A) : TransitionSystem (World A) Action := c.system.restrict c.OnTime

/-- A word of receive data is one of a message of a call that its owner has reached, or of the
next one on another buffer. -/
def InTime (c : Config A) (w : World A) : Prop :=
  ∀ b p n, w.dataFrom b p = some n → b = (c.calls n).buf ∧
    (n ≤ w.call p.rank ∨ n = w.call p.rank + 1 ∧ (c.calls n).buf ≠ (c.calls (w.call p.rank)).buf)

/-- In undisturbed runs the receive data is in time. -/
theorem inTime_of_undisturbed (hv : c.Valid) (h : c.undisturbed.Reachable w) : c.InTime w := by
  -- Words of earlier calls were in time, and a step can only write for a call in time.
  refine h.invariant ?_ ?_
  · intro q hq b p n hfrom
    rw [hq.dataFrom] at hfrom
    cases hfrom
  · rintro q a q' hreach hold ⟨hund, hen, rfl⟩ b p n hfrom
    have hreach := reachable_of_undisturbed hreach
    have hl := launches_of_reachable hv hreach
    have hq := queues_of_reachable hv hreach
    show b = (c.calls n).buf ∧ (n ≤ (c.fire q a).call p.rank ∨ n = (c.fire q a).call p.rank + 1 ∧ _)
    -- A word of the new state was there already, or the step wrote it.
    have hbefore : b = (c.calls n).buf ∧ (n ≤ q.call p.rank ∨
        n = q.call p.rank + 1 ∧ (c.calls n).buf ≠ (c.calls (q.call p.rank)).buf) := by
      cases dataFrom_cases hv hl hq hen hfrom with
      | inl hfrom => exact hold b p n hfrom
      | inr hnew =>
        obtain ⟨r, key, content, hland, hb, hrank⟩ := hnew
        refine ⟨hb, ?_⟩
        rw [hrank]
        exact hund.landing n r key content hland
    -- The receiver can only move on.
    have hmono := call_le_fire c q a p.rank
    refine ⟨hbefore.1, ?_⟩
    cases hbefore.2 with
    | inl hle => exact .inl (hle.trans hmono)
    | inr hnext =>
      -- A word for the next call is still in time, whether the receiver has reached it or not.
      by_cases hsame : (c.fire q a).call p.rank = q.call p.rank
      · rw [← hsame] at hnext
        exact .inr hnext
      · exact .inl (by omega)

/-- Undisturbed runs are on time. -/
theorem onTime_of_undisturbed (hv : c.Valid) (h : c.undisturbed.Reachable w)
    (hund : c.Undisturbed w a) (hen : c.enabled w a) : c.OnTime w a where
  landing m r key content hland j hj n hfrom := by
    have hreach := reachable_of_undisturbed h
    have hge := hland.recv_call_le hv (launches_of_reachable hv hreach)
      (queues_of_reachable hv hreach) (acquired_of_undisturbed hv h) hen
    obtain ⟨hb, hn⟩ := inTime_of_undisturbed hv h _ _ n hfrom
    have hm := hund.landing m r key content hland
    rw [dataDst_eq hv] at hn
    replace hn : n ≤ w.call (c.dataExpert m r key / c.numLocalExperts) ∨
        n = w.call (c.dataExpert m r key / c.numLocalExperts) + 1 ∧
          (c.calls n).buf ≠ (c.calls (w.call (c.dataExpert m r key / c.numLocalExperts))).buf := hn
    -- The two are on one buffer, so neither is one call ahead of the other.
    by_contra hnot
    push Not at hnot
    obtain ⟨hne, hcur⟩ := hnot
    cases hn with
    | inl hn =>
      have hn : w.call (c.dataExpert m r key / c.numLocalExperts) = n := by omega
      rw [hn] at hm
      cases hm with
      | inl hm => omega
      | inr hm => exact hm.2 hb
    | inr hn =>
      cases hm with
      | inl hm =>
        have hm : w.call (c.dataExpert m r key / c.numLocalExperts) = m := by omega
        rw [hm] at hn
        exact hn.2 hb.symm
      | inr hm => omega
  staging := hund.staging

/-- The step takes nothing of one call for that of another: a signal wait is ended by its own
signal, and messages of different calls keep apart. -/
structure Separate (c : Config A) (w : World A) (a : Action) : Prop extends c.OnTime w a where
  own : c.OwnSignal w a

/-- The runs of separate steps. -/
def separate (c : Config A) : TransitionSystem (World A) Action := c.system.restrict c.Separate

/-- Separate runs are on time. -/
theorem onTime_of_separate (h : (c.separate.startingAt w₀).Reachable w) :
    (c.onTime.startingAt w₀).Reachable w :=
  h.mono (T := c.separate.startingAt w₀) (U := c.onTime.startingAt w₀) (fun _ hw => hw)
    fun _ _ _ _ hs => ⟨hs.1.toOnTime, hs.2⟩

/-- Undisturbed runs are separate. -/
theorem reachable_separate (hv : c.Valid) (hw₀ : c.Init w₀)
    (h : (c.undisturbed.startingAt w₀).Reachable w) : (c.separate.startingAt w₀).Reachable w :=
  h.mono (T := c.undisturbed.startingAt w₀) (U := c.separate.startingAt w₀) (fun _ hw => hw)
    fun _ _ _ hr hs =>
      ⟨⟨onTime_of_undisturbed hv (hr.of_startingAt hw₀) hs.1 hs.2.1, hs.1.acquired⟩, hs.2⟩

/-- Where the buffers alternate, every run is separate. -/
theorem separate_of_alternates (hv : c.Valid) (halt : c.Alternates) (h : c.system.Reachable w) :
    c.separate.Reachable w := by
  obtain ⟨w₀, hw₀, hfrom⟩ := (reachable_undisturbed hv halt h).exists_startingAt
  exact (reachable_separate hv hw₀ hfrom).of_startingAt hw₀

/-! ### Messages stay intact -/

/-- No two messages of a call have a word in common. -/
def Apart (c : Config A) (w : World A) (m : ℕ) : Prop :=
  ∀ r < c.numRanks, ∀ s < c.numRanks, ∀ key key', c.DataSent w m r key → c.DataSent w m s key' →
    ¬(r = s ∧ key = key') → ∀ i < c.dataBytes m / 4, ∀ j < c.dataBytes m / 4,
      (c.dataDst w m r key).add (4 * i) ≠ (c.dataDst w m s key').add (4 * j)

/-- The words of a message are those of its row, and it was the last to write them. -/
def HasMessage (c : Config A) (w₀ w : World A) (m r : ℕ) (key : ℕ × ℕ) : Prop :=
  ∀ j < c.dataBytes m / 4,
    w.dataFrom (c.calls m).buf ((c.dataDst w m r key).add (4 * j)) = some m ∧
      (c.Defined m j → w.data (c.calls m).buf ((c.dataDst w m r key).add (4 * j)) =
        c.messageWord w₀ w m r key j)

/-- The messages of some calls are intact from when they land until their receiver leaves the
call. -/
def Intact (c : Config A) (P : ℕ → Prop) (w₀ w : World A) : Prop :=
  ∀ m, P m → ∀ r < c.numRanks, ∀ key, c.Landed w m r (.data key) →
    w.call (c.dataExpert m r key / c.numLocalExperts) ≤ m → c.HasMessage w₀ w m r key

/-- The slot of a message that was issued does not change. -/
theorem dataDst_fire_of_sent (hv : c.Sound) (hl : c.Launches w) (hen : c.enabled w a) {m r : ℕ}
    {key : ℕ × ℕ} (hr : r < c.numRanks) (hsent : c.DataSent w m r key) :
    c.dataDst (c.fire w a) m r key = c.dataDst w m r key := by
  have hwqe : c.dataWqe (c.fire w a) m r key = c.dataWqe w m r key :=
    requestWqe_fire_of_sent hv hl hen (q := .data key) hr hsent
  exact (Wqe.write.inj hwqe).2.2.2.2.1

/-- The slot of a message does not change by landing. -/
theorem Landing.dataDst_fire (hv : c.Sound) (hl : c.Launches w) (hq : c.Queues w)
    (hen : c.enabled w a) {m r : ℕ} {key : ℕ × ℕ} {content : ℕ → Word}
    (hland : c.Landing w a m r key content) :
    c.dataDst (c.fire w a) m r key = c.dataDst w m r key := by
  cases hland.how with
  | inl hstore =>
    obtain ⟨hreq, rfl, -⟩ := hstore
    have hwqe : c.dataWqe (c.fire w a) (w.call r) r key = c.dataWqe w (w.call r) r key :=
      requestWqe_fire_of_request hv hl hen hland.rank hreq
    exact (Wqe.write.inj hwqe).2.2.2.2.1
  | inr hdeliver =>
    exact dataDst_fire_of_sent hv hl hen hland.rank (hq.sent_of_pending hdeliver.2.1)

/-- A message that is in its slot stays there when another one lands. -/
theorem HasMessage.landing (hv : c.Sound) (hl : c.Launches w) (hq : c.Queues w)
    (hon : c.OnTime w a) (hen : c.enabled w a) {m r k s : ℕ} {key key' : ℕ × ℕ}
    {content : ℕ → Word} (hr : r < c.numRanks) (hapart : c.Apart (c.fire w a) m)
    (hlanding : c.Landing w a k s key' content) (hland : c.Landed w m r (.data key))
    (hcall : w.call (c.dataExpert m r key / c.numLocalExperts) ≤ m)
    (h : c.HasMessage w₀ w m r key) : c.HasMessage w₀ (c.fire w a) m r key := by
  have hle : m ≤ w.call r := hl.le_of_sent (q := .data key) hr hland.1
  have hdst := dataDst_fire_of_sent hv hl hen hr hland.1
  intro j hj
  rw [hdst, messageWord_fire hv hl a hr hle, hlanding.data, hlanding.dataFrom]
  by_cases hbuf : (c.calls m).buf = (c.calls k).buf
  · have hne : ∀ i < c.dataBytes k / 4,
        (c.dataDst w m r key).add (4 * j) ≠ (c.dataDst w k s key').add (4 * i) := by
      intro i hi heq
      have hrank : c.dataExpert m r key / c.numLocalExperts =
          c.dataExpert k s key' / c.numLocalExperts := by
        have hr := congrArg Ptr.rank heq
        rwa [dataDst_eq hv, dataDst_eq hv] at hr
      -- The word is one of a message of a call that its receiver has not left, so the new message
      -- is of the same call. Then it has another slot.
      have hmk : m = k := by
        have hfrom := (h j hj).1
        rw [heq, hbuf] at hfrom
        have hlate := hon.landing k s key' content hlanding i hi m hfrom
        rw [← hrank] at hlate
        omega
      subst hmk
      have hsent : c.DataSent (c.fire w a) m r key := (dataSent_fire hen m r key).mpr (.inl hland.1)
      have hsent' : c.DataSent (c.fire w a) m s key' :=
        ((hlanding.landed m s key').mpr (.inr ⟨rfl, rfl, rfl⟩)).1
      refine hapart r hr s hlanding.rank key key' hsent hsent' ?_ j hj i hi ?_
      · rintro ⟨rfl, rfl⟩
        exact hlanding.notLanded hland
      · rw [hdst, hlanding.dataDst_fire hv hl hq hen]
        exact heq
    rw [hbuf, Function.update_self, Function.update_self, writeWords_of_ne _ _ hne,
      writeWords_of_ne _ _ hne, ← hbuf]
    exact h j hj
  · rw [Function.update_of_ne hbuf, Function.update_of_ne hbuf]
    exact h j hj

/-- A message that lands is in its slot. -/
theorem Landing.hasMessage (hv : c.Sound) (hl : c.Launches w) (hq : c.Queues w)
    (hsrc : c.Source w₀ w) (hen : c.enabled w a) {m r : ℕ} {key : ℕ × ℕ}
    {content : ℕ → Word} (hland : c.Landing w a m r key content)
    (hcopy : (c.calls m).kind = .combine → ((c.calls m).input r).zeroCopy = false) :
    c.HasMessage w₀ (c.fire w a) m r key := by
  intro j hj
  rw [hland.dataDst_fire hv hl hq hen, messageWord_fire hv hl a hland.rank hland.call_le,
    hland.data,
    hland.dataFrom, Function.update_self, Function.update_self, writeWords_self _ _ _ hj,
    writeWords_self _ _ _ hj]
  exact ⟨rfl, hland.content_eq hl hq hsrc hen hcopy hj⟩

/-- Messages are intact where the calls have disjoint slots. -/
theorem intact_of_run {C : World A → Action → Prop} (hon : ∀ w a, C w a → c.OnTime w a)
    {P : ℕ → Prop} (hv : c.Sound) (hw₀ : c.Init w₀)
    (hcopy : ∀ m, P m → c.HasCall m → (c.calls m).kind = .combine → ∀ r < c.numRanks,
      ((c.calls m).input r).zeroCopy = false)
    (hapart : ∀ w, ((c.system.restrict C).startingAt w₀).Reachable w → ∀ m, P m → c.Apart w m)
    (h : ((c.system.restrict C).startingAt w₀).Reachable w) : c.Intact P w₀ w := by
  -- By induction on the run, with the condition on the step as a hypothesis.
  refine h.invariant ?_ ?_
  · rintro q rfl m - r - key hland
    exact absurd hland.1 (not_dataSent_of_allocated hw₀.allocated)
  · rintro q a q' hfrom hold hs m hP r hr key hland hcall
    have hreach := (hfrom.of_startingAt hw₀).of_restrict
    have hl := launches_of_reachable hv hreach
    have hq := queues_of_reachable hv hreach
    have hsrc := source_of_run (fun q a hstep => (hon q a hstep).staging) hv hw₀ hfrom
    have hnext := hapart q' (.step hfrom hs) m hP
    obtain ⟨hstep, hen, rfl⟩ := hs
    replace hland : c.Landed (c.fire q a) m r (.data key) := hland
    have hcall := (call_le_fire c q a _).trans hcall
    show c.HasMessage w₀ (c.fire q a) m r key
    -- Either no data word changes, or one message lands.
    cases data_cases hv hl hq hen with
    | inl hsame =>
      have hland := (hsame.2.2 m r key).mp hland
      have hle : m ≤ q.call r := hl.le_of_sent (q := .data key) hr hland.1
      intro j hj
      rw [dataDst_fire_of_sent hv hl hen hr hland.1, messageWord_fire hv hl a hr hle, hsame.1,
        hsame.2.1]
      exact hold m hP r hr key hland hcall j hj
    | inr hlanding =>
      -- One message lands.
      obtain ⟨k, s, key', content, hlanding⟩ := hlanding
      -- An earlier message keeps its words, because the two do not overlap.
      cases (hlanding.landed m r key).mp hland with
      | inl hland =>
        exact (hold m hP r hr key hland hcall).landing hv hl hq
          (hon q a hstep) hen hr hnext hlanding hland hcall
      | inr heq =>
        -- The message that lands has its words from the send buffer.
        obtain ⟨rfl, rfl, rfl⟩ := heq
        have hm := (hl.hasCall r hr).of_le hlanding.call_le
        exact hlanding.hasMessage hv hl hq hsrc hen fun hkind => hcopy m hP hm hkind r hr

/-- Without timeouts, messages are intact in undisturbed runs. -/
theorem intact_of_undisturbed {P : ℕ → Prop} (hv : c.Valid) (hzero : c.NoZeroCopy)
    (hw₀ : c.Init w₀)
    (hapart : ∀ w, c.system.Reachable w → ∀ m, P m → c.Apart w m)
    (h : (c.undisturbed.startingAt w₀).Reachable w) : c.Intact P w₀ w :=
  intact_of_run (fun _ _ hstep => hstep) hv hw₀ (fun m _ => hzero m)
    (fun w hw => hapart w (hw.of_startingAt hw₀).of_restrict)
    (onTime_of_separate (reachable_separate hv hw₀ h))

/-! ### What is not written -/

/-- Receive data changes by messages that have landed. -/
def Unwritten (c : Config A) (w₀ w : World A) : Prop :=
  ∀ b p, (∀ m, ∀ r < c.numRanks, ∀ key, c.Landed w m r (.data key) → (c.calls m).buf = b →
      ∀ j < c.dataBytes m / 4, p ≠ (c.dataDst w m r key).add (4 * j)) →
    w.data b p = w₀.data b p

/-- In undisturbed runs only messages that have landed change receive data. -/
theorem unwritten_of_undisturbed (hv : c.Valid) (hw₀ : c.Init w₀)
    (h : (c.undisturbed.startingAt w₀).Reachable w) : c.Unwritten w₀ w := by
  -- At the start nothing has landed, and nothing has been written.
  refine h.invariant ?_ ?_
  · rintro q rfl b p -
    rfl
  · rintro q a q' hfrom hold ⟨-, hen, rfl⟩ b p hno
    have hreach := reachable_of_undisturbed (hfrom.of_startingAt hw₀)
    have hl := launches_of_reachable hv hreach
    have hq := queues_of_reachable hv hreach
    replace hno : ∀ m, ∀ r < c.numRanks, ∀ key, c.Landed (c.fire q a) m r (.data key) →
        (c.calls m).buf = b → ∀ j < c.dataBytes m / 4,
          p ≠ (c.dataDst (c.fire q a) m r key).add (4 * j) := hno
    show (c.fire q a).data b p = w₀.data b p
    -- What is not written after the step was not written before it.
    have hbefore : q.data b p = w₀.data b p := by
      refine hold b p fun m r hr key hland hb j hj => ?_
      rw [← dataDst_fire_of_sent hv hl hen hr hland.1]
      exact hno m r hr key ((hq.landed_fire hv hl hen m r _).mpr (.inl hland)) hb j hj
    cases data_cases hv hl hq hen with
    | inl hsame => rw [hsame.1, hbefore]
    | inr hlanding =>
      obtain ⟨k, s, key, content, hlanding⟩ := hlanding
      rw [hlanding.data]
      -- The landing message writes to its own words only.
      by_cases hb : b = (c.calls k).buf
      · subst hb
        rw [Function.update_self, writeWords_of_ne, hbefore]
        intro i hi
        rw [← hlanding.dataDst_fire hv hl hq hen]
        exact hno k s hlanding.rank key
          ((hlanding.landed k s key).mpr (.inr ⟨rfl, rfl, rfl⟩)) rfl i hi
      · rw [Function.update_of_ne hb, hbefore]

end EpDemo.System.Config
