import EpDemo.Proofs.System.Routing

/-!
# `EpDemo.Proofs.System.CombineReduces`: `combine` adds the rows of the tokens up

In a `combine` that takes the results of a `dispatch` (`Inverts`), the slot of an entry holds the
row that the owner of the expert sends for the token when the signal waits have ended, as long as
the two ranks are in touch (`Connected`, `Inverts.exists_message`, `intact_combine`). So the
accumulators are sums of these rows (`Sums`), added up in the order of the entries (`reduce`).

The row is the one that `dispatch` packed the token into, wherever that was (`exists_summands`).
Without timeouts all ranks are in touch (`Facts.connected`), so the whole sum is exact
(`combine_inverts_dispatch`).
-/

set_option autoImplicit false

namespace EpDemo.System.Config

open EpDemo.Kernel EpDemo.Library

variable {A : Type} {c : Config A} {w₀ w : World A} {a : Action} {k m : ℕ}

/-! ### Entries and their rows -/

/-- Entry `i` of token `t` of rank `r`. -/
def entry (c : Config A) (m r t i : ℕ) : ℤ :=
  (c.launch r m).topk (t * (c.launch r m).numTopk + i)

/-- The sum of the first `n` entries of token `t` of rank `r`, from left to right, where entry `i`
contributes `y i`. -/
def reduce (c : Config A) (m r t : ℕ) (y : ℕ → Word) (n : ℕ) : A :=
  (List.range n).foldl
    (fun acc i =>
      if 0 ≤ c.entry m r t i then
        c.mulAdd acc (y i) (((c.calls m).input r).topkWeights (t * (c.launch r m).numTopk + i))
      else acc)
    c.zero

/-- One more top-k entry is added if it names an expert, and passed over if it is negative. -/
theorem reduce_succ (m r t : ℕ) (y : ℕ → Word) (n : ℕ) :
    c.reduce m r t y (n + 1) =
      if 0 ≤ c.entry m r t n then
        c.mulAdd (c.reduce m r t y n) (y n)
          (((c.calls m).input r).topkWeights (t * (c.launch r m).numTopk + n))
      else c.reduce m r t y n := by
  rw [reduce, List.range_succ, List.foldl_append]
  rfl

/-- Only what the entries contribute counts. -/
theorem reduce_congr {m r t n : ℕ} {y y' : ℕ → Word}
    (h : ∀ i < n, 0 ≤ c.entry m r t i → y i = y' i) :
    c.reduce m r t y n = c.reduce m r t y' n := by
  induction n with
  | zero => rfl
  | succ n ih =>
    rw [reduce_succ, reduce_succ, ih fun i hi => h i (hi.trans (Nat.lt_succ_self n))]
    split
    · rename_i hpos
      rw [h n (Nat.lt_succ_self n) hpos]
    · rfl

/-- The owner of the expert of an entry has reached the call, and sends `row` for the token. -/
def SentFor (c : Config A) (w : World A) (m r t i : ℕ) (row : ℤ) : Prop :=
  let e := (c.entry m r t i).toNat
  let s := e / c.numLocalExperts
  let group := r * c.numLocalExperts + e % c.numLocalExperts
  m ≤ w.call s ∧ ∃ n < (c.combineLaunch w s m).numRows group,
    row = c.combineRow w m s (group, n) ∧ c.srcInfo w s m row = t

/-- An entry is an existing expert. -/
theorem entry_lt (hv : c.Sound) (hm : c.HasCall m) {r t i : ℕ} (hr : r < c.numRanks)
    (ht : t < (c.launch r m).numTokens) (hi : i < (c.launch r m).numTopk)
    (hpos : 0 ≤ c.entry m r t i) : (c.entry m r t i).toNat < c.numExperts := by
  have hentry : c.entry m r t i = (c.launch r m).dstExpertIdx t i :=
    (Launch.dstExpertIdx_of_lt _ hi).symm
  rw [hentry] at hpos ⊢
  exact (hv.fits hm hr).dst_lt ht hpos

/-- The row that is sent for an entry does not change any more. -/
theorem SentFor.fire (hv : c.Sound) (hl : c.Launches w) (hinv : c.Inverts k m) {r t i : ℕ} {row : ℤ}
    (hs : (c.entry m r t i).toNat / c.numLocalExperts < c.numRanks)
    (h : c.SentFor w m r t i row) : c.SentFor (c.fire w a) m r t i row := by
  obtain ⟨hle, n, hn, hrow, hinfo⟩ := h
  have hcall := (hl.hasCall _ hs).of_le hle
  refine ⟨hle.trans (call_le_fire c w a _), n, ?_, ?_, ?_⟩
  · rwa [combineLaunch_fire hv a hs hcall hle hinv.combine]
  · rwa [combineRow_fire hv hl a hs hle hinv.combine]
  · have hne : k ≠ w.call ((c.entry m r t i).toNat / c.numLocalExperts) :=
      (hinv.lt.trans_le hle).ne
    rw [hinv.srcInfo_eq hs] at hinfo ⊢
    rwa [srcInfo_fire_of_ne a hne]

/-! ### Ranks that are in touch -/

/-- Rank `r` has not given up rank `s` in the `combine`, and `s` has not given up `r` in the
`dispatch`. -/
structure Connected (c : Config A) (w : World A) (k m r s : ℕ) : Prop where
  answered : (w.comb (r, m)).activeRanks s ≠ 0
  taken : (w.disp (s, k)).activeRanks r ≠ 0

/-- The rank that has the expert of an entry. -/
def entryOwner (c : Config A) (m r t i : ℕ) : ℕ := (c.entry m r t i).toNat / c.numLocalExperts

/-- When a rank adds up its rows, the owner of an entry that it has not given up is in the
`combine`. -/
theorem Answered.landed (hans : c.Answered w) (hl : c.Launches w)
    (hkind : (c.calls m).kind = .combine)
    {r e : ℕ} (hr : r < c.numRanks) (hm : m ≤ w.call r) (hred : (w.comb (r, m)).reducing = true)
    (he : e < c.numExperts) (hactive : (w.comb (r, m)).activeRanks (e / c.numLocalExperts) ≠ 0) :
    c.Landed w m (e / c.numLocalExperts)
      (.signal (r * c.numLocalExperts + e % c.numLocalExperts)) :=
  (hans r hr m hkind e he
    ((Combine.order_of_runs (hl.comb r hr m hm hkind)).passed hred e he)).resolve_right hactive

/-- While a rank adds up its rows, no owner comes back in touch. -/
theorem Connected.of_fire (hinv : c.Inverts k m) (hl : c.Launches w) (hans : c.Answered w)
    (hen : c.enabled w a) {r e : ℕ} (hr : r < c.numRanks) (hm : m ≤ w.call r)
    (hred : (w.comb (r, m)).reducing = true) (he : e < c.numExperts)
    (hs : e / c.numLocalExperts < c.numRanks)
    (h : c.Connected (c.fire w a) k m r (e / c.numLocalExperts)) :
    c.Connected w k m r (e / c.numLocalExperts) := by
  have hactive : (w.comb (r, m)).activeRanks (e / c.numLocalExperts) ≠ 0 := by
    intro hzero
    refine h.answered ?_
    by_cases hrun : ∃ b, a = .combine r b ∧ m = w.call r
    · obtain ⟨b, rfl, rfl⟩ := hrun
      rw [comb_fire_self]
      exact Combine.inactive_fire hzero
    · rw [comb_fire_of_le a hm fun b hb hm => hrun ⟨b, hb, hm⟩]
      exact hzero
  -- The owner has answered, so it has left the `dispatch`.
  have hms : m ≤ w.call (e / c.numLocalExperts) :=
    hl.le_of_sent hs (hans.landed hl hinv.combine hr hm hred he hactive).1
  have htaken := h.taken
  rw [disp_fire_of_lt a (hinv.lt.trans_le hms)] at htaken
  exact ⟨hactive, htaken⟩

/-- Without timeouts the owner of every expert is in touch with a rank that adds up its rows. -/
theorem Facts.connected (hf : c.Facts w) (hv : c.Valid) (hinv : c.Inverts k m) {r e : ℕ}
    (hr : r < c.numRanks) (hm : m ≤ w.call r) (hred : (w.comb (r, m)).reducing = true)
    (he : e < c.numExperts) : c.Connected w k m r (e / c.numLocalExperts) := by
  have hl := hf.launches
  have hs := hv.div_lt he
  have hactive : (w.comb (r, m)).activeRanks (e / c.numLocalExperts) ≠ 0 := by
    rw [(hl.active hv r hr m hm).2 hinv.combine]
    exact one_ne_zero
  have hms : m ≤ w.call (e / c.numLocalExperts) :=
    hl.le_of_sent hs (hf.answered.landed hl hinv.combine hr hm hred he hactive).1
  refine ⟨hactive, ?_⟩
  rw [(hl.active hv _ hs k (hinv.lt.le.trans hms)).1 hinv.dispatch]
  exact one_ne_zero

/-! ### The slots -/

/-- The messages of the `combine` stay intact. -/
theorem intact_combine (hv : c.Sound) (hinv : c.Inverts k m)
    (hcopy : ∀ r < c.numRanks, ((c.calls m).input r).zeroCopy = false) (hw₀ : c.Init w₀)
    (h : (c.separate.startingAt w₀).Reachable w) : c.Intact (fun n => n = m) w₀ w := by
  refine intact_of_run (C := c.Separate) (fun _ _ hstep => hstep.toOnTime) hv hw₀ ?_ ?_ h
  · rintro n rfl - -
    exact hcopy
  · rintro q hq n rfl
    have hf := facts_of_separate hv (hq.of_startingAt hw₀)
    exact hf.launches.apart_combine hv hinv.combine (hinv.routed hf)

/-- When a rank adds up its rows, the row for an entry of a rank in touch has landed. -/
theorem Inverts.exists_message (hinv : c.Inverts k m) (hf : c.Facts w) {r t i : ℕ}
    (hr : r < c.numRanks) (hm : m ≤ w.call r) (hred : (w.comb (r, m)).reducing = true)
    (ht : t < (c.launch r m).numTokens) (hi : i < (c.launch r m).numTopk)
    (hpos : 0 ≤ c.entry m r t i)
    (hcon : c.Connected w k m r (c.entryOwner m r t i)) :
    ∃ n, c.SentFor w m r t i (c.combineRow w m (c.entryOwner m r t i)
        (r * c.numLocalExperts + (c.entry m r t i).toNat % c.numLocalExperts, n)) ∧
      c.Landed w m (c.entryOwner m r t i)
        (.data (r * c.numLocalExperts + (c.entry m r t i).toNat % c.numLocalExperts, n)) := by
  have hv := hf.sound
  have hl := hf.launches
  have hcall := (hl.hasCall r hr).of_le hm
  have he := entry_lt hv hcall hr ht hi hpos
  unfold entryOwner SentFor at *
  generalize hentry : (c.entry m r t i).toNat = e at *
  have hs := hv.div_lt he
  have hmod := hv.mod_lt e
  have hgroup := hv.expert_lt hr hmod
  obtain ⟨hdiv, hmod'⟩ := mul_add_div_mod (a := r) hmod
  have hsent := hf.answered.landed hl hinv.combine hr hm hred he hcon.answered
  have hms : m ≤ w.call (e / c.numLocalExperts) := hl.le_of_sent hs hsent.1
  have hks := hinv.lt.trans_le hms
  have hdone := hl.dispDone _ hs k hks hinv.dispatch
  -- The token was sent to the expert in the `dispatch`, and the owner took it.
  have hkey : (t, i) ∈ (c.launch r k).tasks (e / c.numLocalExperts * c.numLocalExperts +
      e % c.numLocalExperts) := by
    rw [Nat.div_add_mod', Launch.mem_tasks]
    have ht : t < (c.launch r k).numTokens := ht.trans_eq (hinv.numTokens r hr)
    have hi : i < (c.launch r k).numTopk := hi.trans_eq (hinv.numTopk r hr)
    have hfit := hv.fits ((hl.hasCall r hr).of_le (hinv.lt.le.trans hm)) hr
    refine ⟨⟨ht, hi.trans_le hfit.numTopk_le⟩, ?_⟩
    rw [Launch.dstExpertIdx_of_lt _ hi, ← hentry, Int.toNat_of_nonneg hpos]
    simp only [entry, launch, Launch.topk, hinv.topkIdx r hr, hinv.numTopk r hr]
  have htook : 0 < (w.disp (e / c.numLocalExperts, k)).decodedCount
      (r * c.numLocalExperts + e % c.numLocalExperts) := by
    have hcount : ((w.disp (e / c.numLocalExperts, k)).recv
        (r * c.numLocalExperts + e % c.numLocalExperts)).hasCount = true := by
      rw [hdone.ready _ hgroup]
      rfl
    have hsettled :=
      ((hf.settled _ hs k hinv.dispatch _ hgroup hcount).resolve_right fun hnone => by
        rw [hdiv] at hnone
        exact hcon.taken hnone.2).1
    have hfit := hv.fits ((hl.hasCall r hr).of_le (hinv.lt.le.trans hm)) hr
    have hcard := Finset.card_pos.mpr ⟨_, hkey⟩
    rw [← Launch.numTokensSent_eq_card_tasks _ hfit.numTopk_le] at hcard
    rw [hf.settled.numRecv_eq hs hinv.dispatch hgroup hcount, recvCount, hdiv, hmod'] at hsettled
    omega
  obtain ⟨n, hn, -, hholds⟩ := (hf.rowHolds_of_done hs hinv.dispatch hdone hgroup).1 htook (t, i)
    (by rw [hdiv, hmod']; exact hkey)
  have hrows : n < (c.combineLaunch w (e / c.numLocalExperts) m).numRows
      (r * c.numLocalExperts + e % c.numLocalExperts) := by
    rw [hinv.numRows_eq hf hs hms hgroup]
    exact hn
  refine ⟨n, ⟨hms, n, hrows, rfl, ?_⟩, ?_⟩
  · rw [hmod'] at hholds
    rw [hinv.srcInfo_eq hs, hinv.combineRow_eq hf hs hms hgroup, hmod']
    exact hholds.srcInfo
  · refine hf.queues.data_landed hv hl hs hgroup hsent ?_ ?_
    · simp only [Task, hinv.combine]
      exact ⟨hgroup, hrows⟩
    · simp only [dataExpert, hinv.combine]

/-- The slot of an entry of a rank in touch holds the row that was sent for it. -/
theorem Inverts.slot_word (hinv : c.Inverts k m) (hf : c.Facts w)
    (hintact : c.Intact (fun n => n = m) w₀ w) {r t i j : ℕ}
    (hr : r < c.numRanks) (hm : m = w.call r) (hred : (w.comb (r, m)).reducing = true)
    (ht : t < (c.launch r m).numTokens) (hi : i < (c.launch r m).numTopk)
    (hpos : 0 ≤ c.entry m r t i) (hj : j < c.shape.numBytesPerSlot / 4)
    (hcon : c.Connected w k m r (c.entryOwner m r t i)) :
    ∃ row, c.SentFor w m r t i row ∧
      w.data (c.calls m).buf ((c.fabric.recvData (c.calls m).buf r
        (c.slotOffset (c.entry m r t i).toNat t)).add (4 * j)) =
        ((c.calls m).input (c.entryOwner m r t i)).x row j := by
  -- The row that was sent for this entry.
  have hv := hf.sound
  obtain ⟨n, hsent, hland⟩ := hinv.exists_message hf hr hm.le hred ht hi hpos hcon
  refine ⟨_, hsent, ?_⟩
  have hcall := (hf.launches.hasCall r hr).of_le hm.le
  have he := entry_lt hv hcall hr ht hi hpos
  obtain ⟨hle, n', -, -, hinfo⟩ := hsent
  unfold entryOwner at *
  -- Only the number of the expert matters from here.
  generalize (c.entry m r t i).toNat = e at *
  -- The expert belongs to the rank that staged the row.
  have hdiv : c.dataExpert m (e / c.numLocalExperts)
      (r * c.numLocalExperts + e % c.numLocalExperts, n) / c.numLocalExperts = r := by
    simp only [dataExpert, hinv.combine]
    exact (mul_add_div_mod (hv.mod_lt e)).1
  -- No later message has overwritten the slot.
  have hmessage := hintact m rfl _ (hv.div_lt he) _ hland (by rw [hdiv, hm])
  have hword := (hmessage j (by simpa only [dataBytes, hinv.combine] using hj)).2
    fun hdispatch => absurd (hdispatch.symm.trans hinv.combine) (by decide)
  rw [dataDst_of_row hv hinv.combine, hinfo] at hword
  rw [hword]
  simp only [messageWord, hinv.combine]

/-! ### The accumulators -/

/-- What the owner of an entry sends for it, when the row is `row i`. -/
def sentWord (c : Config A) (m r t j : ℕ) (row : ℕ → ℤ) (i : ℕ) : Word :=
  ((c.calls m).input ((c.entry m r t i).toNat / c.numLocalExperts)).x (row i) j

/-- The accumulators after an addition. -/
theorem acc_fire_accum (r t warp : ℕ) (p : ℕ × ℕ) :
    (c.fire w (.combine r (.accum t warp))).acc (r, w.call r) p =
      let i := (w.comb (r, w.call r)).reduced (t, warp)
      if p.1 = t ∧ p.2 / 128 = warp ∧ 0 ≤ c.entry (w.call r) r t i then
        c.mulAdd (w.acc (r, w.call r) p)
          (w.data (c.calls (w.call r)).buf ((c.fabric.recvData (c.calls (w.call r)).buf r
            (c.slotOffset (c.entry (w.call r) r t i).toNat t)).add (4 * p.2)))
          (((c.calls (w.call r)).input r).topkWeights (t * (c.launch r (w.call r)).numTopk + i))
      else w.acc (r, w.call r) p := by
  show Function.update w.acc (r, w.call r) _ (r, w.call r) p = _
  rw [Function.update_self]
  rfl

/-- The output after a store. -/
theorem combined_fire_store (r t warp : ℕ) (p : ℕ × ℕ) :
    (c.fire w (.combine r (.store t warp))).combined (r, w.call r) p =
      if p.1 = t ∧ p.2 / 128 = warp then c.round (w.acc (r, w.call r) p)
      else w.combined (r, w.call r) p := by
  show Function.update w.combined (r, w.call r) _ (r, w.call r) p = _
  rw [Function.update_self]

/-- Only an addition to a token touches its accumulators, and only its store the output row. -/
theorem reduction_fire_of_ne (a : Action) {r m t j : ℕ}
    (hacc : a = .combine r (.accum t (j / 128)) → m ≠ w.call r)
    (hstore : a = .combine r (.store t (j / 128)) → m ≠ w.call r) :
    (c.fire w a).acc (r, m) (t, j) = w.acc (r, m) (t, j) ∧
      (c.fire w a).combined (r, m) (t, j) = w.combined (r, m) (t, j) ∧
      ((c.fire w a).comb (r, m)).reduced (t, j / 128) = (w.comb (r, m)).reduced (t, j / 128) ∧
      ((c.fire w a).comb (r, m)).stored (t, j / 128) = (w.comb (r, m)).stored (t, j / 128) := by
  -- The two actions of the reduction loop write only their own token and warp.
  by_cases hrun : ∃ b, a = .combine r b ∧ m = w.call r
  · obtain ⟨b, rfl, rfl⟩ := hrun
    rw [comb_fire_self]
    cases b with
    | sendRow e k => simp only [fire, combineEffect, transfer_eq, Combine.fire, and_self]
    | signal e => simp only [fire, combineEffect, signal_eq, Combine.fire, and_self]
    | accum t' warp =>
      have hne : ¬(t = t' ∧ j / 128 = warp) := by
        rintro ⟨rfl, rfl⟩
        exact hacc rfl rfl
      refine ⟨?_, rfl, Function.update_of_ne (fun heq => hne (Prod.mk.inj heq)) .., rfl⟩
      rw [acc_fire_accum]
      exact if_neg fun h => hne ⟨h.1, h.2.1⟩
    | store t' warp =>
      have hne : ¬(t = t' ∧ j / 128 = warp) := by
        rintro ⟨rfl, rfl⟩
        exact hstore rfl rfl
      refine ⟨rfl, ?_, rfl, Function.update_of_ne (fun heq => hne (Prod.mk.inj heq)) ..⟩
      rw [combined_fire_store]
      exact if_neg hne
    | _ => exact ⟨rfl, rfl, rfl, rfl⟩
  · -- No other action of any rank touches the sums of this call.
    obtain ⟨ws, activeRanks, heq⟩ :=
      comb_fire_of_ne (c := c) (w := w) a fun b hb hm => hrun ⟨b, hb, hm⟩
    rw [heq]
    refine and_assoc.mp ⟨?_, rfl, rfl⟩
    cases a with
    | dispatch r' b =>
      cases b with
      | send t warp => simp only [fire, dispatchEffect, transfer_eq, and_self]
      | signal e => simp only [fire, dispatchEffect, signal_eq, and_self]
      | _ => exact ⟨rfl, rfl⟩
    | combine r' b =>
      -- A combine step of another rank, or of another call of this rank.
      have hpair : (r, m) ≠ (r', w.call r') := by
        intro heq
        cases heq
        exact hrun ⟨b, rfl, rfl⟩
      cases b with
      | sendRow e k => simp only [fire, combineEffect, transfer_eq, and_self]
      | signal e => simp only [fire, combineEffect, signal_eq, and_self]
      | accum t warp => exact ⟨congrFun (Function.update_of_ne hpair ..) _, rfl⟩
      | store t warp => exact ⟨rfl, congrFun (Function.update_of_ne hpair ..) _⟩
      | _ => exact ⟨rfl, rfl⟩
    | deliver r' ctx =>
      cases hq : w.nic (r', ctx) with
      | nil => simp only [fire, hq, and_self]
      | cons x rest =>
        rw [fire_deliver_cons hq]
        cases x <;> exact ⟨rfl, rfl⟩
    | advance r' => exact ⟨rfl, rfl⟩

/-- Word `j` of the accumulators of token `t` of rank `r` is the sum of the words that were read
for the entries so far. For an entry of a rank in touch, that is the word of the row that was sent
for it. -/
structure Sums (c : Config A) (k m : ℕ) (w : World A) (r t j : ℕ) : Prop where
  acc : ∃ y : ℕ → Word,
    (∀ i < (w.comb (r, m)).reduced (t, j / 128), 0 ≤ c.entry m r t i →
      c.Connected w k m r (c.entryOwner m r t i) →
      ∃ row, c.SentFor w m r t i row ∧ y i = ((c.calls m).input (c.entryOwner m r t i)).x row j) ∧
    w.acc (r, m) (t, j) = c.reduce m r t y ((w.comb (r, m)).reduced (t, j / 128))
  combined : (w.comb (r, m)).stored (t, j / 128) = true →
    w.combined (r, m) (t, j) = c.round (w.acc (r, m) (t, j))

/-- An addition adds the next entry. -/
theorem Sums.accum (hinv : c.Inverts k m) (hf : c.Facts w)
    (hintact : c.Intact (fun n => n = m) w₀ w) {r t j : ℕ} (hm : m = w.call r)
    (hen : c.enabled w (.combine r (.accum t (j / 128))))
    (hkeep : ∀ i < (c.launch r m).numTopk, 0 ≤ c.entry m r t i →
      c.Connected (c.fire w (.combine r (.accum t (j / 128)))) k m r (c.entryOwner m r t i) →
      c.Connected w k m r (c.entryOwner m r t i) ∧ ∀ row, c.SentFor w m r t i row →
        c.SentFor (c.fire w (.combine r (.accum t (j / 128)))) m r t i row)
    (h : c.Sums k m w r t j) :
    c.Sums k m (c.fire w (.combine r (.accum t (j / 128)))) r t j := by
  subst hm
  obtain ⟨hr, -, ⟨hred, ht, hwarp, hi, -⟩, -⟩ := hen
  have hord := Combine.order_of_runs (hf.launches.comb r hr _ le_rfl hinv.combine)
  obtain ⟨y, hy, hacc⟩ := h.acc
  have hreduced : ((c.fire w (.combine r (.accum t (j / 128)))).comb (r, w.call r)).reduced
      (t, j / 128) = (w.comb (r, w.call r)).reduced (t, j / 128) + 1 := by
    rw [comb_fire_self]
    exact Function.update_self ..
  have hstored : (w.comb (r, w.call r)).stored (t, j / 128) ≠ true := fun hstored =>
    hi.ne (hord.reduced_of_stored _ hstored)
  generalize hn : (w.comb (r, w.call r)).reduced (t, j / 128) = n at hi hy hacc hreduced
  -- The word in the slot of entry `n` is what the entry contributes.
  generalize hread : w.data (c.calls (w.call r)).buf ((c.fabric.recvData (c.calls (w.call r)).buf r
    (c.slotOffset (c.entry (w.call r) r t n).toNat t)).add (4 * j)) = word
  refine ⟨⟨Function.update y n word, fun i hi' hpos hcon' => ?_, ?_⟩, fun hnew => absurd ?_ hstored⟩
  · rw [hreduced] at hi'
    have hlt : i < (c.launch r (w.call r)).numTopk := Nat.lt_of_le_of_lt (Nat.le_of_lt_succ hi') hi
    obtain ⟨hcon, hsent⟩ := hkeep i hlt hpos hcon'
    by_cases hin : i = n
    · subst hin
      obtain ⟨row, hrow, hword⟩ := hinv.slot_word hf hintact hr rfl hred ht hi hpos
        (word_lt rfl hwarp rfl) hcon
      refine ⟨row, hsent row hrow, ?_⟩
      rw [Function.update_self, ← hread]
      exact hword
    · obtain ⟨row, hrow, hword⟩ := hy i (by omega) hpos hcon
      refine ⟨row, hsent row hrow, ?_⟩
      rw [Function.update_of_ne hin]
      exact hword
  · have hsame : c.reduce (w.call r) r t y n =
        c.reduce (w.call r) r t (Function.update y n word) n :=
      reduce_congr fun i hi' _ => (Function.update_of_ne hi'.ne ..).symm
    rw [hreduced, acc_fire_accum, reduce_succ, Function.update_self, ← hsame, ← hacc]
    simp only [hn, true_and, hread]
  · rw [comb_fire_self] at hnew
    exact hnew

/-- The sums stay sums. -/
theorem Sums.fire (hinv : c.Inverts k m) (hf : c.Facts w)
    (hintact : c.Intact (fun n => n = m) w₀ w) (hen : c.enabled w a) {r t j : ℕ}
    (hr : r < c.numRanks) (ht : t < (c.launch r m).numTokens) (hm : m ≤ w.call r)
    (h : c.Sums k m w r t j) : c.Sums k m (c.fire w a) r t j := by
  have hv := hf.sound
  have hl := hf.launches
  have hcall := (hl.hasCall r hr).of_le hm
  have hord := Combine.order_of_runs (hl.comb r hr m hm hinv.combine)
  -- What the entries added so far rely on is kept by a step.
  have hkeep : (w.comb (r, m)).reducing = true → ∀ i < (c.launch r m).numTopk,
      0 ≤ c.entry m r t i → c.Connected (c.fire w a) k m r (c.entryOwner m r t i) →
      c.Connected w k m r (c.entryOwner m r t i) ∧ ∀ row, c.SentFor w m r t i row →
        c.SentFor (c.fire w a) m r t i row := by
    intro hred i hi hpos hcon
    have he := entry_lt hv hcall hr ht hi hpos
    have hs := hv.div_lt he
    exact ⟨hcon.of_fire hinv hl hf.answered hen hr hm hred he hs,
      fun row hsent => hsent.fire hv hl hinv hs⟩
  -- First the step that adds the next entry to this word.
  by_cases hadd : a = .combine r (.accum t (j / 128)) ∧ m = w.call r
  · obtain ⟨rfl, hcur⟩ := hadd
    have hred : (w.comb (r, m)).reducing = true := by
      rw [hcur]
      exact hen.2.2.1.1
    exact h.accum hinv hf hintact hcur hen (hkeep hred)
  · -- For any other step the entries added so far stay the same.
    obtain ⟨y, hy, hacc⟩ := h.acc
    have hy' : ∀ i < (w.comb (r, m)).reduced (t, j / 128), 0 ≤ c.entry m r t i →
        c.Connected (c.fire w a) k m r (c.entryOwner m r t i) →
        ∃ row, c.SentFor (c.fire w a) m r t i row ∧
          y i = ((c.calls m).input (c.entryOwner m r t i)).x row j := by
      intro i hi hpos hcon
      have hred := hord.reducing _ (.inl (Nat.ne_of_gt ((Nat.zero_le i).trans_lt hi)))
      obtain ⟨hcon, hsent⟩ := hkeep hred i (hi.trans_le (hord.reduced_le _)) hpos hcon
      obtain ⟨row, hrow, hword⟩ := hy i hi hpos hcon
      exact ⟨row, hsent row hrow, hword⟩
    -- Then the step that stores the sum.
    by_cases hstore : a = .combine r (.store t (j / 128)) ∧ m = w.call r
    · obtain ⟨rfl, rfl⟩ := hstore
      have hsame : ((c.fire w (.combine r (.store t (j / 128)))).comb (r, w.call r)).reduced =
          (w.comb (r, w.call r)).reduced := by
        rw [comb_fire_self]
        rfl
      refine ⟨⟨y, ?_, ?_⟩, fun _ => ?_⟩
      · rwa [hsame]
      · rw [hsame]
        exact hacc
      · rw [combined_fire_store, if_pos ⟨rfl, rfl⟩]
        rfl
    · -- All other steps leave the sum alone.
      obtain ⟨hacc', hcombined, hreduced, hstored⟩ := reduction_fire_of_ne (c := c) a
        (fun ha hm => hadd ⟨ha, hm⟩) fun ha hm => hstore ⟨ha, hm⟩
      refine ⟨⟨y, ?_, ?_⟩, ?_⟩
      · rwa [hreduced]
      · rw [hreduced, hacc', hacc]
      · rw [hstored, hcombined, hacc']
        exact h.combined

/-- The accumulators are sums in every separate run. -/
theorem sums_of_separate (hv : c.Sound) (hinv : c.Inverts k m)
    (hcopy : ∀ r < c.numRanks, ((c.calls m).input r).zeroCopy = false) (hw₀ : c.Init w₀)
    (h : (c.separate.startingAt w₀).Reachable w) :
    ∀ r < c.numRanks, ∀ t < (c.launch r m).numTokens, ∀ j, c.Sums k m w r t j := by
  refine h.invariant (I := fun w => ∀ r < c.numRanks, ∀ t < (c.launch r m).numTokens, ∀ j,
    c.Sums k m w r t j) ?_ ?_
  · rintro q rfl r _ t _ j
    refine ⟨⟨fun _ => 0, fun i hi => ?_, ?_⟩, fun hstored => ?_⟩
    · rw [(hw₀.comb _).reduced] at hi
      exact absurd hi (Nat.not_lt_zero i)
    · rw [(hw₀.comb _).reduced, hw₀.acc]
      rfl
    · rw [(hw₀.comb _).stored] at hstored
      cases hstored
  · rintro q a q' hfrom hold ⟨-, hen, rfl⟩ r hr t ht j
    have hf := facts_of_separate hv (hfrom.of_startingAt hw₀)
    by_cases hm : m ≤ q.call r
    · exact (hold r hr t ht j).fire hinv hf (intact_combine hv hinv hcopy hw₀ hfrom) hen hr ht hm
    · -- The call has not begun.
      have hfresh := (hf.launches.future r hr m (by omega)).2
      obtain ⟨y, -, hacc⟩ := (hold r hr t ht j).acc
      obtain ⟨hacc', hcombined, hreduced, hstored⟩ := reduction_fire_of_ne (c := c) (w := q) a
        (r := r) (m := m) (t := t) (j := j) (fun _ => by omega) fun _ => by omega
      show c.Sums k m (c.fire q a) r t j
      refine ⟨⟨y, fun i hi => ?_, ?_⟩, ?_⟩
      · rw [hreduced, hfresh.reduced] at hi
        exact absurd hi (Nat.not_lt_zero i)
      · rw [hreduced, hacc', hacc]
      · rw [hstored, hcombined, hacc']
        exact (hold r hr t ht j).combined

/-! ### Packed rows -/

/-- The row of the packed output of expert `e` in which call `m` put token `t` of rank `r`. -/
def PackedFor (c : Config A) (w : World A) (m r t e : ℕ) (row : ℤ) : Prop :=
  ∃ i, c.InRange w (e / c.numLocalExperts) m (e % c.numLocalExperts) r i ∧
    row = c.packedRow (e % c.numLocalExperts) i ∧ w.srcInfo (e / c.numLocalExperts, m) row = t

/-- The row that is sent for an entry is the one that the token was put into. -/
theorem SentFor.packedFor (hinv : c.Inverts k m) (hf : c.Facts w) {r t i : ℕ}
    {row : ℤ} (hr : r < c.numRanks) (he : (c.entry m r t i).toNat < c.numExperts)
    (h : c.SentFor w m r t i row) : c.PackedFor w k r t (c.entry m r t i).toNat row := by
  have hv := hf.sound
  obtain ⟨hle, n, hn, hrow, hinfo⟩ := h
  generalize (c.entry m r t i).toNat = e at he hle hn hrow hinfo
  have hs := hv.div_lt he
  have hmod := hv.mod_lt e
  have hgroup := hv.expert_lt hr hmod
  have hks := hinv.lt.trans_le hle
  rw [hinv.numRows_eq hf hs hle hgroup] at hn
  rw [hinv.combineRow_eq hf hs hle hgroup, (mul_add_div_mod hmod).2] at hrow
  rw [hinv.srcInfo_eq hs] at hinfo
  refine ⟨_, ?_, hrow, hinfo⟩
  have hin : c.InRange w (e / c.numLocalExperts) k _ _ _ :=
    (hf.inRange_iff hs hks.le hinv.dispatch (hf.launches.dispDone _ hs k hks hinv.dispatch)
      hgroup).mpr ⟨n, hn, rfl⟩
  rwa [(mul_add_div_mod hmod).1, (mul_add_div_mod hmod).2] at hin

/-- A token is in one row of each of its experts whose rank took the tokens. -/
theorem packedFor_unique (hinv : c.Inverts k m) (hf : c.Facts w) {r t i : ℕ}
    (hr : r < c.numRanks) (ht : t < (c.launch r m).numTokens) (hi : i < (c.launch r m).numTopk)
    (hpos : 0 ≤ c.entry m r t i) (hcall : c.HasCall m) (hend : k < w.call (c.entryOwner m r t i))
    (hcon : c.Connected w k m r (c.entryOwner m r t i)) :
    ∃! row, c.PackedFor w k r t (c.entry m r t i).toNat row := by
  have hv := hf.sound
  have he := entry_lt hv hcall hr ht hi hpos
  have htoken : t ∈ (c.launch r k).tokensFor (c.entry m r t i).toNat := by
    rw [Launch.tokensFor, Finset.mem_filter, Finset.mem_range]
    refine ⟨ht.trans_eq (hinv.numTokens r hr), i, hi.trans_eq (hinv.numTopk r hr), ?_⟩
    rw [Int.toNat_of_nonneg hpos]
    simp only [entry, launch, Launch.topk, hinv.topkIdx r hr, hinv.numTopk r hr]
  unfold entryOwner at hend hcon
  generalize (c.entry m r t i).toNat = e at he htoken hend hcon
  have hs := hv.div_lt he
  have hdelivered := hf.deliveredActive hs hend.le hinv.dispatch
    (hf.launches.dispDone _ hs k hend hinv.dispatch) (hv.mod_lt e)
  rw [← Nat.div_add_mod' e c.numLocalExperts] at htoken
  -- The owner has the token, so its range is not empty.
  have hcount := (hdelivered.count r hr).resolve_right fun hnone => hcon.taken hnone.2
  have hne : (c.packedRange w (e / c.numLocalExperts) k (e % c.numLocalExperts) r).1 ≠ 0 := by
    rw [hcount]
    exact Int.natCast_ne_zero.mpr (Finset.card_pos.mpr ⟨t, htoken⟩).ne'
  obtain ⟨n, ⟨hin, hinfo⟩, hunique⟩ := hdelivered.token r hr hne t htoken
  refine ⟨_, ⟨n, hin, rfl, hinfo⟩, ?_⟩
  rintro row ⟨n', hin', rfl, hinfo'⟩
  rw [hunique n' ⟨hin', hinfo'⟩]

/-! ### Output rows -/

/-- The words of a row are those of the warps that reduce it. -/
theorem warp_lt {l : CombineLaunch} {p : Shape} (hshape : p.Supported)
    (hhidden : l.hidden = p.hidden)
    {j : ℕ} (hj : j < p.hidden / 2) : j / 128 < l.numReduceWarps := by
  have hdvd : p.hidden % 256 = 0 := by
    unfold Shape.Supported at hshape
    simp only [List.mem_cons, List.not_mem_nil, or_false] at hshape
    omega
  simp only [CombineLaunch.numReduceWarps, hhidden]
  omega

/-- In separate runs the output row of a `combine` that a rank has finished is the weighted sum of
one word for each entry. For an entry of a rank in touch it is the word that the rank computed from
the one row in which the token is. -/
theorem exists_summands (hv : c.Sound) (hshape : c.shape.Supported) (hinv : c.Inverts k m)
    (hcopy : ∀ r < c.numRanks, ((c.calls m).input r).zeroCopy = false)
    (h : c.separate.Reachable w) {r t j : ℕ} (hr : r < c.numRanks) (hm : m ≤ w.call r)
    (hdone : (w.comb (r, m)).Done (c.combineLaunch w r m)) (ht : t < (c.launch r m).numTokens)
    (hj : j < c.shape.hidden / 2) :
    ∃ y : ℕ → Word,
      (∀ i < (c.launch r m).numTopk, 0 ≤ c.entry m r t i →
        c.Connected w k m r (c.entryOwner m r t i) →
          (∃! row, c.PackedFor w k r t (c.entry m r t i).toNat row) ∧
            ∀ row, c.PackedFor w k r t (c.entry m r t i).toNat row →
              y i = ((c.calls m).input (c.entryOwner m r t i)).x row j) ∧
      w.combined (r, m) (t, j) = c.round (c.reduce m r t y (c.launch r m).numTopk) := by
  obtain ⟨w₀, hw₀, hfrom⟩ := h.exists_startingAt
  have hf := facts_of_separate hv h
  have hl := hf.launches
  have hcall := (hl.hasCall r hr).of_le hm
  -- All entries have been added.
  have hord := Combine.order_of_runs (hl.comb r hr m hm hinv.combine)
  have hstored := hdone.2 t ht (j / 128) (warp_lt hshape rfl hj)
  have hsums := sums_of_separate hv hinv hcopy hw₀ hfrom r hr t ht j
  obtain ⟨y, hy, hacc⟩ := hsums.acc
  rw [hord.reduced_of_stored _ hstored] at hy hacc
  refine ⟨y, fun i hi hpos hcon => ?_, ?_⟩
  · obtain ⟨sent, hsent, hword⟩ := hy i hi hpos hcon
    have hpacked := hsent.packedFor hinv hf hr (entry_lt hv hcall hr ht hi hpos)
    have hunique := packedFor_unique hinv hf hr ht hi hpos hcall (hinv.lt.trans_le hsent.1) hcon
    refine ⟨hunique, fun row hrow => ?_⟩
    rw [hword, hunique.unique hpacked hrow]
  · rw [hsums.combined hstored, hacc]
    rfl

/-! ### One `dispatch` and its `combine` -/

/-- All ranks run a `dispatch` and then the `combine` of it, on different buffers. Neither cleans
the receive signals that it uses, and the rows of the `combine` go through the send buffer. -/
structure DispatchThenCombine (c : Config A) : Prop where
  length : c.length = some 2
  inverts : c.Inverts 0 1
  buf_ne : (c.calls 1).buf ≠ (c.calls 0).buf
  clean_ne : ∀ m < 2, (c.calls m).clean ≠ (c.calls m).buf
  zeroCopy : ∀ r < c.numRanks, ((c.calls 1).input r).zeroCopy = false

/-- Two calls on two buffers alternate. -/
theorem DispatchThenCombine.alternates (h : c.DispatchThenCombine) : c.Alternates where
  buf_succ m hm := by
    have hlt := (hasCall_iff_of_length h.length).mp hm
    obtain rfl : m = 0 := by omega
    exact h.buf_ne
  buf_add_two m hm := absurd ((hasCall_iff_of_length h.length).mp hm) (by omega)
  clean_ne m hm := h.clean_ne m ((hasCall_iff_of_length h.length).mp hm)
  clean_succ m hm := absurd ((hasCall_iff_of_length h.length).mp hm) (by omega)

/-- The two calls do not use zero copy. -/
theorem DispatchThenCombine.noZeroCopy (h : c.DispatchThenCombine) : c.NoZeroCopy := by
  intro m hm hkind
  have hlt := (hasCall_iff_of_length h.length).mp hm
  have hne : m ≠ 0 := by
    rintro rfl
    exact absurd (h.inverts.dispatch.symm.trans hkind) (by decide)
  obtain rfl : m = 1 := by omega
  exact h.zeroCopy

/-- Word `j` of the output row of a token is the sum of what the experts of the token computed for
it, from left to right. -/
structure Combines (c : Config A) (w : World A) (r t j : ℕ) : Prop where
  /-- The `dispatch` put the token into one row of each of its experts. -/
  unique : ∀ i < (c.launch r 1).numTopk, 0 ≤ c.entry 1 r t i →
    ∃! row, c.PackedFor w 0 r t (c.entry 1 r t i).toNat row
  /-- The row that the expert of an entry computed for the token is the one that is added. -/
  combined : ∀ row : ℕ → ℤ,
    (∀ i < (c.launch r 1).numTopk, 0 ≤ c.entry 1 r t i →
      c.PackedFor w 0 r t (c.entry 1 r t i).toNat (row i)) →
    w.combined (r, 1) (t, j) =
      c.round (c.reduce 1 r t (c.sentWord 1 r t j row) (c.launch r 1).numTopk)
  /-- Where the rows were does not matter, when every expert computes `y e` from the token. -/
  packing : ∀ y : ℕ → Word,
    (∀ e < c.numExperts, ∀ row, c.PackedFor w 0 r t e row →
      ((c.calls 1).input (e / c.numLocalExperts)).x row j = y e) →
    w.combined (r, 1) (t, j) =
      c.round (c.reduce 1 r t (fun i => y (c.entry 1 r t i).toNat) (c.launch r 1).numTopk)

/-- `combine` inverts the routing of `dispatch`, in every run of both. -/
theorem combine_inverts_dispatch (c : Config A) (hv : c.Valid) (hshape : c.shape.Supported)
    (htwo : c.DispatchThenCombine) (w : World A) (hw : c.system.Reachable w) (hfin : c.Finished w)
    (r : ℕ) (hr : r < c.numRanks) (t : ℕ) (ht : t < (c.launch r 1).numTokens) (j : ℕ)
    (hj : j < c.shape.hidden / 2) : c.Combines w r t j := by
  have hinv := htwo.inverts
  have hsep := separate_of_alternates hv htwo.alternates hw
  have hcall : w.call r = 1 := by
    have hlast := (hfin r hr).1
    rw [htwo.length] at hlast
    have := Option.some.inj hlast
    omega
  have hlast : c.HasCall 1 := (hasCall_iff_of_length htwo.length).mpr (by decide)
  have hdone := (hfin r hr).2.2 (by rw [hcall]; exact hinv.combine)
  rw [hcall] at hdone
  obtain ⟨y, hy, hcombined⟩ := exists_summands hv.sound hshape hinv htwo.zeroCopy hsep hr hcall.ge
    hdone ht hj
  -- Without timeouts every entry is one of a rank in touch.
  have he : ∀ i < (c.launch r 1).numTopk, 0 ≤ c.entry 1 r t i →
      (c.entry 1 r t i).toNat < c.numExperts := fun i hi hpos => entry_lt hv hlast hr ht hi hpos
  have hentry : ∀ i < (c.launch r 1).numTopk, 0 ≤ c.entry 1 r t i → _ ∧ _ := fun i hi hpos =>
    hy i hi hpos ((facts_of_separate hv.sound hsep).connected hv hinv hr hcall.ge hdone.1
      (he i hi hpos))
  refine ⟨fun i hi hpos => (hentry i hi hpos).1, fun row hrow => ?_, fun y' hy' => ?_⟩
  · rw [hcombined]
    exact congrArg c.round (reduce_congr fun i hi hpos =>
      (hentry i hi hpos).2 (row i) (hrow i hi hpos))
  · rw [hcombined]
    refine congrArg c.round (reduce_congr fun i hi hpos => ?_)
    obtain ⟨row, hrow, -⟩ := (hentry i hi hpos).1
    exact ((hentry i hi hpos).2 row hrow).trans (hy' _ (he i hi hpos) row hrow)

/-! ### A run of two ranks -/

/-- The two ranks run a `dispatch` and its `combine`. -/
theorem twoRanks_dispatchThenCombine :
    (twoRanks (some 2) id fun k => k + 1).DispatchThenCombine where
  length := rfl
  inverts :=
    ⟨Nat.zero_lt_one, rfl, rfl, fun _ _ => rfl, fun _ _ => rfl, fun _ _ => rfl, fun _ _ => rfl⟩
  buf_ne := Nat.one_ne_zero
  clean_ne m _ := Nat.succ_ne_self m
  zeroCopy _ _ := rfl

/-- The run of two ranks in which each token comes back as the sum over its experts. -/
theorem combine_inverts_dispatch_twoRanks :
    let c := twoRanks (some 2) id fun k => k + 1
    c.Combines (c.machine.exec blank wholeCombine) 0 0 0 := by
  intro c
  have hrun : c.machine.Legal blank wholeCombine ∧
      c.Finished (c.machine.exec blank wholeCombine) := by decide +kernel
  exact combine_inverts_dispatch c (twoRanks_valid (by simp) _ _) (by decide)
    twoRanks_dispatchThenCombine _ (Machine.reachable_exec _ (.init (blank_init _ _ _)) hrun.1)
    hrun.2 0 (by decide) 0 (by decide) 0 (by decide)

end EpDemo.System.Config
