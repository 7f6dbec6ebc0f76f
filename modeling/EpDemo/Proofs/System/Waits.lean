import EpDemo.Proofs.System.Undisturbed
import Mathlib.Algebra.Group.Action.Defs

/-!
# `EpDemo.Proofs.System.Waits`: what the signal waits that have ended have read

Where every signal wait is ended by the signal of its own call (`OwnSignal`), a wait that has ended
has read that signal, or it has given its source up:

* `settled_of_run`: a group of `dispatch` has the count that its source sent, or none from a source
  that is not active any more,
* `answered_of_run`: the same for the flags of `combine`, and
* `claimsDecoded_of_run`: the rows are claimed for the counts that were decoded, whichever they are.

Without timeouts no source is given up, so a wait ends after the messages that the signal announces
have landed (`acquired_of_run`).
-/

set_option autoImplicit false

namespace EpDemo.System.Config

open EpDemo.Kernel EpDemo.Library

variable {A : Type} {c : Config A} {w : World A} {a : Action}

/-! ### Counts -/

/-- The messages that group `e` of rank `r` receives in a `dispatch`. -/
def recvCount (c : Config A) (m r e : ℕ) : ℕ :=
  (c.launch (e / c.numLocalExperts) m).numTokensSent
    (r * c.numLocalExperts + e % c.numLocalExperts)

/-- A token is sent to an expert at most once. -/
theorem task_inj (hv : c.Sound) {m r e : ℕ} (hm : c.HasCall m) (hr : r < c.numRanks)
    {key key' : ℕ × ℕ} (hkey : key ∈ (c.launch r m).tasks e) (hkey' : key' ∈ (c.launch r m).tasks e)
    (heq : key.1 = key'.1) : key = key' := by
  obtain ⟨t, i⟩ := key
  obtain ⟨t', j⟩ := key'
  have heq : t = t' := heq
  subst heq
  obtain ⟨⟨ht, -⟩, hi⟩ := (Launch.mem_tasks _).mp hkey
  obtain ⟨-, hj⟩ := (Launch.mem_tasks _).mp hkey'
  have hpos : (0 : ℤ) ≤ e := Int.natCast_nonneg e
  have hik := Launch.lt_numTopk_of_dst _ (hi ▸ hpos)
  have hjk := Launch.lt_numTopk_of_dst _ (hj ▸ hpos)
  rw [Launch.dstExpertIdx_of_lt _ hik] at hi
  rw [Launch.dstExpertIdx_of_lt _ hjk] at hj
  rw [hv.distinct hm hr t ht i hik j hjk (hi ▸ hpos) (hi.trans hj.symm)]

/-- An expert gets a token of a rank at most once. -/
theorem numTokensSent_le (hv : c.Sound) {m r : ℕ} (hm : c.HasCall m) (hr : r < c.numRanks) (e : ℕ) :
    (c.launch r m).numTokensSent e ≤ (c.launch r m).numTokens := by
  rw [Launch.numTokensSent_eq_card_tasks _ (hv.fits hm hr).numTopk_le,
    ← Finset.card_range (c.launch r m).numTokens]
  refine Finset.card_le_card_of_injOn Prod.fst ?_ ?_
  · rintro ⟨t, i⟩ hti
    exact Finset.mem_coe.mpr (Finset.mem_range.mpr ((Launch.mem_tasks _).mp hti).1.1)
  · exact fun key hkey key' hkey' heq => task_inj hv hm hr hkey hkey' heq

/-- A group gets at most as many messages as there are rows for its source. -/
theorem recvCount_le (hv : c.Sound) {m r e : ℕ} (hm : c.HasCall m) (he : e < c.numExperts) :
    c.recvCount m r e ≤ c.numMaxDispatchTokensPerRank := by
  have hs := hv.div_lt he
  exact (numTokensSent_le hv hm hs _).trans (hv.numTokens_le hm hs)

/-- The groups of a local expert, one for each rank. -/
theorem card_groups_le (hv : c.Sound) (le : ℕ) :
    ((Finset.range c.numExperts).filter fun e => e % c.numLocalExperts = le).card ≤ c.numRanks := by
  rw [← Finset.card_range c.numRanks]
  refine Finset.card_le_card_of_injOn (· / c.numLocalExperts) ?_ ?_
  · intro e he
    have he := (Finset.mem_filter.mp he).1
    exact Finset.mem_coe.mpr (Finset.mem_range.mpr (hv.div_lt (Finset.mem_range.mp he)))
  · intro e he e' he' heq
    have hmod := (Finset.mem_filter.mp he).2.trans (Finset.mem_filter.mp he').2.symm
    rw [← Nat.div_add_mod e c.numLocalExperts, ← Nat.div_add_mod e' c.numLocalExperts, hmod]
    exact congrArg (fun x => c.numLocalExperts * x + e' % c.numLocalExperts) heq

/-- The rows of a local expert. -/
def stride (c : Config A) : ℕ := c.numRanks * c.numMaxDispatchTokensPerRank

/-- The messages for a local expert fit its rows. -/
theorem sum_recvCount_le (hv : c.Sound) {m r : ℕ} (hm : c.HasCall m) (le : ℕ) :
    ∑ e ∈ Finset.range c.numExperts with e % c.numLocalExperts = le, c.recvCount m r e ≤
      c.stride := by
  refine (Finset.sum_le_card_nsmul _ _ c.numMaxDispatchTokensPerRank ?_).trans ?_
  · intro e he
    exact recvCount_le hv hm (Finset.mem_range.mp (Finset.mem_filter.mp he).1)
  · rw [smul_eq_mul]
    exact Nat.mul_le_mul_right _ (card_groups_le hv le)

/-- The rows of one expert fit an `int`. -/
theorem Sound.stride_lt (hv : c.Sound) : c.stride < 2 ^ 31 := by
  refine (Nat.mul_le_mul_right _ ?_).trans_lt hv.rows_lt
  rw [← hv.numExperts_eq]
  exact Nat.le_mul_of_pos_right _ hv.numLocalExperts_pos

/-- The value of a signal of `dispatch` encodes the count. -/
theorem count_of_signalValue (hv : c.Sound) {m r e : ℕ} (hcall : c.HasCall m)
    (hkind : (c.calls m).kind = .dispatch) (he : e < c.numExperts) :
    toInt32 (-(c.signalValue m (e / c.numLocalExperts)
      (r * c.numLocalExperts + e % c.numLocalExperts)) - 1) = c.recvCount m r e := by
  have hle : c.recvCount m r e ≤ c.stride :=
    (recvCount_le hv hcall he).trans (Nat.le_mul_of_pos_left _ hv.numRanks_pos)
  have hlt := hv.stride_lt
  have hcount : c.recvCount m r e = (c.launch (e / c.numLocalExperts) m).numTokensSent
      (r * c.numLocalExperts + e % c.numLocalExperts) := rfl
  rw [signalValue, hkind]
  simp only [← hcount]
  rw [toInt32_of_range (z := -(c.recvCount m r e : ℤ) - 1) (by omega) (by omega)]
  rw [show -(-(c.recvCount m r e : ℤ) - 1) - 1 = c.recvCount m r e by ring]
  exact toInt32_natCast (by omega)

/-! ### Signals -/

/-- The entry that a group waits for is signalled by the rank of the group. -/
theorem cell_of_waitCell (hv : c.Sound) {m r e : ℕ} (he : e < c.numExperts) :
    c.cellSender m (c.waitCell m e) = e / c.numLocalExperts ∧
      c.cellExpert m r (c.waitCell m e) = r * c.numLocalExperts + e % c.numLocalExperts := by
  have hdiv := hv.div_lt he
  unfold cellSender cellExpert waitCell
  cases (c.calls m).kind with
  | dispatch =>
    simp only [mul_add_div_mod hdiv]
    exact ⟨trivial, trivial⟩
  | combine => exact ⟨rfl, rfl⟩

section

variable {r e : ℕ} {v : ℤ}

/-- A signal wait that its own signal ends has read a signal that has landed. -/
theorem landed_of_acquired (hv : c.Sound) (hs : c.Signals w) (hown : c.OwnSignal w a)
    (hen : c.enabled w a) (hacq : a.acquired = some (r, e, v)) :
    c.Landed w (w.call r) (e / c.numLocalExperts)
      (.signal (r * c.numLocalExperts + e % c.numLocalExperts)) := by
  obtain ⟨hr, he, -, -⟩ := of_acquired hen hacq
  obtain ⟨x, hx, hxm⟩ := List.mem_map.mp (hown r e v hacq).1
  have hland := (hs.landed _ r hr _ (waitCell_lt hv he) x hx).2
  rwa [hxm, (cell_of_waitCell hv he (r := r)).1, (cell_of_waitCell hv he).2] at hland

/-- In a `dispatch` it has read the count. -/
theorem count_of_acquired (hv : c.Sound) (hl : c.Launches w) (hs : c.Signals w)
    (hown : c.OwnSignal w a) (hen : c.enabled w a) (hkind : (c.calls (w.call r)).kind = .dispatch)
    (hacq : a.acquired = some (r, e, v)) : toInt32 (-v - 1) = c.recvCount (w.call r) r e := by
  obtain ⟨hr, he, -, hread⟩ := of_acquired hen hacq
  have hcall := hl.hasCall r hr
  obtain ⟨x, hx, hxm⟩ := List.map_eq_singleton_iff.mp ((hown r e v hacq).2 hkind)
  have hword := hs.word _ hcall r hr _ (waitCell_lt hv he (m := w.call r))
  have hvalue :=
    hs.value _ r hr _ (waitCell_lt hv he) x (by rw [hx]; exact List.mem_singleton_self _)
  rw [hxm, (cell_of_waitCell hv he (r := r)).1, (cell_of_waitCell hv he).2] at hvalue
  -- There is no other signal in the word.
  have hsum : v = c.signalValue (w.call r) (e / c.numLocalExperts)
      (r * c.numLocalExperts + e % c.numLocalExperts) := by
    rw [← hread, hword, hx, List.map_singleton, List.sum_singleton, hvalue, signalValue_range]
  rw [hsum]
  exact count_of_signalValue hv hcall hkind he

end

/-! ### What the waits have read -/

/-- A group of a `dispatch` that has a count has the one that its source sent, and the signal has
landed, or it has none because the source is not active. -/
def Settled (c : Config A) (w : World A) : Prop :=
  ∀ d < c.numRanks, ∀ m, (c.calls m).kind = .dispatch → ∀ e < c.numExperts,
    ((w.disp (d, m)).recv e).hasCount = true →
      (w.disp (d, m)).numRecv e = c.recvCount m d e ∧
          c.Landed w m (e / c.numLocalExperts)
            (.signal (d * c.numLocalExperts + e % c.numLocalExperts)) ∨
        (w.disp (d, m)).numRecv e = 0 ∧
          (w.disp (d, m)).activeRanks (e / c.numLocalExperts) = 0

/-- A signal wait of a `combine` that has ended has read the signal of its call, or the source is
not active. -/
def Answered (c : Config A) (w : World A) : Prop :=
  ∀ r < c.numRanks, ∀ m, (c.calls m).kind = .combine → ∀ e < c.numExperts,
    (w.comb (r, m)).recv e = .passed →
      c.Landed w m (e / c.numLocalExperts)
          (.signal (r * c.numLocalExperts + e % c.numLocalExperts)) ∨
        (w.comb (r, m)).activeRanks (e / c.numLocalExperts) = 0

section

variable {C : World A → Action → Prop}

/-- In runs whose waits read their own signals, every count is the one that was sent. -/
theorem settled_of_run (hown : ∀ w a, C w a → c.OwnSignal w a) (hv : c.Sound)
    (h : (c.system.restrict C).Reachable w) : c.Settled w := by
  refine h.invariant ?_ ?_
  · -- At the start no wait is over.
    intro q hq d _ m _ e _ hcount
    rw [(hq.disp _).recv] at hcount
    cases hcount
  · rintro q a q' hreach hold ⟨hstep, hen, rfl⟩ d hd m hkind e he hcount
    have hreach := hreach.of_restrict
    have hl := launches_of_reachable hv hreach
    -- What has landed stays landed.
    have hland : c.Landed q m _ (.signal _) → c.Landed (c.fire q a) m (e / c.numLocalExperts)
        (.signal (d * c.numLocalExperts + e % c.numLocalExperts)) := fun hland =>
      ((queues_of_reachable hv hreach).landed_fire hv hl hen _ _ _).mpr (.inl hland)
    replace hcount : (((c.fire q a).disp (d, m)).recv e).hasCount = true := hcount
    show ((c.fire q a).disp (d, m)).numRecv e = _ ∧ c.Landed (c.fire q a) m _ _ ∨
      ((c.fire q a).disp (d, m)).numRecv e = 0 ∧ ((c.fire q a).disp (d, m)).activeRanks _ = 0
    -- First a step of this kernel.
    by_cases hrun : ∃ b, a = .dispatch d b ∧ m = q.call d
    · obtain ⟨b, rfl, rfl⟩ := hrun
      obtain ⟨-, -, hb, -⟩ := id hen
      rw [disp_fire_self] at hcount ⊢
      -- The wait was over before, or the word was taken, or the rank was given up.
      rcases Dispatch.hasCount_cases hb hcount with hbefore | ⟨v, rfl, hnum⟩ | ⟨rfl, hnum⟩
      · rw [(Dispatch.hasCount_mono hb hbefore).2]
        exact (hold d hd _ hkind e he hbefore).imp (And.imp_right hland)
          (And.imp_right Dispatch.inactive_fire)
      · have hs := signals_of_reachable hv hreach
        have hacq := hown q _ hstep
        exact .inl ⟨hnum.trans (count_of_acquired hv hl hs hacq hen hkind rfl),
          hland (landed_of_acquired hv hs hacq hen rfl)⟩
      · exact .inr ⟨hnum, hb.2.2⟩
    · -- No other step touches the wait.
      have hother : ∀ b, a = .dispatch d b → m ≠ q.call d := fun b hb hm => hrun ⟨b, hb, hm⟩
      rw [(disp_pc_fire a hother).2.2.2.2] at hcount
      rw [disp_fire_of_le a (hl.le_of_hasCount hd hcount) hother]
      exact (hold d hd m hkind e he hcount).imp_left (And.imp_right hland)

/-- In such runs every wait of a `combine` that has ended was answered, or the source was given
up. -/
theorem answered_of_run (hown : ∀ w a, C w a → c.OwnSignal w a) (hv : c.Sound)
    (h : (c.system.restrict C).Reachable w) : c.Answered w := by
  refine h.invariant ?_ ?_
  · -- At the start no wait is over.
    intro q hq r _ m _ e _ hpassed
    rw [(hq.comb _).recv] at hpassed
    cases hpassed
  · rintro q a q' hreach hold ⟨hstep, hen, rfl⟩ r hr m hkind e he hpassed
    have hreach := hreach.of_restrict
    have hl := launches_of_reachable hv hreach
    -- What has landed stays landed.
    have hland : c.Landed q m _ (.signal _) → c.Landed (c.fire q a) m (e / c.numLocalExperts)
        (.signal (r * c.numLocalExperts + e % c.numLocalExperts)) := fun hland =>
      ((queues_of_reachable hv hreach).landed_fire hv hl hen _ _ _).mpr (.inl hland)
    replace hpassed : ((c.fire q a).comb (r, m)).recv e = .passed := hpassed
    show c.Landed (c.fire q a) m _ _ ∨ ((c.fire q a).comb (r, m)).activeRanks _ = 0
    -- First a step of this kernel.
    by_cases hrun : ∃ b, a = .combine r b ∧ m = q.call r
    · obtain ⟨b, rfl, rfl⟩ := hrun
      obtain ⟨-, -, hb, -⟩ := id hen
      rw [comb_fire_self] at hpassed ⊢
      -- The wait was over before, or the word was taken, or the rank was given up.
      rcases Combine.passed_cases hb hpassed with hbefore | ⟨v, rfl⟩ | ⟨rfl, hinactive⟩
      · exact (hold r hr _ hkind e he hbefore).imp hland Combine.inactive_fire
      · exact .inl (hland (landed_of_acquired hv (signals_of_reachable hv hreach) (hown q _ hstep)
          hen rfl))
      · exact .inr hinactive
    · -- No other step touches the wait.
      have hother : ∀ b, a = .combine r b → m ≠ q.call r := fun b hb hm => hrun ⟨b, hb, hm⟩
      rw [(comb_pc_fire a hother).2.2.2] at hpassed
      rw [comb_fire_of_le a (hl.le_of_passed hr hpassed) hother]
      exact (hold r hr m hkind e he hpassed).imp_left hland

end

/-! ### Ranges -/

section

variable {d m e : ℕ}

/-- A count that was decoded is not negative. -/
theorem Settled.numRecv_eq (h : c.Settled w) (hd : d < c.numRanks)
    (hkind : (c.calls m).kind = .dispatch) (he : e < c.numExperts)
    (hcount : ((w.disp (d, m)).recv e).hasCount = true) :
    (w.disp (d, m)).numRecv e = (w.disp (d, m)).decodedCount e := by
  rw [Dispatch.State.decodedCount_of_hasCount hcount]
  cases h d hd m hkind e he hcount with
  | inl hsent => rw [hsent.1, Int.toNat_natCast]
  | inr hzero => rw [hzero.1]; rfl

/-- A group does not take more than its source has. -/
theorem Settled.decodedCount_le (h : c.Settled w) (hd : d < c.numRanks)
    (hkind : (c.calls m).kind = .dispatch) (he : e < c.numExperts) :
    (w.disp (d, m)).decodedCount e ≤ c.recvCount m d e := by
  by_cases hcount : ((w.disp (d, m)).recv e).hasCount = true
  · have heq := h.numRecv_eq hd hkind he hcount
    cases h d hd m hkind e he hcount with
    | inl hsent => rw [hsent.1] at heq; omega
    | inr hzero => rw [hzero.1] at heq; omega
  · exact (if_neg hcount).le.trans (Nat.zero_le _)

/-- The rows that the groups of a local expert take fit its rows. -/
theorem Settled.sum_le (hv : c.Sound) (h : c.Settled w) (hd : d < c.numRanks) (hm : c.HasCall m)
    (hkind : (c.calls m).kind = .dispatch) (le : ℕ) :
    ∑ e ∈ Finset.range c.numExperts with e % c.numLocalExperts = le,
      (w.disp (d, m)).decodedCount e ≤ c.stride :=
  (Finset.sum_le_sum fun _ he =>
    h.decodedCount_le hd hkind (Finset.mem_range.mp (Finset.mem_filter.mp he).1)).trans
      (sum_recvCount_le hv hm le)

end

/-- The claims of every `dispatch` are for the counts that it decoded. -/
def ClaimsDecoded (c : Config A) (w : World A) : Prop :=
  ∀ d < c.numRanks, ∀ m, (c.calls m).kind = .dispatch →
    Dispatch.Claims (c.launch d m) (w.disp (d, m)).decodedCount (w.disp (d, m))

section

variable {C : World A → Action → Prop}

/-- In such runs rows are claimed for the counts that were decoded. -/
theorem claimsDecoded_of_run (hown : ∀ w a, C w a → c.OwnSignal w a) (hv : c.Sound)
    (h : (c.system.restrict C).Reachable w) : c.ClaimsDecoded w := by
  refine h.invariant (fun q hq d _ m _ => .fresh (hq.disp _)) ?_
  rintro q a q' hreach hold hstep d hd m hkind
  have hsettled := settled_of_run hown hv (.step hreach hstep)
  obtain ⟨-, hen, rfl⟩ := hstep
  replace hsettled : c.Settled (c.fire q a) := hsettled
  have hl := launches_of_reachable hv hreach.of_restrict
  show Dispatch.Claims _ ((c.fire q a).disp (d, m)).decodedCount ((c.fire q a).disp (d, m))
  by_cases hrun : ∃ b, a = .dispatch d b ∧ m = q.call d
  · obtain ⟨b, rfl, rfl⟩ := hrun
    obtain ⟨-, -, hb, -⟩ := id hen
    have hself := disp_fire_self (c := c) (w := q) d b
    have hsum := hsettled.sum_le hv hd (hl.hasCall d hd) hkind
    have hnum : ∀ e < c.numExperts, _ → _ := fun e he => hsettled.numRecv_eq hd hkind he
    rw [hself] at hsum hnum ⊢
    -- The counts change for groups that have claimed nothing yet.
    have hnow := (hold d hd _ hkind).congr_count fun e hc => (Dispatch.decodedCount_fire hb hc).symm
    refine hnow.fire hv.numLocalExperts_pos (Nat.div_le_self ..) (fun e he => hv.div_lt he)
      (fun le _ => (hsum le).trans_lt hv.stride_lt)
      (Dispatch.order_of_runs (hl.disp d hd _ le_rfl hkind))
      hb ?_ ?_
    · rintro e v rfl
      have hgot :
          (Dispatch.fire (c.launch d (q.call d)) (q.disp (d, q.call d)) (.acquire e v)).recv e =
          .got := Function.update_self ..
      have hread :
          (Dispatch.fire (c.launch d (q.call d)) (q.disp (d, q.call d)) (.acquire e v)).numRecv
            e = toInt32 (-v - 1) := Function.update_self ..
      rw [← hread]
      exact hnum e hb.2.1 (by rw [hgot]; rfl)
    · rintro e rfl
      have hgot :
          (Dispatch.fire (c.launch d (q.call d)) (q.disp (d, q.call d)) (.giveUp e)).recv e =
          .got := Function.update_self ..
      have hzero :
          (Dispatch.fire (c.launch d (q.call d)) (q.disp (d, q.call d)) (.giveUp e)).numRecv e =
          0 := Function.update_self ..
      have heq := hnum e hb.1 (by rw [hgot]; rfl)
      rw [hzero] at heq
      omega
  · obtain ⟨ws, activeRanks, heq⟩ :=
      disp_fire_of_ne (c := c) (w := q) a fun b hb hm => hrun ⟨b, hb, hm⟩
    rw [heq]
    exact (hold d hd m hkind).congr_same rfl rfl rfl rfl rfl rfl rfl

/-! ### Without timeouts -/

/-- A signal wait that has ended was for a signal that has landed. -/
def Acquired (c : Config A) (w : World A) : Prop :=
  ∀ r < c.numRanks, ∀ m, ∀ e < c.numExperts, c.Taken w m r e →
    c.Landed w m (e / c.numLocalExperts) (.signal (r * c.numLocalExperts + e % c.numLocalExperts))

/-- No source is given up, so the waits that have ended have read their signals. -/
theorem acquired_of_run (hown : ∀ w a, C w a → c.OwnSignal w a) (hv : c.Valid)
    (h : (c.system.restrict C).Reachable w) : c.Acquired w := by
  have hl := launches_of_reachable hv h.of_restrict
  have hone : ¬(1 : ℤ) = 0 := one_ne_zero
  intro r hr m e he htaken
  unfold Taken at htaken
  cases hkind : (c.calls m).kind with
  | dispatch =>
    simp only [hkind] at htaken
    have hactive := (hl.active hv r hr m (hl.le_of_hasCount hr htaken)).1 hkind
    refine ((settled_of_run hown hv h r hr m hkind e he htaken).resolve_right fun hnone => ?_).2
    rw [hactive] at hnone
    exact hone hnone.2
  | combine =>
    simp only [hkind] at htaken
    have hactive := (hl.active hv r hr m (hl.le_of_passed hr htaken)).2 hkind
    refine (answered_of_run hown hv h r hr m hkind e he htaken).resolve_right fun hnone => ?_
    rw [hactive] at hnone
    exact hone hnone

end

/-- Without timeouts no source is given up, so the signals of all ended waits have landed. -/
theorem acquired_of_undisturbed (hv : c.Valid) (h : c.undisturbed.Reachable w) : c.Acquired w :=
  acquired_of_run (fun _ _ hstep => hstep.acquired) hv h

end EpDemo.System.Config
