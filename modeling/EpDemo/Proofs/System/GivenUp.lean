import EpDemo.Proofs.System.CombineReduces
import EpDemo.Proofs.System.LateSignals
import EpDemo.Proofs.System.SharedBuffer

/-!
# `EpDemo.Proofs.System.GivenUp`: what the kernels deliver when they give ranks up

With timeouts a group may stop waiting for its source. It then takes nothing from it, and marks the
source as inactive. In separate runs this is all that a timeout costs:

* `delivers_despite_timeouts`: a `dispatch` that a rank has finished has for every local expert and
  source either all tokens of the source, each once, or none, and none only from a source with no
  tokens or an inactive one.
* `inverts_despite_timeouts`: a `combine` that a rank has finished has added the row that its expert
  computed for every entry whose owner is `Connected`. Where one of the two has given the other up,
  the entry contributes whatever its slot holds, and it spoils no other entry.

Punctual runs are separate (`separate_of_punctual`), and so is a round on two buffers in which every
wait is ended by its own signal (`separate_of_round`).
-/

set_option autoImplicit false

namespace EpDemo.System.Config

open EpDemo.Kernel EpDemo.Library

variable {A : Type} {c : Config A} {w : World A} {a : Action}

/-! ### `dispatch` -/

/-- In separate runs a `dispatch` that a rank has finished has delivered, whatever it gave up. -/
theorem delivers_despite_timeouts (c : Config A) (hv : c.Sound) (w : World A)
    (hw : c.separate.Reachable w) (d : ℕ) (hd : d < c.numRanks) (m : ℕ) (hm : m ≤ w.call d)
    (hkind : (c.calls m).kind = .dispatch) (hdone : (w.disp (d, m)).Done (c.launch d m)) (le : ℕ)
    (hle : le < c.numLocalExperts) : c.DeliveredActive w d m le :=
  (facts_of_separate hv hw).deliveredActive hd hm hkind hdone hle

/-- Rank 1 finishes its first `dispatch` while rank 0 has not started. -/
def givenUpSchedule : List Action := sendPhase 1 false ++ recvAlone.map (Action.dispatch 1)

/-- Rank 1 has given rank 0 up, and what it sent to itself is delivered. -/
theorem delivers_despite_timeouts_lateRanks :
    lateRanks.DeliveredActive (lateRanks.machine.exec blank givenUpSchedule) 1 0 2 := by
  have hlegal : (lateRanks.machine.guarded lateRanks.FirstCall).Legal blank givenUpSchedule := by
    decide +kernel
  have hdone :
      ((lateRanks.machine.exec blank givenUpSchedule).disp (1, 0)).Done (lateRanks.launch 1 0) := by
    decide +kernel
  have hpunctual := punctual_of_first lateRanks_sound
    (Machine.reachable_restrict_exec givenUpSchedule (.init lateRanks_init) hlegal)
  exact delivers_despite_timeouts lateRanks lateRanks_sound _
    (separate_of_punctual lateRanks_sound lateRanks_takesTurns hpunctual) 1 (by decide) 0
    (Nat.zero_le _) rfl hdone 2 (by decide)

/-! ### `combine` -/

/-- Word `j` of the output row that the `combine` of call `k` has for a token, of whose experts
some may be on ranks that are out of touch. -/
structure InvertedConnected (c : Config A) (w : World A) (k m r t j : ℕ) : Prop where
  /-- Call `k` put the token into one row of each of its experts on ranks in touch. -/
  unique : ∀ i < (c.launch r m).numTopk, 0 ≤ c.entry m r t i →
    c.Connected w k m r (c.entryOwner m r t i) →
    ∃! row, c.PackedFor w k r t (c.entry m r t i).toNat row
  /-- When expert `e` of a rank in touch computes `y e` from the row of the token, the output is
  the weighted sum of these and of some words for the other entries. -/
  combined : ∀ y : ℕ → Word,
    (∀ e < c.numExperts, c.Connected w k m r (e / c.numLocalExperts) →
      ∀ row, c.PackedFor w k r t e row →
        ((c.calls m).input (e / c.numLocalExperts)).x row j = y e) →
    ∃ z : ℕ → Word,
      (∀ i < (c.launch r m).numTopk, 0 ≤ c.entry m r t i →
        c.Connected w k m r (c.entryOwner m r t i) → z i = y (c.entry m r t i).toNat) ∧
      w.combined (r, m) (t, j) = c.round (c.reduce m r t z (c.launch r m).numTopk)

/-- In separate runs a `combine` that a rank has finished has added up what the experts on ranks in
touch computed, whatever was given up. -/
theorem inverts_despite_timeouts (c : Config A) (hv : c.Sound) (hshape : c.shape.Supported)
    (k m : ℕ) (hinv : c.Inverts k m)
    (hcopy : ∀ r < c.numRanks, ((c.calls m).input r).zeroCopy = false) (w : World A)
    (hw : c.separate.Reachable w) (r : ℕ) (hr : r < c.numRanks) (hm : m ≤ w.call r)
    (hdone : (w.comb (r, m)).Done (c.combineLaunch w r m)) (t : ℕ)
    (ht : t < (c.launch r m).numTokens) (j : ℕ) (hj : j < c.shape.hidden / 2) :
    c.InvertedConnected w k m r t j := by
  have hcall := ((launches_of_reachable hv hw.of_restrict).hasCall r hr).of_le hm
  obtain ⟨z, hz, hcombined⟩ := exists_summands hv hshape hinv hcopy hw hr hm hdone ht hj
  refine ⟨fun i hi hpos hcon => (hz i hi hpos hcon).1, fun y hy => ⟨z, fun i hi hpos hcon => ?_,
    hcombined⟩⟩
  obtain ⟨hunique, hword⟩ := hz i hi hpos hcon
  obtain ⟨row, hrow, -⟩ := hunique
  exact (hword row hrow).trans (hy _ (entry_lt hv hcall hr ht hi hpos) hcon row hrow)

/-! ### One round -/

/-- A word of receive data is in the buffer of the call that it belongs to. -/
theorem buf_of_dataFrom (hv : c.Sound) (h : c.system.Reachable w) :
    ∀ b p n, w.dataFrom b p = some n → b = (c.calls n).buf := by
  refine h.invariant (I := fun w => ∀ b p n, w.dataFrom b p = some n → b = (c.calls n).buf) ?_ ?_
  · intro q hq b p n hfrom
    rw [hq.dataFrom] at hfrom
    cases hfrom
  · rintro q a q' hreach hold ⟨hen, rfl⟩ b p n hfrom
    cases dataFrom_cases hv (launches_of_reachable hv hreach) (queues_of_reachable hv hreach) hen
      hfrom with
    | inl hbefore => exact hold b p n hbefore
    | inr hnew =>
      obtain ⟨r, key, content, -, hb, -⟩ := hnew
      exact hb

/-- In a round on two buffers the messages of different calls are apart, so only a signal can be
taken for another one. -/
theorem separate_of_round (hv : c.Sound) (hlen : c.length = some 2)
    (hbuf : (c.calls 1).buf ≠ (c.calls 0).buf) (h : (c.system.restrict c.OwnSignal).Reachable w) :
    c.separate.Reachable w := by
  refine h.mono (T := c.system.restrict c.OwnSignal) (U := c.separate) (fun _ hw => hw) ?_
  rintro q a q' hr ⟨hown, hs⟩
  have hreach := hr.of_restrict
  have hl := launches_of_reachable hv hreach
  have hq := queues_of_reachable hv hreach
  have hcall : ∀ r < c.numRanks, q.call r < 2 := fun r hr =>
    (hasCall_iff_of_length hlen).mp (hl.hasCall r hr)
  -- A buffer tells which of the two calls it is.
  have hsame : ∀ m n, m < 2 → n < 2 → (c.calls m).buf = (c.calls n).buf → m = n := by
    intro m n hm hn heq
    by_contra hne
    obtain ⟨rfl, rfl⟩ | ⟨rfl, rfl⟩ : m = 0 ∧ n = 1 ∨ m = 1 ∧ n = 0 := by omega
    · exact hbuf heq.symm
    · exact hbuf heq
  refine ⟨⟨⟨?_, ?_⟩, hown⟩, hs⟩
  · intro m r key content hland j _ n hfrom
    obtain ⟨s, hs, hn⟩ := dataFrom_le hv hreach hfrom
    exact .inl (hsame n m (hn.trans_lt (hcall s hs)) (hland.call_le.trans_lt (hcall r hland.rank))
      (buf_of_dataFrom hv hreach _ _ n hfrom).symm)
  · intro r _ m key hp hne heq
    obtain ⟨x, hx, -⟩ := id hp
    have hr := hq.rank r _ x hx
    have hm := hl.le_of_sent hr (hq.sent_of_pending hp)
    exact hne (hsame m _ (hm.trans_lt (hcall r hr)) (hcall r hr) heq)

/-- Two ranks with timeouts. The only token is on rank 0, with one expert on each rank. -/
def aloneRanks : Config ℕ :=
  let c := twoRanks (some 2) (· % 2) fun k => (k + 1) % 2
  { c with
    calls := fun k =>
      { c.calls k with
        input := fun r =>
          { (c.calls k).input r with
            numTopk := 2
            topkIdx := fun i => if i = 0 then 2 else 7
            timeoutTicks := 1000 } } }

/-- The `dispatch` of rank 0, which gives rank 1 up. -/
def dispatchAlone : List Dispatch.Action :=
  (List.range numTokenWarps).map (fun warp => Dispatch.Action.stage 0 warp) ++
    ([.reserve 0 0, .send 0 0, .finish 0 0, .reserve 0 1, .send 0 1, .finish 0 1] :
      List Dispatch.Action) ++
    (List.range 10).map Dispatch.Action.clean ++ (List.range 10).map Dispatch.Action.tag ++
    (List.range 10).map Dispatch.Action.count ++
    (List.range 10).flatMap (fun e =>
      ([.poll e, .signal e, .resetCounter e, .resetFinish e, .resetCount e] :
        List Dispatch.Action)) ++
    ([.gridSync, .acquire 0 (-1), .acquire 1 (-1), .acquire 2 (-2), .acquire 3 (-1),
      .acquire 4 (-1), .miss 5, .expire 5, .giveUp 5] : List Dispatch.Action) ++
    (List.range' 6 4).flatMap (fun e => ([.miss e, .giveUp e] : List Dispatch.Action)) ++
    (List.range 10).flatMap (fun e => ([.claim e, .publish e] : List Dispatch.Action)) ++
    ([.copyRow 2 0] : List Dispatch.Action)

/-- Its `combine`. -/
def combineBack : List Combine.Action :=
  (List.range 10).map Combine.Action.clean ++
    ([.publish, .sendRow 2 0] : List Combine.Action) ++
    (List.range 10).flatMap (fun e => ([.open e, .signal e, .drop e] : List Combine.Action)) ++
    (List.range 5).map (fun e => Combine.Action.acquire e 1) ++
    (List.range' 5 5).flatMap (fun e => ([.miss e, .giveUp e] : List Combine.Action)) ++
    ([.gridSync] : List Combine.Action) ++
    (List.range 8).flatMap fun warp =>
      ([.accum 0 warp, .accum 0 warp, .store 0 warp] : List Combine.Action)

/-- Rank 0 makes a whole round while rank 1 does nothing. -/
def aloneSchedule : List Action :=
  dispatchAlone.map (Action.dispatch 0) ++ ([.advance 0] : List Action) ++
    combineBack.map (Action.combine 0)

/-- The inputs of these ranks pass all checks. -/
theorem aloneRanks_sound : aloneRanks.Sound where
  hasCall := fun _ hn => by
    cases hn
    decide
  numRanks_pos := (by decide : 0 < 2)
  numExperts_pos := (by decide : 0 < 10)
  dvd := (by decide : 2 ∣ 10)
  numExperts_lt := (by decide : 10 < 2 ^ 31)
  rows_lt := (by decide : 10 * 1 < 2 ^ 31)
  mapped _ _ := ⟨rfl, rfl⟩
  input m hm r hr := by
    have hlt : (if r = 0 then 1 else 0) ≤ 1 := by split <;> decide
    have hv := @twoRanks_valid (some 2) (by simp) (· % 2) fun k => (k + 1) % 2
    refine ⟨hlt, (by decide : 2 ≤ kNumMaxTopK), ?_, ?_, ?_, rfl, (hv.input m hm r hr).source⟩
    · exact (Nat.mul_le_mul_right 2 hlt).trans_lt (by decide)
    · intro i _
      show toInt32 (if i = 0 then 2 else 7) < 10
      split <;> decide
    · -- The two entries of a token are different.
      intro t ht i hi j hj _ heq
      have ht : t < if r = 0 then 1 else 0 := ht
      obtain rfl : t = 0 := by omega
      have heq : toInt32 (if 0 * 2 + i = 0 then 2 else 7) =
          toInt32 (if 0 * 2 + j = 0 then 2 else 7) := heq
      obtain rfl | rfl := Nat.le_one_iff_eq_zero_or_eq_one.mp (Nat.le_of_lt_succ hi) <;>
        obtain rfl | rfl := Nat.le_one_iff_eq_zero_or_eq_one.mp (Nat.le_of_lt_succ hj)
      · rfl
      · exact absurd heq (by decide)
      · exact absurd heq (by decide)
      · rfl

/-- Their second call is the combine of the first. -/
theorem aloneRanks_inverts : aloneRanks.Inverts 0 1 :=
  ⟨Nat.zero_lt_one, rfl, rfl, fun _ _ => rfl, fun _ _ => rfl, fun _ _ => rfl, fun _ _ => rfl⟩

/-- Rank 0 has given rank 1 up in both calls, and has finished. -/
theorem inverts_despite_timeouts_aloneRanks :
    let w := aloneRanks.machine.exec blank aloneSchedule
    (w.comb (0, 1)).activeRanks 1 = 0 ∧ aloneRanks.InvertedConnected w 0 1 0 0 0 := by
  intro w
  have hlegal : (aloneRanks.machine.guarded aloneRanks.OwnSignal).Legal blank aloneSchedule := by
    decide +kernel
  have hend : w.call 0 = 1 ∧ (w.comb (0, 1)).activeRanks 1 = 0 ∧
      (w.comb (0, 1)).Done (aloneRanks.combineLaunch w 0 1) := by
    decide +kernel
  have hinit : aloneRanks.Init blank := init_blank rfl
  have hrun := Machine.reachable_restrict_exec aloneSchedule (.init hinit) hlegal
  exact ⟨hend.2.1, inverts_despite_timeouts aloneRanks aloneRanks_sound (by decide) 0 1
    aloneRanks_inverts (fun _ _ => rfl) w
    (separate_of_round aloneRanks_sound rfl (by decide) hrun) 0 (by decide) hend.1.ge hend.2.2
    0 (by decide) 0 (by decide)⟩

end EpDemo.System.Config
