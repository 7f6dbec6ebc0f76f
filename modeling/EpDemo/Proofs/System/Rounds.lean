import EpDemo.Proofs.System.CombineReduces
import EpDemo.Proofs.System.Progress

/-!
# `EpDemo.Proofs.System.Rounds`: every round of an endless run ends, and ends well

A run makes one call after the other on the two buffers. Nothing bounds the number of calls, and a
rank can be a whole call ahead of another, so what a call leaves behind must survive the calls that
are made while it is read.

* `delivered_of_callDone`: a `dispatch` that a rank has ended has delivered to it, whatever calls
  were before it and whatever comes after it.
* `inverted_of_callDone`: a `combine` that a rank has ended has added up the rows of its tokens, for
  the `dispatch` whose results it takes, which can be any number of calls back.
* `every_round_correct`: in a fair execution every call comes to this on every rank, and stays
  there.
-/

set_option autoImplicit false

namespace EpDemo.System.Config

open EpDemo.Kernel EpDemo.Library

variable {A : Type} {c : Config A} {w : World A} {a : Action} {k m r : ℕ}

/-! ### A call that has ended stays ended -/

/-- Nothing that happens later touches the results of a call. -/
theorem CallDone.fire (hv : c.Sound) (h : c.system.Reachable w) (hen : c.enabled w a)
    (hr : r < c.numRanks) (hdone : c.CallDone w r m) : c.CallDone (c.fire w a) r m := by
  have hl := launches_of_reachable hv h
  have hle := le_of_callDone hl hr hdone
  constructor
  · intro hkind
    -- The kernel of the call has no step left.
    have hother : ∀ b, a = .dispatch r b → m ≠ w.call r := by
      rintro b rfl rfl
      exact Dispatch.not_enabled_of_done (hv.fits (hl.hasCall r hr) hr) (numSms_pos hv)
        (hl.disp r hr _ le_rfl hkind) (hdone.1 hkind) b hen.2.2.1
    obtain ⟨ws, activeRanks, heq⟩ := disp_fire_of_ne (c := c) a hother
    rw [heq]
    exact ⟨(hdone.1 hkind).recving, (hdone.1 hkind).ready, (hdone.1 hkind).copied⟩
  · intro hkind
    have hother : ∀ b, a = .combine r b → m ≠ w.call r := by
      rintro b rfl rfl
      exact Combine.not_enabled_of_done (hl.comb r hr _ le_rfl hkind) (hdone.2 hkind) b hen.2.2.1
    obtain ⟨ws, activeRanks, heq⟩ := comb_fire_of_ne (c := c) a hother
    rw [heq, combineLaunch_fire hv a hr ((hl.hasCall r hr).of_le hle) hle hkind]
    exact ⟨(hdone.2 hkind).1, (hdone.2 hkind).2⟩

/-- It has ended at every later moment of an execution. -/
theorem callDone_of_le (hv : c.Sound) (x : c.machine.Execution c.Init) (hr : r < c.numRanks) {n : ℕ}
    (hdone : c.CallDone (x.state n) r m) : ∀ {n' : ℕ}, n ≤ n' → c.CallDone (x.state n') r m := by
  intro n' hle
  induction hle with
  | refl => exact hdone
  | step hle ih =>
    rename_i j
    rw [Nat.succ_eq_add_one, x.next j]
    cases ha : x.action j with
    | none => exact ih
    | some a => exact ih.fire hv (x.reachable j) (x.enabled j a ha) hr

/-! ### What a call has computed -/

/-- A `dispatch` that a rank has ended has delivered the tokens for its experts. -/
theorem delivered_of_callDone (hv : c.Valid) (halt : c.Alternates) (h : c.system.Reachable w)
    (hkind : (c.calls m).kind = .dispatch) (hr : r < c.numRanks) (hdone : c.CallDone w r m) {le : ℕ}
    (hle : le < c.numLocalExperts) : c.Delivered w r m le := by
  have hf := facts_of_separate hv (separate_of_alternates hv halt h)
  exact hf.delivered hv hr (le_of_callDone hf.launches hr hdone) hkind (hdone.1 hkind) hle

/-- Word `j` of the output row that the `combine` of call `k` has for a token. -/
structure Inverted (c : Config A) (w : World A) (k m r t j : ℕ) : Prop where
  /-- Call `k` put the token into one row of each of its experts. -/
  unique : ∀ i < (c.launch r m).numTopk, 0 ≤ c.entry m r t i →
    ∃! row, c.PackedFor w k r t (c.entry m r t i).toNat row
  /-- When expert `e` computes `y e` from the row of the token, the output is the sum of these with
  the weights of the token, in the order of its entries. -/
  combined : ∀ y : ℕ → Word,
    (∀ e < c.numExperts, ∀ row, c.PackedFor w k r t e row →
      ((c.calls m).input (e / c.numLocalExperts)).x row j = y e) →
    w.combined (r, m) (t, j) =
      c.round (c.reduce m r t (fun i => y (c.entry m r t i).toNat) (c.launch r m).numTopk)

/-- A `combine` that a rank has ended has added up the rows of its tokens. -/
theorem inverted_of_callDone (hv : c.Valid) (halt : c.Alternates) (hzero : c.NoZeroCopy)
    (hshape : c.shape.Supported) (h : c.system.Reachable w) (hinv : c.Inverts k m)
    (hr : r < c.numRanks) (hdone : c.CallDone w r m) {t j : ℕ} (ht : t < (c.launch r m).numTokens)
    (hj : j < c.shape.hidden / 2) : c.Inverted w k m r t j := by
  have hsep := separate_of_alternates hv halt h
  have hf := facts_of_separate hv.sound hsep
  have hle := le_of_callDone hf.launches hr hdone
  have hcall := (hf.launches.hasCall r hr).of_le hle
  have hdone := hdone.2 hinv.combine
  obtain ⟨y, hy, hcombined⟩ :=
    exists_summands hv.sound hshape hinv (hzero m hcall hinv.combine) hsep hr hle hdone ht hj
  have he : ∀ i < (c.launch r m).numTopk, 0 ≤ c.entry m r t i →
      (c.entry m r t i).toNat < c.numExperts := fun i hi hpos => entry_lt hv hcall hr ht hi hpos
  have hentry : ∀ i < (c.launch r m).numTopk, 0 ≤ c.entry m r t i → _ ∧ _ := fun i hi hpos =>
    hy i hi hpos (hf.connected hv hinv hr hle hdone.1 (he i hi hpos))
  refine ⟨fun i hi hpos => (hentry i hi hpos).1, fun y' hy' => ?_⟩
  rw [hcombined]
  refine congrArg c.round (reduce_congr fun i hi hpos => ?_)
  obtain ⟨row, hrow, -⟩ := (hentry i hi hpos).1
  exact ((hentry i hi hpos).2 row hrow).trans (hy' _ (he i hi hpos) row hrow)

/-- Call `m` has done its work for rank `r`. -/
structure RoundCorrect (c : Config A) (w : World A) (r m : ℕ) : Prop where
  dispatch : (c.calls m).kind = .dispatch → ∀ le < c.numLocalExperts, c.Delivered w r m le
  combine : ∀ k, c.Inverts k m → ∀ t < (c.launch r m).numTokens, ∀ j < c.shape.hidden / 2,
    c.Inverted w k m r t j

/-- In a fair execution of any number of calls, every call comes to have done its work for all
ranks, and then that holds forever. -/
theorem every_round_correct (c : Config A) (hv : c.Valid) (halt : c.Alternates)
    (hblocks : c.TwoBlocks) (hzero : c.NoZeroCopy) (hshape : c.shape.Supported)
    (x : c.machine.Execution c.Init) (hfair : x.WeaklyFair) (m : ℕ) (hm : c.HasCall m) :
    ∃ n, ∀ n', n ≤ n' → ∀ r < c.numRanks, c.RoundCorrect (x.state n') r m := by
  obtain ⟨n, hended⟩ := (progress hv halt hblocks hm).eventually x hfair
  refine ⟨n, fun n' hle r hr => ?_⟩
  have hdone : c.CallDone (x.state n') r m := callDone_of_le hv.sound x hr (hended r hr) hle
  exact
    { dispatch := fun hkind le hlocal =>
        delivered_of_callDone hv halt (x.reachable n') hkind hr hdone hlocal
      combine := fun k hinv t ht j hj =>
        inverted_of_callDone hv halt hzero hshape (x.reachable n') hinv hr hdone ht hj }

/-! ### Two ranks -/

/-- The steps of `wholeCombine` are a run, and it ends both calls. -/
theorem wholeCombine_run :
    let c := twoRanks (some 2) id fun k => k + 1
    c.machine.Legal blank wholeCombine ∧ c.Finished (c.machine.exec blank wholeCombine) := by
  decide +kernel

/-- The `combine` of the execution that takes these steps and then stops. -/
theorem every_round_correct_twoRanks :
    let c := twoRanks (some 2) id fun k => k + 1
    ∃ x : c.machine.Execution c.Init, x.WeaklyFair ∧
      ∃ n, ∀ n', n ≤ n' → ∀ r < 2, c.RoundCorrect (x.state n') r 1 := by
  intro c
  have hv : c.Valid := twoRanks_valid (by simp) _ _
  have htwo : c.DispatchThenCombine := twoRanks_dispatchThenCombine
  have hinit : c.Init blank := blank_init _ _ _
  have hreach : c.system.Reachable (c.machine.exec blank wholeCombine) :=
    Machine.reachable_exec _ (.init hinit) wholeCombine_run.1
  have hfair := Machine.Execution.ofSchedule_weaklyFair hinit wholeCombine_run.1
    (not_enabled_of_finished hv htwo.alternates hreach wholeCombine_run.2)
  have hlast : c.HasCall 1 := (hasCall_iff_of_length htwo.length).mpr (by decide)
  exact ⟨_, hfair, every_round_correct c hv htwo.alternates (twoRanks_twoBlocks _ _ _)
    htwo.noZeroCopy (by decide) _ hfair 1 hlast⟩

end EpDemo.System.Config
