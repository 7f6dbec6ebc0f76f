import EpDemo.Kernel.Combine
import EpDemo.Library.Counting
import EpDemo.Proofs.Kernel.Words
import Mathlib.Data.Finset.Range
import Mathlib.Tactic.Ring

/-!
# `EpDemo.Proofs.Kernel.CombineSend`: the clean flag of `combine` is an exact gate

The flag is zero until the cleaning warp publishes, and from then on it is the number of
experts whose signalling thread has not taken its one away (`Gate.flag`). A thread that waits
is one of these, so it never finds the flag at zero because of the others, and the last one
leaves zero behind.
-/

set_option autoImplicit false

namespace EpDemo.Kernel.Combine

open EpDemo.Library

/-- The experts whose thread has taken its one from the flag. -/
def numDone (l : CombineLaunch) (signal : ℕ → SignalPc) : ℕ :=
  ((Finset.range l.numExperts).filter fun e => signal e = .done).card

/-- What the clean flag says about the SEND phase. -/
structure Gate (l : CombineLaunch) (s : State) : Prop where
  unpublished : s.published = false → s.ws 0 = 0 ∧ ∀ e < l.numExperts, s.signal e = .waiting
  flag : s.published = true → s.ws 0 = toInt32 (l.numExperts - numDone l s.signal)
  cleaned : s.published = true → ∀ i < l.numExperts, s.cleaned i = true

section

variable {l : CombineLaunch} {s s' : State}

/-- No more experts are done than there are. -/
theorem numDone_le (l : CombineLaunch) (signal : ℕ → SignalPc) : numDone l signal ≤ l.numExperts :=
  (Finset.card_filter_le _ _).trans_eq (Finset.card_range _)

/-- Some expert is not done when fewer than all are. -/
theorem numDone_lt {signal : ℕ → SignalPc} {e : ℕ} (he : e < l.numExperts)
    (hne : signal e ≠ .done) : numDone l signal < l.numExperts := by
  refine lt_of_le_of_ne (numDone_le l signal) fun heq => hne ?_
  exact forall_of_card_filter_eq (p := fun e => signal e = .done)
    (heq.trans (Finset.card_range _).symm) e (Finset.mem_range.mpr he)

/-- All experts are counted when all are done. -/
theorem numDone_eq {signal : ℕ → SignalPc} (h : ∀ e < l.numExperts, signal e = .done) :
    numDone l signal = l.numExperts := by
  rw [numDone, Finset.filter_true_of_mem fun e he => h e (Finset.mem_range.mp he),
    Finset.card_range]

namespace Gate

/-- The gate is closed at the start, and the flag is zero. -/
theorem fresh (hs : s.Fresh) (hws : s.ws 0 = 0) : Gate l s where
  unpublished _ := ⟨hws, fun e _ => hs.signal e⟩
  flag h := by simp [hs.published] at h
  cleaned h := by simp [hs.published] at h

/-- The gate speaks about the flag, the cleaning warp and the signalling threads only. -/
theorem congr (h : Gate l s) (hws : s'.ws = s.ws) (hpub : s'.published = s.published)
    (hcleaned : s'.cleaned = s.cleaned) (hsignal : s'.signal = s.signal) : Gate l s' := by
  constructor
  · simpa only [hws, hpub, hsignal] using h.unpublished
  · simpa only [hws, hpub, hsignal] using h.flag
  · simpa only [hpub, hcleaned] using h.cleaned

/-- A thread that has seen the flag set has seen it published. -/
theorem published_of_signal (h : Gate l s) {e : ℕ} (he : e < l.numExperts)
    (hne : s.signal e ≠ .waiting) : s.published = true := by
  by_contra hpub
  exact hne ((h.unpublished (by simpa using hpub)).2 e he)

/-- A signalling thread moves on without touching the flag. -/
theorem setSignal (h : Gate l s) {i : ℕ} {pc : SignalPc} (hpub : s.published = true)
    (hold : s.signal i ≠ .done) (hnew : pc ≠ .done) :
    Gate l { s with signal := Function.update s.signal i pc } where
  unpublished hn := by simp [hpub] at hn
  flag _ := by
    have hsame : numDone l (Function.update s.signal i pc) = numDone l s.signal :=
      card_filter_update_of_iff (p := (· = SignalPc.done)) (by simp [hold, hnew])
    rw [hsame]
    exact h.flag hpub
  cleaned := h.cleaned

/-- Every step keeps the gate. -/
theorem fire (h : Gate l s) {a : Action} (ha : enabled l s a) : Gate l (Combine.fire l s a) := by
  cases a with
  | clean i =>
    refine { h with cleaned := fun hpub j hj => ?_ }
    -- Cleaning does not undo what was cleaned.
    by_cases hji : j = i
    · simp only [Combine.fire, hji, Function.update_self]
    · simp only [Combine.fire, Function.update_of_ne hji]
      exact h.cleaned hpub j hj
  | publish =>
    obtain ⟨hpub, hclean⟩ := ha
    obtain ⟨hzero, hwait⟩ := h.unpublished hpub
    refine ⟨fun hn => by simp [Combine.fire] at hn, fun _ => ?_, fun _ => hclean⟩
    -- The flag is published with a one for each expert, and none has taken its own yet.
    have hnone : numDone l s.signal = 0 := by
      rw [numDone, Finset.card_eq_zero, Finset.filter_eq_empty_iff]
      intro e he
      rw [hwait e (Finset.mem_range.mp he)]
      decide
    simp only [Combine.fire, atomicAdd_self, hzero, hnone]
    congr 1
    ring
  | «open» e =>
    -- A thread that has passed the flag has seen it set.
    have hpub : s.published = true := by
      by_contra hn
      exact ha.2.2.2 (h.unpublished (by simpa using hn)).1
    exact h.setSignal hpub (by rw [ha.2.1]; decide) (by decide)
  | signal e =>
    exact h.setSignal (h.published_of_signal ha.1 (by rw [ha.2]; decide)) (by rw [ha.2]; decide)
      (by decide)
  | drop e =>
    obtain ⟨he, hpc⟩ := ha
    have hpub := h.published_of_signal he (by rw [hpc]; decide)
    refine ⟨fun hn => by simp [Combine.fire, hpub] at hn, fun _ => ?_, h.cleaned⟩
    -- One more expert is done, and the flag is one less.
    have hsucc : numDone l (Function.update s.signal e .done) = numDone l s.signal + 1 :=
      card_filter_update_succ (p := (· = SignalPc.done)) (Finset.mem_range.mpr he)
        (by rw [hpc]; decide) rfl
    simp only [Combine.fire, atomicAdd_self, h.flag hpub, toInt32_add, hsucc, Nat.cast_succ]
    congr 1
    ring
  | stageRow e k => exact h.congr rfl rfl rfl rfl
  | sendRow e k => exact h.congr rfl rfl rfl rfl
  | acquire e v => exact h.congr rfl rfl rfl rfl
  | miss e => exact h.congr rfl rfl rfl rfl
  | expire e => exact h.congr rfl rfl rfl rfl
  | giveUp e => exact h.congr rfl rfl rfl rfl
  | retry e => exact h.congr rfl rfl rfl rfl
  | gridSync => exact h.congr rfl rfl rfl rfl
  | accum t w => exact h.congr rfl rfl rfl rfl
  | store t w => exact h.congr rfl rfl rfl rfl

/-- The flag is zero when every thread of the SEND phase has finished it. -/
theorem flag_of_sendDone (h : Gate l s) (hdone : s.SendDone l) : s.ws 0 = 0 := by
  rw [h.flag hdone.1, numDone_eq hdone.2, sub_self]
  rfl

end Gate

/-- The flag is the only word that a launch writes to. -/
theorem ws_fire_of_ne (l : CombineLaunch) (s : State) (a : Action) {i : ℕ} (hi : i ≠ 0) :
    (fire l s a).ws i = s.ws i := by
  cases a with
  | publish => exact atomicAdd_of_ne hi _
  | drop e => exact atomicAdd_of_ne hi _
  | _ => rfl

/-! ### Runs of one launch -/

/-- The gate holds, and what was cleaned is zero, in every run. -/
theorem gate_of_reachable {p : Alone} (h : (alone l).Reachable p) :
    Gate l p.kernel ∧ ∀ i, p.kernel.cleaned i = true → p.nextCleanBuffer i = 0 := by
  refine h.invariant (I := fun p => Gate l p.kernel ∧
    ∀ i, p.kernel.cleaned i = true → p.nextCleanBuffer i = 0) ?_ ?_
  · rintro q ⟨hfresh, hws⟩
    exact ⟨.fresh hfresh hws, fun i hi => by simp [hfresh.cleaned] at hi⟩
  · rintro q a q' - ⟨hgate, hzero⟩ ⟨hen, rfl⟩
    refine ⟨hgate.fire hen, ?_⟩
    cases a with
    | clean i =>
      intro j hj
      by_cases hji : j = i
      · simp only [aloneMachine, hji, Function.update_self]
      · simp only [aloneMachine, Combine.fire, Function.update_of_ne hji] at hj ⊢
        exact hzero j hj
    | _ => exact hzero

end

/-- The clean flag of `combine` gates exactly, for every number of experts and every
interleaving: a thread that has passed the flag finds the cleaned array zero, the flag is not
zero while it is published and some expert has not signalled and left, and it is zero again
when all have. -/
theorem flag_exact (l : CombineLaunch) (hE : l.numExperts < 2 ^ 31) (p : Alone)
    (hp : (alone l).Reachable p) :
    (∀ e < l.numExperts, p.kernel.signal e ≠ .waiting →
      ∀ i < l.numExperts, p.nextCleanBuffer i = 0) ∧
    (p.kernel.published = true → ∀ e < l.numExperts, p.kernel.signal e ≠ .done →
      p.kernel.ws 0 ≠ 0) ∧
    ((∀ e < l.numExperts, p.kernel.signal e = .done) → p.kernel.ws 0 = 0) := by
  obtain ⟨hgate, hzero⟩ := gate_of_reachable hp
  refine ⟨fun e he hne i hi => ?_, fun hpub e he hne => ?_, fun hall => ?_⟩
  · exact hzero i (hgate.cleaned (hgate.published_of_signal he hne) i hi)
  · have hlt := numDone_lt he hne
    rw [hgate.flag hpub, toInt32_of_range (by omega) (by omega)]
    omega
  · cases hpub : p.kernel.published with
    | false => exact (hgate.unpublished hpub).1
    | true =>
      rw [hgate.flag hpub, numDone_eq hall, sub_self]
      rfl

/-- A launch for two experts on one rank without rows to send. -/
def twoExperts : CombineLaunch where
  numExperts := 2
  numRanks := 1
  numMaxDispatchTokensPerRank := 1
  rank := 0
  numTokens := 0
  numTopk := 1
  topkIdx _ := -1
  timeoutTicks := -1
  hidden := 2048
  layoutRange _ := 0
  zeroCopy := false
  fused := true
  byStore _ := true

/-- A state at the start of a launch. -/
def start : State where
  ws _ := 0
  cleaned _ := false
  published := false
  row _ := .idle
  signal _ := .waiting
  activeRanks _ := 1
  recv _ := .waiting
  reducing := false
  reduced _ := 0
  stored _ := false

/-- The start state of the examples is fresh. -/
theorem start_fresh : start.Fresh := by constructor <;> intros <;> rfl

/-- Expert 0 has signalled and left, and expert 1 still finds the flag set. -/
theorem flag_exact_twoExperts :
    let p := (aloneMachine twoExperts).exec ⟨start, fun _ => 7⟩
      [.clean 0, .clean 1, .publish, .open 0, .signal 0, .drop 0]
    (∀ e < 2, p.kernel.signal e ≠ .waiting → ∀ i < 2, p.nextCleanBuffer i = 0) ∧
    (p.kernel.published = true → ∀ e < 2, p.kernel.signal e ≠ .done → p.kernel.ws 0 ≠ 0) ∧
    ((∀ e < 2, p.kernel.signal e = .done) → p.kernel.ws 0 = 0) :=
  flag_exact twoExperts (by decide) _
    (Machine.reachable_exec _ (.init ⟨start_fresh, rfl⟩) (by decide +kernel))

end EpDemo.Kernel.Combine
