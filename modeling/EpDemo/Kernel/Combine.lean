import EpDemo.Kernel.Launch
import EpDemo.Library.Transition

/-!
# `EpDemo.Kernel.Combine`: the control of the `combine` kernel on one rank

The same kind of machine as for `dispatch`. Warp group `e` sends the packed rows that one of
the rank's local experts owes to one rank (`row (e, k)` for the `k`-th of them), one of its
threads passes the clean flag and signals, and another one waits for the signal of expert
`e`. After the grid barrier the warps reduce the rows of their tokens.

In a fused launch a group starts to wait for signals as soon as its own rows are sent. In two
launches it starts when the SEND launch has ended.
-/

set_option autoImplicit false

namespace EpDemo.Kernel

/-- The arguments of a launch of `combine` that decide its control. -/
structure CombineLaunch extends Launch where
  hidden : ℕ
  layoutRange : ℕ → BitVec 64
  zeroCopy : Bool
  /-- Both phases in one launch. -/
  fused : Bool
  /-- The rank is reached by plain stores, on the own buffer or over NVLink. -/
  byStore : ℕ → Bool

namespace CombineLaunch

variable (l : CombineLaunch)

/-- `num_tokens_to_send` and `offset` of the warp group responsible for `e`. -/
def layout (e : ℕ) : ℤ × ℤ :=
  unpack2 (l.layoutRange (e % l.numLocalExperts * l.numRanks + e / l.numLocalExperts))

/-- The number of rows that group `e` sends. -/
def numRows (e : ℕ) : ℕ := (l.layout e).1.toNat

/-- `token_idx` of row `k` of group `e`. -/
def rowIdx (e k : ℕ) : ℤ := (l.layout e).2 + k

/-- The rows of group `e` go through the send buffer. -/
def staged (e : ℕ) : Bool := !l.byStore (e / l.numLocalExperts) && !l.zeroCopy

/-- The warps whose threads hold a part of an output row: `thread_id < hidden_bf16_int4`. -/
def numReduceWarps : ℕ := l.hidden / 8 / 32

end CombineLaunch

namespace Combine

open EpDemo.Library

/-- The progress of a warp on one row. -/
inductive RowPc
  | idle
  | staged
  | sent
  deriving DecidableEq, Repr

/-- The progress of the thread that signals for one group. -/
inductive SignalPc
  | waiting
  | opened
  | signalled
  | done
  deriving DecidableEq, Repr

/-- The signal was stored, or its atomic was posted. -/
def SignalPc.isSent : SignalPc → Bool
  | .waiting | .opened => false
  | _ => true

/-- The progress of the thread that waits for the signal of one expert. -/
inductive RecvPc
  | waiting
  | missed
  | passed
  deriving DecidableEq, Repr

/-- The state of a launch. `ws` is the workspace, whose first word is `atomic_clean_flag`.
`reduced (t, w)` counts the entries of token `t` that warp `w` has added up. -/
structure State where
  ws : ℕ → ℤ
  cleaned : ℕ → Bool
  published : Bool
  row : ℕ × ℕ → RowPc
  signal : ℕ → SignalPc
  activeRanks : ℕ → ℤ
  recv : ℕ → RecvPc
  reducing : Bool
  reduced : ℕ × ℕ → ℕ
  stored : ℕ × ℕ → Bool

/-- What a warp can do next. -/
inductive Action
  /-- The first warp of block 0 zeroes `next_clean_buffer[i]`. -/
  | clean (i : ℕ)
  /-- The first warp of block 0 adds `num_experts` to the clean flag. -/
  | publish
  /-- A warp of group `e` copies row `k` into the send buffer. -/
  | stageRow (e k : ℕ)
  /-- A warp of group `e` copies row `k` to its destination, or posts the write of it. -/
  | sendRow (e k : ℕ)
  /-- The thread of group `e` sees the clean flag set. -/
  | open (e : ℕ)
  /-- The signal of group `e` is stored or posted. -/
  | signal (e : ℕ)
  /-- The thread of group `e` takes one from the clean flag. -/
  | drop (e : ℕ)
  /-- The signal wait for expert `e` reads the non-zero value `v`. -/
  | acquire (e : ℕ) (v : ℤ)
  /-- The signal wait reads zero. -/
  | miss (e : ℕ)
  /-- The timeout has passed: the source rank is no longer active. -/
  | expire (e : ℕ)
  /-- The source rank is not active: leave the signal wait. -/
  | giveUp (e : ℕ)
  | retry (e : ℕ)
  /-- The grid barrier. -/
  | gridSync
  /-- Warp `w` adds the row of its next entry of token `t`. -/
  | accum (t w : ℕ)
  /-- Warp `w` stores its part of the output row of token `t`. -/
  | store (t w : ℕ)
  deriving DecidableEq, Repr

section

variable (l : CombineLaunch)

/-- All warps of group `e` have arrived at the barrier after the rows. -/
def State.RowsSent (s : State) (e : ℕ) : Prop :=
  (∀ k < l.numRows e, s.row (e, k) = .sent) ∧ (e = 0 → s.published = true)

instance (s : State) (e : ℕ) : Decidable (s.RowsSent l e) :=
  inferInstanceAs (Decidable (_ ∧ (_ → _)))

/-- Every thread of the SEND phase has finished it. -/
def State.SendDone (s : State) : Prop :=
  s.published = true ∧ ∀ e < l.numExperts, s.signal e = .done

instance (s : State) : Decidable (s.SendDone l) := inferInstanceAs (Decidable (_ ∧ _))

/-- The thread that waits for expert `e` has reached its wait. -/
def State.RecvStarted (s : State) (e : ℕ) : Prop :=
  if l.fused then s.RowsSent l e else s.SendDone l

instance (s : State) (e : ℕ) : Decidable (s.RecvStarted l e) :=
  inferInstanceAs (Decidable (if l.fused then s.RowsSent l e else s.SendDone l))

/-- The guard of an action. -/
def enabled (s : State) : Action → Prop
  | .clean i => i < l.numExperts ∧ s.cleaned i = false ∧ (32 ≤ i → s.cleaned (i - 32) = true)
  | .publish => s.published = false ∧ ∀ i < l.numExperts, s.cleaned i = true
  | .stageRow e k => e < l.numExperts ∧ k < l.numRows e ∧ l.staged e = true ∧
      s.row (e, k) = .idle ∧
      (kNumWarpsPerGroup ≤ k → s.row (e, k - kNumWarpsPerGroup) = .sent) ∧
      -- The first warp of group 0 cleans before it sends.
      (e = 0 → k % kNumWarpsPerGroup = 0 → s.published = true)
  | .sendRow e k => e < l.numExperts ∧ k < l.numRows e ∧
      s.row (e, k) = (if l.staged e then .staged else .idle) ∧
      (kNumWarpsPerGroup ≤ k → s.row (e, k - kNumWarpsPerGroup) = .sent) ∧
      (e = 0 → k % kNumWarpsPerGroup = 0 → s.published = true)
  | .open e => e < l.numExperts ∧ s.signal e = .waiting ∧ s.RowsSent l e ∧ s.ws 0 ≠ 0
  | .signal e => e < l.numExperts ∧ s.signal e = .opened
  | .drop e => e < l.numExperts ∧ s.signal e = .signalled
  | .acquire e v => e < l.numExperts ∧ s.recv e = .waiting ∧ s.RecvStarted l e ∧ v ≠ 0
  | .miss e => e < l.numExperts ∧ s.recv e = .waiting ∧ s.RecvStarted l e
  | .expire e => e < l.numExperts ∧ s.recv e = .missed ∧ l.timeoutTicks ≠ -1
  | .giveUp e => e < l.numExperts ∧ s.recv e = .missed ∧ s.activeRanks (e / l.numLocalExperts) = 0
  | .retry e => e < l.numExperts ∧ s.recv e = .missed ∧ s.activeRanks (e / l.numLocalExperts) ≠ 0
  | .gridSync => s.reducing = false ∧ s.SendDone l ∧ ∀ e < l.numExperts, s.recv e = .passed
  | .accum t w => s.reducing = true ∧ t < l.numTokens ∧ w < l.numReduceWarps ∧
      s.reduced (t, w) < l.numTopk ∧ (l.numSms ≤ t → s.stored (t - l.numSms, w) = true)
  | .store t w => s.reducing = true ∧ t < l.numTokens ∧ w < l.numReduceWarps ∧
      s.reduced (t, w) = l.numTopk ∧ s.stored (t, w) = false ∧
      (l.numSms ≤ t → s.stored (t - l.numSms, w) = true)

instance decidableEnabled (s : State) : (a : Action) → Decidable (enabled l s a)
  | .clean _ | .publish | .stageRow .. | .sendRow .. | .open _ | .signal _ | .drop _
  | .acquire .. | .miss _ | .expire _ | .giveUp _ | .retry _ | .gridSync | .accum ..
  | .store .. => by
    dsimp only [enabled]; infer_instance

/-- The state after an action. -/
def fire (s : State) : Action → State
  | .clean i => { s with cleaned := Function.update s.cleaned i true }
  | .publish => { s with ws := atomicAdd s.ws 0 l.numExperts, published := true }
  | .stageRow e k => { s with row := Function.update s.row (e, k) .staged }
  | .sendRow e k => { s with row := Function.update s.row (e, k) .sent }
  | .open e => { s with signal := Function.update s.signal e .opened }
  | .signal e => { s with signal := Function.update s.signal e .signalled }
  | .drop e => { s with ws := atomicAdd s.ws 0 (-1), signal := Function.update s.signal e .done }
  | .acquire e _ => { s with recv := Function.update s.recv e .passed }
  | .miss e => { s with recv := Function.update s.recv e .missed }
  | .expire e => { s with activeRanks := Function.update s.activeRanks (e / l.numLocalExperts) 0 }
  | .giveUp e => { s with recv := Function.update s.recv e .passed }
  | .retry e => { s with recv := Function.update s.recv e .waiting }
  | .gridSync => { s with reducing := true }
  | .accum t w => { s with reduced := Function.update s.reduced (t, w) (s.reduced (t, w) + 1) }
  | .store t w => { s with stored := Function.update s.stored (t, w) true }

/-- Every warp of the launch has finished. -/
def State.Done (s : State) : Prop :=
  s.reducing = true ∧ ∀ t < l.numTokens, ∀ w < l.numReduceWarps, s.stored (t, w) = true

instance (s : State) : Decidable (s.Done l) := inferInstanceAs (Decidable (_ ∧ _))

/-- What has not happened yet when a launch starts. -/
structure State.Fresh (s : State) : Prop where
  cleaned : ∀ i, s.cleaned i = false
  published : s.published = false
  row : ∀ p, s.row p = .idle
  signal : ∀ e, s.signal e = .waiting
  recv : ∀ e, s.recv e = .waiting
  reducing : s.reducing = false
  reduced : ∀ p, s.reduced p = 0
  stored : ∀ p, s.stored p = false

/-- The warps of one launch. -/
def machine : Machine State Action where
  enabled := enabled l
  decEnabled := decidableEnabled l
  fire := fire l

/-! ### One launch on its own -/

/-- A launch together with the array that it cleans, when no other rank writes to it. -/
structure Alone where
  kernel : State
  nextCleanBuffer : ℕ → ℤ

/-- The warps of one launch and the stores of the cleaning warp. -/
def aloneMachine : Machine Alone Action where
  enabled p a := enabled l p.kernel a
  decEnabled p a := decidableEnabled l p.kernel a
  fire p a :=
    { kernel := fire l p.kernel a
      nextCleanBuffer :=
        match a with
        | .clean i => Function.update p.nextCleanBuffer i 0
        | _ => p.nextCleanBuffer }

/-- The interleavings of the warps of one launch that starts with the clean flag at zero. -/
def alone : TransitionSystem Alone Action :=
  (aloneMachine l).system fun p => p.kernel.Fresh ∧ p.kernel.ws 0 = 0

end

end Combine

end EpDemo.Kernel
