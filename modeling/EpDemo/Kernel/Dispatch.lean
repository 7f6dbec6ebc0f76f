import EpDemo.Kernel.Launch
import EpDemo.Library.Transition

/-!
# `EpDemo.Kernel.Dispatch`: the control of the `dispatch` kernel on one rank

A state machine over the warps of one launch. An action is what one warp does between two
points at which another warp could observe it, and every action can be taken whenever its
guard holds, so the runs of the machine are the interleavings of the warps.

Iterations keep their own program counters (`token (t, w)` for token `t` and token warp `w`,
`signal e` and `recv e` for the thread groups responsible for expert `e`), so that a state
records everything that happened. Program order is part of the guards, and a barrier is a
guard that asks for the arrival of every warp it waits for.

Payload, signals and the network are not part of this machine: `acquire` takes the value that
was read from the receive signal, and the system of all ranks decides which value that is.
-/

set_option autoImplicit false

namespace EpDemo.Kernel.Dispatch

open EpDemo.Library

/-- The progress of a token warp on one token. -/
inductive TokenPc
  | idle
  | staged
  | reserved
  | sent
  | finished
  deriving DecidableEq, Repr

/-- A slot was handed out. -/
def TokenPc.hasSlot : TokenPc → Bool
  | .reserved | .sent | .finished => true
  | _ => false

/-- The copy was made, or the write was posted. -/
def TokenPc.isSent : TokenPc → Bool
  | .sent | .finished => true
  | _ => false

/-- The progress of the thread that signals the count of one expert. -/
inductive SignalPc
  | waiting
  | polled
  | signalled
  | counterReset
  | finishReset
  | done
  deriving DecidableEq, Repr

/-- The signal was stored, or its atomic was posted. -/
def SignalPc.isSent : SignalPc → Bool
  | .waiting | .polled => false
  | _ => true

/-- The progress of the thread that receives the count for one expert and source. -/
inductive RecvPc
  | waiting
  | missed
  | got
  | claimed
  | ready
  deriving DecidableEq, Repr

/-- The state of a launch. `ws` is the workspace: `atomic_counter_per_expert` in its first
`num_experts` words and `atomic_finish_counter_per_expert` in the next. `count`, `numRecv`
and `recvBegin` are the shared variables of the blocks, by responsible expert. -/
structure State where
  ws : ℕ → ℤ
  token : ℕ × ℕ → TokenPc
  slot : ℕ × ℕ → ℤ
  cleaned : ℕ → Bool
  tagged : ℕ → Bool
  counted : ℕ → Bool
  count : ℕ → ℤ
  signal : ℕ → SignalPc
  recving : Bool
  activeRanks : ℕ → ℤ
  recv : ℕ → RecvPc
  numRecv : ℕ → ℤ
  recvBegin : ℕ → ℤ
  copied : ℕ × ℕ → Bool
  packedRecvCount : ℕ → ℤ
  layoutRange : ℕ → BitVec 64

/-- What a warp can do next. -/
inductive Action
  /-- Warp `w` writes its part of the staging row of token `t`. -/
  | stage (t w : ℕ)
  /-- Warp `w` takes a slot for token `t`. -/
  | reserve (t w : ℕ)
  /-- Warp `w` copies the message of token `t`, or posts the write of it. -/
  | send (t w : ℕ)
  /-- Warp `w` adds one to the finish counter. -/
  | finish (t w : ℕ)
  /-- The last warp of block 0 zeroes `next_clean_buffer[i]`. -/
  | clean (i : ℕ)
  /-- The last warp of block 0 adds the tag for expert `i`. -/
  | tag (i : ℕ)
  /-- The last warp of the block of `e` publishes the count for `e`. -/
  | count (e : ℕ)
  /-- The finish wait for `e` succeeds. -/
  | poll (e : ℕ)
  /-- The signal for `e` is stored or posted. -/
  | signal (e : ℕ)
  | resetCounter (e : ℕ)
  | resetFinish (e : ℕ)
  | resetCount (e : ℕ)
  /-- The grid barrier between the phases, or the end of the SEND launch and the start of the
  RECV launch. -/
  | gridSync
  /-- The signal wait reads the non-zero value `v`. -/
  | acquire (e : ℕ) (v : ℤ)
  /-- The signal wait reads zero. -/
  | miss (e : ℕ)
  /-- The timeout has passed: the source rank is no longer active. -/
  | expire (e : ℕ)
  /-- The source rank is not active: leave the signal wait. -/
  | giveUp (e : ℕ)
  | retry (e : ℕ)
  /-- Claim output rows for the received tokens. -/
  | claim (e : ℕ)
  /-- Publish the claimed range to the warp group and in `packed_recv_layout_range`. -/
  | publish (e : ℕ)
  /-- A warp of the group copies received message `i`. -/
  | copyRow (e i : ℕ)
  deriving DecidableEq, Repr

section

variable (l : Launch)

/-- All token warps have arrived at the barrier for token `t`. -/
def State.BarrierPassed (s : State) (t : ℕ) : Prop := ∀ w < numTokenWarps, s.token (t, w) ≠ .idle

instance (s : State) (t : ℕ) : Decidable (s.BarrierPassed t) :=
  inferInstanceAs (Decidable (∀ w < numTokenWarps, _))

/-- Warp `w` is through with token `t`. -/
def State.TokenDone (s : State) (t w : ℕ) : Prop :=
  s.BarrierPassed t ∧ (0 ≤ l.dstExpertIdx t w → s.token (t, w) = .finished)

instance (s : State) (t w : ℕ) : Decidable (s.TokenDone l t w) :=
  inferInstanceAs (Decidable (_ ∧ (_ → _)))

/-- All threads of block `b` have arrived at `__syncthreads`. -/
structure State.Synced (s : State) (b : ℕ) : Prop where
  tokens : ∀ t < l.numTokens, t % l.numSms = b → ∀ w < numTokenWarps, s.TokenDone l t w
  tagged : b = 0 → ∀ i < l.numExperts, s.tagged i = true
  counted : ∀ e < l.numExperts, e / kNumWarpGroups = b → s.counted e = true

instance (s : State) (b : ℕ) : Decidable (s.Synced l b) :=
  decidable_of_iff ((∀ t < l.numTokens, t % l.numSms = b → ∀ w < numTokenWarps, s.TokenDone l t w) ∧
      (b = 0 → ∀ i < l.numExperts, s.tagged i = true) ∧
      (∀ e < l.numExperts, e / kNumWarpGroups = b → s.counted e = true))
    ⟨fun h => ⟨h.1, h.2.1, h.2.2⟩, fun h => ⟨h.tokens, h.tagged, h.counted⟩⟩

/-- The guard of an action. -/
def enabled (s : State) : Action → Prop
  | .stage t w => t < l.numTokens ∧ w < numTokenWarps ∧ s.token (t, w) = .idle ∧
      (l.numSms ≤ t → s.TokenDone l (t - l.numSms) w)
  | .reserve t w => t < l.numTokens ∧ w < numTokenWarps ∧ s.token (t, w) = .staged ∧
      0 ≤ l.dstExpertIdx t w ∧ s.BarrierPassed t
  | .send t w => t < l.numTokens ∧ w < numTokenWarps ∧ s.token (t, w) = .reserved
  | .finish t w => t < l.numTokens ∧ w < numTokenWarps ∧ s.token (t, w) = .sent
  -- `EP_DEVICE_ASSERT(num_sms > 1)` stops the last warp of every block otherwise.
  | .clean i => 1 < l.numSms ∧ i < l.numExperts ∧ s.cleaned i = false ∧
      (32 ≤ i → s.cleaned (i - 32) = true)
  | .tag i => 1 < l.numSms ∧ i < l.numExperts ∧ s.tagged i = false ∧
      (∀ j < l.numExperts, s.cleaned j = true) ∧ (32 ≤ i → s.tagged (i - 32) = true)
  | .count e => 1 < l.numSms ∧ e < l.numExperts ∧ s.counted e = false ∧
      (e / kNumWarpGroups = 0 → ∀ j < l.numExperts, s.tagged j = true) ∧
      (e % kNumWarpGroups ≠ 0 → s.counted (e - 1) = true)
  | .poll e => e < l.numExperts ∧ s.signal e = .waiting ∧ s.Synced l (e / kNumWarpGroups) ∧
      s.ws (l.numExperts + e) = finishedSumTag * 2
  | .signal e => e < l.numExperts ∧ s.signal e = .polled
  | .resetCounter e => e < l.numExperts ∧ s.signal e = .signalled
  | .resetFinish e => e < l.numExperts ∧ s.signal e = .counterReset
  | .resetCount e => e < l.numExperts ∧ s.signal e = .finishReset
  | .gridSync => s.recving = false ∧ (∀ b < l.numSms, s.Synced l b) ∧
      ∀ e < l.numExperts, s.signal e = .done
  | .acquire e v => s.recving = true ∧ e < l.numExperts ∧ s.recv e = .waiting ∧ v ≠ 0
  | .miss e => s.recving = true ∧ e < l.numExperts ∧ s.recv e = .waiting
  | .expire e => e < l.numExperts ∧ s.recv e = .missed ∧ l.timeoutTicks ≠ -1
  | .giveUp e => e < l.numExperts ∧ s.recv e = .missed ∧ s.activeRanks (e / l.numLocalExperts) = 0
  | .retry e => e < l.numExperts ∧ s.recv e = .missed ∧ s.activeRanks (e / l.numLocalExperts) ≠ 0
  | .claim e => e < l.numExperts ∧ s.recv e = .got
  | .publish e => e < l.numExperts ∧ s.recv e = .claimed
  | .copyRow e i => e < l.numExperts ∧ s.recv e = .ready ∧ (i : ℤ) < s.numRecv e ∧
      s.copied (e, i) = false ∧
      (kNumWarpsPerGroup ≤ i → s.copied (e, i - kNumWarpsPerGroup) = true)

instance decidableEnabled (s : State) : (a : Action) → Decidable (enabled l s a)
  | .stage .. | .reserve .. | .send .. | .finish .. | .clean _ | .tag _ | .count _ | .poll _
  | .signal _ | .resetCounter _ | .resetFinish _ | .resetCount _ | .gridSync | .acquire ..
  | .miss _ | .expire _ | .giveUp _ | .retry _ | .claim _ | .publish _ | .copyRow .. => by
    dsimp only [enabled]; infer_instance

/-- The state after an action. -/
def fire (s : State) : Action → State
  | .stage t w => { s with token := Function.update s.token (t, w) .staged }
  | .reserve t w =>
    { s with
      ws := atomicAdd s.ws (l.dstExpertIdx t w).toNat 1
      slot := Function.update s.slot (t, w) (s.ws (l.dstExpertIdx t w).toNat)
      token := Function.update s.token (t, w) .reserved }
  | .send t w => { s with token := Function.update s.token (t, w) .sent }
  | .finish t w =>
    { s with
      ws := atomicAdd s.ws (l.numExperts + (l.dstExpertIdx t w).toNat) 1
      token := Function.update s.token (t, w) .finished }
  | .clean i => { s with cleaned := Function.update s.cleaned i true }
  | .tag i =>
    { s with
      ws := atomicAdd s.ws (l.numExperts + i) finishedSumTag
      tagged := Function.update s.tagged i true }
  | .count e =>
    { s with
      ws := atomicAdd s.ws (l.numExperts + e) (finishedSumTag - l.numTokensSent e)
      count := Function.update s.count e (l.numTokensSent e)
      counted := Function.update s.counted e true }
  | .poll e => { s with signal := Function.update s.signal e .polled }
  | .signal e => { s with signal := Function.update s.signal e .signalled }
  | .resetCounter e =>
    { s with
      ws := Function.update s.ws e 0
      signal := Function.update s.signal e .counterReset }
  | .resetFinish e =>
    { s with
      ws := Function.update s.ws (l.numExperts + e) 0
      signal := Function.update s.signal e .finishReset }
  | .resetCount e =>
    { s with
      packedRecvCount :=
        if e / l.numLocalExperts = 0 then
          Function.update s.packedRecvCount (e % l.numLocalExperts) 0
        else s.packedRecvCount
      signal := Function.update s.signal e .done }
  | .gridSync => { s with recving := true }
  | .acquire e v =>
    { s with
      numRecv := Function.update s.numRecv e (toInt32 (-v - 1))
      recv := Function.update s.recv e .got }
  | .miss e => { s with recv := Function.update s.recv e .missed }
  | .expire e => { s with activeRanks := Function.update s.activeRanks (e / l.numLocalExperts) 0 }
  | .giveUp e =>
    { s with
      numRecv := Function.update s.numRecv e (toInt32 (-(-1) - 1))
      recv := Function.update s.recv e .got }
  | .retry e => { s with recv := Function.update s.recv e .waiting }
  | .claim e =>
    { s with
      recvBegin := Function.update s.recvBegin e (s.packedRecvCount (e % l.numLocalExperts))
      packedRecvCount := atomicAdd s.packedRecvCount (e % l.numLocalExperts) (s.numRecv e)
      recv := Function.update s.recv e .claimed }
  | .publish e =>
    { s with
      layoutRange :=
        Function.update s.layoutRange
          (e % l.numLocalExperts * l.numRanks + e / l.numLocalExperts)
          (pack2 (s.numRecv e) (s.recvBegin e))
      recv := Function.update s.recv e .ready }
  | .copyRow e i => { s with copied := Function.update s.copied (e, i) true }

/-- The value of the signal for expert `e`: `-num_tokens_sent - 1`. -/
def State.signalValue (s : State) (e : ℕ) : ℤ := toInt32 (-s.count e - 1)

/-- Every warp of the launch has finished. -/
structure State.Done (s : State) : Prop where
  recving : s.recving = true
  ready : ∀ e < l.numExperts, s.recv e = .ready
  copied : ∀ e < l.numExperts, ∀ i < (s.numRecv e).toNat, s.copied (e, i) = true

instance (s : State) : Decidable (s.Done l) :=
  decidable_of_iff (s.recving = true ∧ (∀ e < l.numExperts, s.recv e = .ready) ∧
      ∀ e < l.numExperts, ∀ i < (s.numRecv e).toNat, s.copied (e, i) = true)
    ⟨fun h => ⟨h.1, h.2.1, h.2.2⟩, fun h => ⟨h.recving, h.ready, h.copied⟩⟩

/-- What has not happened yet when a launch starts. The workspace, the active ranks and the
output arrays are what the launch finds. -/
structure State.Fresh (s : State) : Prop where
  token : ∀ p, s.token p = .idle
  cleaned : ∀ i, s.cleaned i = false
  tagged : ∀ i, s.tagged i = false
  counted : ∀ e, s.counted e = false
  signal : ∀ e, s.signal e = .waiting
  recving : s.recving = false
  recv : ∀ e, s.recv e = .waiting
  copied : ∀ p, s.copied p = false

/-- The warps of one launch. -/
def machine : Machine State Action where
  enabled := enabled l
  decEnabled := decidableEnabled l
  fire := fire l

/-! ### One launch on its own -/

/-- A launch together with the array that it cleans, when no other rank writes to it. -/
structure Alone where
  kernel : State
  nextCleanBuffer : ℕ → ℤ

/-- The warps of one launch and the stores of the cleaning warp. -/
def aloneMachine : Machine Alone Action where
  enabled p a := enabled l p.kernel a
  decEnabled p a := decidableEnabled l p.kernel a
  fire p a :=
    { kernel := fire l p.kernel a
      nextCleanBuffer :=
        match a with
        | .clean i => Function.update p.nextCleanBuffer i 0
        | _ => p.nextCleanBuffer }

/-- The interleavings of the warps of one launch that starts with a zero workspace. -/
def alone : TransitionSystem Alone Action :=
  (aloneMachine l).system fun p => p.kernel.Fresh ∧ ∀ i, p.kernel.ws i = 0

end

end EpDemo.Kernel.Dispatch
