import EpDemo.Kernel.Combine
import EpDemo.Kernel.Dispatch
import EpDemo.Library.Handover

/-!
# `EpDemo.Kernel.Stream`: calls on one stream that share the workspace

`dispatch` keeps `atomic_counter_per_expert` in the first `num_experts` words of the workspace
and `atomic_finish_counter_per_expert` in the next, and `combine` keeps `atomic_clean_flag` in
its first word. Nothing clears the workspace between the calls: a call finds what the SEND
phase of the one before left behind.

The SEND phases of a stream follow each other. A RECV phase runs in the same launch or in a
later one, so its steps may interleave with the SEND phases of later calls.
-/

set_option autoImplicit false

namespace EpDemo.Kernel

open EpDemo.Library

/-- Every thread of a `dispatch` launch has finished the SEND phase. -/
structure Dispatch.State.SendDone (l : Launch) (s : Dispatch.State) : Prop where
  tokens : ∀ t < l.numTokens, ∀ w < numTokenWarps, s.TokenDone l t w
  tagged : ∀ e < l.numExperts, s.tagged e = true
  counted : ∀ e < l.numExperts, s.counted e = true
  signals : ∀ e < l.numExperts, s.signal e = .done

instance (l : Launch) (s : Dispatch.State) : Decidable (s.SendDone l) :=
  decidable_of_iff ((∀ t < l.numTokens, ∀ w < numTokenWarps, s.TokenDone l t w) ∧
      (∀ e < l.numExperts, s.tagged e = true) ∧ (∀ e < l.numExperts, s.counted e = true) ∧
      (∀ e < l.numExperts, s.signal e = .done))
    ⟨fun h => ⟨h.1, h.2.1, h.2.2.1, h.2.2.2⟩, fun h => ⟨h.tokens, h.tagged, h.counted, h.signals⟩⟩

/-- A call of either kind, and the state of its launch. The workspace of that state is the one
at its last step. -/
inductive Call
  | dispatch (l : Launch) (s : Dispatch.State)
  | combine (l : CombineLaunch) (s : Combine.State)

/-- A step of a call. -/
inductive CallAction
  | dispatch (a : Dispatch.Action)
  | combine (a : Combine.Action)
  deriving DecidableEq

namespace Call

/-- The launch of the call has not done anything yet. -/
def Fresh : Call → Prop
  | .dispatch _ s => s.Fresh
  | .combine _ s => s.Fresh

/-- What the host functions assert before the launch, and a table of `int` size with entries
below `num_experts`. -/
def Accepted : Call → Prop
  | .dispatch l _ => l.numTopk ≤ kNumMaxTopK ∧ l.numExperts * 4 * 2 ≤ numWorkspaceBytes ∧
      l.numTokens * l.numTopk < 2 ^ 31 ∧ ∀ i < l.numTokens * l.numTopk, l.topk i < l.numExperts
  | .combine l _ => l.numTopk ≤ kNumMaxTopK ∧ 4 ≤ numWorkspaceBytes

instance : (c : Call) → Decidable c.Accepted
  | .dispatch _ _ => inferInstanceAs (Decidable (_ ∧ _))
  | .combine _ _ => inferInstanceAs (Decidable (_ ∧ _))

/-- The call has completed its SEND phase. -/
def SendDone : Call → Prop
  | .dispatch l s => s.SendDone l
  | .combine l s => s.SendDone l

instance : (c : Call) → Decidable c.SendDone
  | .dispatch l s => inferInstanceAs (Decidable (s.SendDone l))
  | .combine l s => inferInstanceAs (Decidable (s.SendDone l))

/-- `num_experts` of the call. -/
def numExperts : Call → ℕ
  | .dispatch l _ => l.numExperts
  | .combine l _ => l.numExperts

/-- The guard of a step of a call on the workspace. -/
def enabled (p : (ℕ → ℤ) × Call) : CallAction → Prop
  | .dispatch a =>
    match p with
    | (ws, .dispatch l s) => Dispatch.enabled l { s with ws := ws } a
    | (_, .combine ..) => False
  | .combine a =>
    match p with
    | (ws, .combine l s) => Combine.enabled l { s with ws := ws } a
    | (_, .dispatch ..) => False

instance decidableEnabled : (p : (ℕ → ℤ) × Call) → (a : CallAction) → Decidable (enabled p a)
  | (ws, .dispatch l s), .dispatch a =>
    inferInstanceAs (Decidable (Dispatch.enabled l { s with ws := ws } a))
  | (_, .combine ..), .dispatch _ => inferInstanceAs (Decidable False)
  | (ws, .combine l s), .combine a =>
    inferInstanceAs (Decidable (Combine.enabled l { s with ws := ws } a))
  | (_, .dispatch ..), .combine _ => inferInstanceAs (Decidable False)

/-- The workspace and the call after a step. -/
def fire (p : (ℕ → ℤ) × Call) : CallAction → (ℕ → ℤ) × Call
  | .dispatch a =>
    match p with
    | (ws, .dispatch l s) =>
      ((Dispatch.fire l { s with ws := ws } a).ws,
        .dispatch l (Dispatch.fire l { s with ws := ws } a))
    | (_, .combine ..) => p
  | .combine a =>
    match p with
    | (ws, .combine l s) =>
      ((Combine.fire l { s with ws := ws } a).ws, .combine l (Combine.fire l { s with ws := ws } a))
    | (_, .dispatch ..) => p

/-- The warps of one call on the workspace. -/
def machine : Machine ((ℕ → ℤ) × Call) CallAction where
  enabled := enabled
  decEnabled := decidableEnabled
  fire := fire

end Call

/-- The calls of one stream: a call is launched when every call before it has completed its
SEND phase. -/
def callsInTurn : Handover (ℕ → ℤ) Call CallAction where
  machine := Call.machine
  starts c := c.Fresh ∧ c.Accepted
  released := Call.SendDone

/-- The runs of a stream whose workspace is zero at first: `cudaMemsetAsync` in the
constructor. -/
def stream : TransitionSystem (Handover.State (ℕ → ℤ) Call) (Handover.Action Call CallAction) :=
  callsInTurn.system fun ws => ∀ i, ws i = 0

end EpDemo.Kernel
