import EpDemo.Kernel.Combine
import Mathlib.Data.Finset.Filter
import Mathlib.Data.Finset.Card
import Mathlib.Data.Finset.Range

/-!
# `EpDemo.Kernel.Residency`: the blocks of `combine` on a device

`combine` is launched without the cooperative attribute, so the device holds only some number
of its blocks at a time, and a block leaves when it has finished. The warps of a block take
the steps of `Kernel.Combine` while the block is resident. Both phases run in one launch of
the blocks, or each in a launch of its own.

A wait loop that goes round once more changes nothing, so only the ways out of it are steps
here: the signal is there, the timeout has passed, or the source rank is not active. The
signals of the other ranks are delivered at any time. The signal of a rank to itself is there
when the group has stored it.
-/

set_option autoImplicit false

namespace EpDemo.Kernel.Combine

open EpDemo.Library

/-- The progress of a block of a launch. -/
inductive BlockPc
  | pending
  | resident
  | finished
  deriving DecidableEq, Repr

/-- The device: the warps of the launch, its blocks, which of two launches this is, and the
signals of other ranks that have arrived. -/
structure Device where
  kernel : State
  block : ℕ → BlockPc
  second : Bool
  delivered : ℕ → Bool

/-- The step belongs to the SEND phase. -/
def Action.sends : Action → Bool
  | .clean _ | .publish | .stageRow .. | .sendRow .. | .open _ | .signal _ | .drop _ => true
  | _ => false

/-- The step is a part of a round of the wait loop. -/
def Action.waits : Action → Bool
  | .miss _ | .expire _ | .giveUp _ | .retry _ => true
  | _ => false

/-- The block whose warp takes the step. The grid barrier is a step of all blocks. -/
def Action.block (l : CombineLaunch) : Action → Option ℕ
  | .clean _ | .publish => some 0
  | .stageRow e _ | .sendRow e _ | .open e | .signal e | .drop e | .acquire e _ | .miss e
  | .expire e | .giveUp e | .retry e => some (e / kNumWarpGroups)
  | .accum t _ | .store t _ => some (t % l.numSms)
  | .gridSync => none

/-- What can happen next on the device. -/
inductive DeviceAction
  /-- A pending block becomes resident. -/
  | schedule (b : ℕ)
  /-- A resident block has finished and leaves. -/
  | exit (b : ℕ)
  /-- The SEND launch has ended and the RECV launch begins. -/
  | relaunch
  /-- The signal for expert `e` arrives from another rank. -/
  | deliver (e : ℕ)
  /-- A warp takes a step. -/
  | act (a : Action)
  /-- The wait for expert `e` ends with the timeout. -/
  | timeout (e : ℕ)
  /-- The wait for expert `e` ends because the source rank is not active. -/
  | inactive (e : ℕ)

/-- The last round of a wait loop that ends with the timeout. -/
def timeoutSteps (e : ℕ) : List Action := [.miss e, .expire e, .giveUp e]

/-- The last round of a wait loop that ends because the source rank is not active. -/
def inactiveSteps (e : ℕ) : List Action := [.miss e, .giveUp e]

section

variable (l : CombineLaunch)

/-- The SEND code of block `b` has finished. -/
def State.BlockSent (s : State) (b : ℕ) : Prop :=
  (b = 0 → s.published = true) ∧
    ∀ e < l.numExperts, e / kNumWarpGroups = b →
      (∀ k < l.numRows e, s.row (e, k) = .sent) ∧ s.signal e = .done

instance (s : State) (b : ℕ) : Decidable (s.BlockSent l b) := inferInstanceAs (Decidable (_ ∧ _))

/-- The RECV code of block `b` has finished. -/
def State.BlockReduced (s : State) (b : ℕ) : Prop :=
  s.reducing = true ∧
    ∀ t < l.numTokens, t % l.numSms = b → ∀ w < l.numReduceWarps, s.stored (t, w) = true

instance (s : State) (b : ℕ) : Decidable (s.BlockReduced l b) :=
  inferInstanceAs (Decidable (_ ∧ _))

end

namespace Device

section

variable (l : CombineLaunch) (p : Device)

/-- The launch runs the RECV phase. -/
def Receiving : Prop := l.fused = true ∨ p.second = true

instance : Decidable (p.Receiving l) := inferInstanceAs (Decidable (_ ∨ _))

/-- The signal for expert `e` is in the receive buffer. -/
def Arrived (e : ℕ) : Prop :=
  if e / l.numLocalExperts = l.rank then (p.kernel.signal e).isSent = true else p.delivered e = true

instance (e : ℕ) : Decidable (p.Arrived l e) := by
  unfold Arrived; infer_instance

/-- A warp that waits for a signal can only pass when it is there. -/
def Ready : Action → Prop
  | .acquire e _ => p.Arrived l e
  | _ => True

instance : (a : Action) → Decidable (p.Ready l a)
  | .acquire e _ => inferInstanceAs (Decidable (p.Arrived l e))
  | .clean _ | .publish | .stageRow .. | .sendRow .. | .open _ | .signal _ | .drop _ | .miss _
  | .expire _ | .giveUp _ | .retry _ | .gridSync | .accum .. | .store .. =>
    inferInstanceAs (Decidable True)

/-- The number of resident blocks. -/
def numResident : ℕ := ((Finset.range l.numSms).filter fun b => p.block b = .resident).card

end

end Device

section

variable (l : CombineLaunch) (C : ℕ)

/-- The guard of an action on a device that holds `C` blocks. -/
def deviceEnabled (p : Device) : DeviceAction → Prop
  | .schedule b => b < l.numSms ∧ p.block b = .pending ∧ p.numResident l < C
  | .exit b => b < l.numSms ∧ p.block b = .resident ∧ (p.second = false → p.kernel.BlockSent l b) ∧
      (p.Receiving l → p.kernel.BlockReduced l b)
  | .relaunch => l.fused = false ∧ p.second = false ∧ ∀ b < l.numSms, p.block b = .finished
  | .deliver e => e < l.numExperts ∧ e / l.numLocalExperts ≠ l.rank ∧ p.delivered e = false
  | .act a => a.waits = false ∧ (if a.sends then p.second = false else p.Receiving l) ∧
      (∀ b ∈ a.block l, p.block b = .resident) ∧ p.Ready l a ∧ enabled l p.kernel a
  | .timeout e => p.Receiving l ∧ p.block (e / kNumWarpGroups) = .resident ∧
      (machine l).Legal p.kernel (timeoutSteps e)
  | .inactive e => p.Receiving l ∧ p.block (e / kNumWarpGroups) = .resident ∧
      (machine l).Legal p.kernel (inactiveSteps e)

instance decidableDeviceEnabled (p : Device) :
    (a : DeviceAction) → Decidable (deviceEnabled l C p a)
  | .schedule _ | .exit _ | .relaunch | .deliver _ | .act _ | .timeout _ | .inactive _ => by
    dsimp only [deviceEnabled]; infer_instance

/-- The device after an action. -/
def deviceFire (p : Device) : DeviceAction → Device
  | .schedule b => { p with block := Function.update p.block b .resident }
  | .exit b => { p with block := Function.update p.block b .finished }
  | .relaunch => { p with block := fun _ => .pending, second := true }
  | .deliver e => { p with delivered := Function.update p.delivered e true }
  | .act a => { p with kernel := fire l p.kernel a }
  | .timeout e => { p with kernel := (machine l).exec p.kernel (timeoutSteps e) }
  | .inactive e => { p with kernel := (machine l).exec p.kernel (inactiveSteps e) }

/-- The blocks of a call of `combine` on a device that holds `C` of them. -/
def deviceMachine : Machine Device DeviceAction where
  enabled := deviceEnabled l C
  decEnabled := decidableDeviceEnabled l C
  fire := deviceFire l

/-- Nothing has happened: the clean flag is zero and every block is pending. -/
structure Device.Fresh (p : Device) : Prop where
  kernel : p.kernel.Fresh
  flag : p.kernel.ws 0 = 0
  block : ∀ b, p.block b = .pending
  second : p.second = false

/-- The runs of a call of `combine` on a device that holds `C` blocks. -/
def device : TransitionSystem Device DeviceAction := (deviceMachine l C).system Device.Fresh

end

end EpDemo.Kernel.Combine
