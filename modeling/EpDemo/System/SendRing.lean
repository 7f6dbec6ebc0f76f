import EpDemo.Library.Ring
import EpDemo.System.World

/-!
# `EpDemo.System.SendRing`: the send rings under the queue pairs

`mlx5gda_qp_devctx` holds a 16-bit counter `wq_head`, and a work request is written into slot
`wq_head & wqeid_mask` of a ring of `num_wqebb` slots. Both kinds of work request fill one slot.
`__mlx5gda_device_poll_cq`, which would wait for completions, is called by no kernel.

The network card executes the work requests of a queue pair in order (`World`), and completes
them in order, at any time after it has executed them.
-/

set_option autoImplicit false

namespace EpDemo.System

open EpDemo.Kernel EpDemo.Library

/-- `num_wqebb` of the queue pairs that `init_ibgda` creates, a power of two already. -/
def numWqebb : ℕ := 16384

/-- `wqeid_mask`. -/
def wqeidMask : ℕ := numWqebb - 1

/-- The world and the ring of every queue pair. -/
structure Rings (A : Type) where
  world : World A
  ring : ℕ × ℕ → Ring 16

/-- What can happen next. -/
inductive RingAction
  | world (a : Action)
  /-- The network card completes the oldest uncompleted work request of a queue pair. -/
  | complete (q : ℕ × ℕ)
  deriving DecidableEq

namespace Config

variable {A : Type} (c : Config A)

/-- The queue pair that an action writes a work request to. -/
def posts (w : World A) : Action → Option (ℕ × ℕ)
  | .dispatch r (.send t warp) =>
    let e := ((c.launch r (w.call r)).dstExpertIdx t warp).toNat
    let d := e / c.numLocalExperts
    if c.fabric.path r d = .rdma then
      some (r, dispatchDataCtx c.maxQpCount c.numRanks d (e % c.numLocalExperts))
    else none
  | .dispatch r (.signal e) =>
    let d := e / c.numLocalExperts
    if c.fabric.path r d = .rdma then
      some (r, dispatchSignalCtx c.maxQpCount c.numRanks d (e % c.numLocalExperts))
    else none
  | .combine r (.sendRow e _) =>
    let d := e / c.numLocalExperts
    if c.fabric.path r d = .rdma then
      some (r, combineDataCtx c.maxQpCount c.numRanks d (e % c.numLocalExperts))
    else none
  | .combine r (.signal e) =>
    let d := e / c.numLocalExperts
    if c.fabric.path r d = .rdma then
      some (r, combineSignalCtx c.maxQpCount c.numRanks d (e % c.numLocalExperts))
    else none
  | _ => none

/-- The guard of an action. -/
def ringEnabled (p : Rings A) : RingAction → Prop
  | .world a => c.enabled p.world a
  | .complete q => (p.ring q).consumed + (p.world.nic q).length < (p.ring q).written

instance decidableRingEnabled (p : Rings A) : (a : RingAction) → Decidable (c.ringEnabled p a)
  | .world a => inferInstanceAs (Decidable (c.enabled p.world a))
  | .complete _ => inferInstanceAs (Decidable (_ < _))

/-- The state after an action. -/
def ringFire (p : Rings A) : RingAction → Rings A
  | .world a =>
    { world := c.fire p.world a
      ring :=
        match c.posts p.world a with
        | some q => Function.update p.ring q ((p.ring q).write wqeidMask)
        | none => p.ring }
  | .complete q => { p with ring := Function.update p.ring q (p.ring q).consume }

/-- The ranks, their network cards and the send rings. -/
def ringMachine : Machine (Rings A) RingAction where
  enabled := c.ringEnabled
  decEnabled := c.decidableRingEnabled
  fire := c.ringFire

/-- A state before the first call: the queue pairs are new. -/
structure RingInit (p : Rings A) : Prop where
  world : c.Init p.world
  ring : ∀ q, p.ring q = .empty 16

/-- The runs of the system with its send rings. -/
def ringSystem : TransitionSystem (Rings A) RingAction := c.ringMachine.system c.RingInit

/-- The ring is not overrun by the next step: a work request is only written into a slot whose
previous work request has been completed, that is, while fewer than `num_wqebb` work requests
of the queue pair are posted and uncompleted. -/
def NoOverrun (p : Rings A) : Prop :=
  ∀ a, c.enabled p.world a → ∀ q, c.posts p.world a = some q →
    (p.ring q).Free wqeidMask ∧ (p.ring q).outstanding < numWqebb

end Config

end EpDemo.System
