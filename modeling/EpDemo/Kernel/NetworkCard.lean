import EpDemo.Kernel.PostSend

/-!
# `EpDemo.Kernel.NetworkCard`: the consumer of a send queue

The warps post to a queue pair and the network card executes. The card counts the entries that it
has fetched, modulo `65536`, and compares that number with `send_counter` in the doorbell record:
while they differ it fetches the next slot, at any time between two steps of the warps. It does not
look at the context, which only the warps use, and the warps do not look at the card.

`Paced` is the one thing that posting does not check by itself: the entry of a slot was fetched
before the slot is written again.
-/

set_option autoImplicit false

namespace EpDemo.Kernel

open EpDemo.Library

/-- An entry, as the network card understands it. -/
inductive CardRequest
  | rdmaWrite (remote : RaddrSeg) (data : DataSeg)
  | atomicAdd (remote : RaddrSeg) (add : AtomicAddSeg) (data : DataSeg)
  deriving DecidableEq, Repr

/-- What the network card fetches from a slot: the control segment and the segments that its opcode
calls for. -/
structure Fetched where
  ctrl : CtrlSeg
  request : CardRequest
  deriving DecidableEq, Repr

/-- The entry in a slot, if it is one of the two that the kernels write. `ds` is the size of the
entry in segments. -/
def fetchWqe (slot : Bytes) : Option Fetched :=
  let ctrl := readCtrlSeg slot
  if ctrl.opcode.setWidth 32 = mlx5OpcodeRdmaWrite ∧ ctrl.opmod = 0 ∧ ctrl.ds = 3 then
    some { ctrl, request := .rdmaWrite (readRaddrSeg slot) (readDataSeg slot Offset.writeData) }
  else if ctrl.opcode.setWidth 32 = mlx5OpcodeAtomicMaskedFa ∧ ctrl.opmod = 8 ∧ ctrl.ds = 4 then
    some { ctrl, request := .atomicAdd (readRaddrSeg slot) (readAtomicAddSeg slot)
            (readDataSeg slot Offset.atomicData) }
  else none

/-- What the network card is to make of a request: the keys are big-endian already when the writers
get them. -/
def WorkRequest.fetched (qpn : BitVec 32) (wqHead : BitVec 16) : WorkRequest → Fetched
  | .rdmaWrite laddr lkey raddr rkey bytes =>
    { ctrl := { opmod := 0, wqeIndex := wqHead, opcode := 8, qpn := qpn.setWidth 24, ds := 3
                signature := 0, fmCeSe := 8, imm := 0 }
      request := .rdmaWrite { raddr := raddr, rkey := deviceByteswap32 rkey, reserved := 0 }
        { byteCount := bytes, lkey := deviceByteswap32 lkey, addr := laddr } }
  | .rdmaAtomicAdd value laddr lkey raddr rkey =>
    { ctrl := { opmod := 8, wqeIndex := wqHead, opcode := 0x15, qpn := qpn.setWidth 24, ds := 4
                signature := 0, fmCeSe := 8, imm := 0 }
      request := .atomicAdd { raddr := raddr, rkey := deviceByteswap32 rkey, reserved := 0 }
        { addData := value.toInt, fieldBoundary := 0, compare := 0 }
        { byteCount := 4, lkey := deviceByteswap32 lkey, addr := laddr } }

/-- The requests of a queue pair in the order of their posts, as the network card is to execute
them. -/
def fetchedAll (qpn : BitVec 32) (rs : List WorkRequest) : List (Option Fetched) :=
  rs.mapIdx fun k r => some (r.fetched qpn (BitVec.ofNat 16 k))

/-- The network card's side of a queue pair: the number of the next entry, and what it has executed.
An entry that it could not understand is `none`. -/
structure NetworkCard where
  next : BitVec 16
  executed : List (Option Fetched)
  deriving DecidableEq, Repr

/-- A queue pair with both of its sides. -/
structure Posting (W : Type*) where
  queue : Locked W SendQueue SendQueue.Locals WorkRequest
  card : NetworkCard

/-- What can happen next. -/
inductive PostingAction (W : Type*)
  /-- A warp comes to a post, or does its next step of one. -/
  | warp (a : LockAction W WorkRequest)
  /-- The network card fetches an entry and executes it. -/
  | fetch

namespace Posting

variable {W : Type*} [DecidableEq W]

/-- The doorbell record says that there are more entries. -/
def Rung (x : Posting W) : Prop :=
  x.card.next ≠
    (readBE x.queue.shared.dbr SendQueue.sendCounter 4 : BitVec 32).setWidth 16

instance (x : Posting W) : Decidable x.Rung := inferInstanceAs (Decidable (_ ≠ _))

/-- The guard of an action. -/
def enabled (x : Posting W) : PostingAction W → Prop
  | .warp a => Sections.enabled x.queue a
  | .fetch => x.Rung

instance decidableEnabled (x : Posting W) : (a : PostingAction W) → Decidable (x.enabled a)
  | .warp a => inferInstanceAs (Decidable (Sections.enabled x.queue a))
  | .fetch => inferInstanceAs (Decidable x.Rung)

/-- The state after an action. The network card has `numWqebb` from the creation of the queue
pair. -/
def fire (numWqebb : ℕ) (x : Posting W) : PostingAction W → Posting W
  | .warp a => { x with queue := SendQueue.post.fire x.queue a }
  | .fetch =>
    { x with
      card :=
        { next := x.card.next + 1
          executed := x.card.executed ++
            [fetchWqe (x.queue.shared.wq (x.card.next.toNat % numWqebb))] } }

/-- The warps and the network card. -/
def machine (numWqebb : ℕ) : Machine (Posting W) (PostingAction W) where
  enabled := enabled
  decEnabled := decidableEnabled
  fire := fire numWqebb

/-- The queue pair after `mlx5gda_create_rc_qp`, which stores zeros into the doorbell record, and
`init_ibgda`. -/
def start (qpn : BitVec 32) (numWqebb : ℕ) (wq : ℕ → Bytes) : Posting W where
  queue := Sections.start (SendQueue.init qpn (BitVec.ofNat 32 numWqebb) wq fun _ => 0)
  card := { next := 0, executed := [] }

/-- The runs of a queue pair. -/
def system (qpn : BitVec 32) (numWqebb : ℕ) (wq : ℕ → Bytes) :
    TransitionSystem (Posting W) (PostingAction W) :=
  (machine numWqebb).system fun x => x = start qpn numWqebb wq

/-- The next step of the warp writes its entry. -/
def writesNext : Place SendQueue.Locals WorkRequest → Bool
  | .inside _ 0 _ => true
  | _ => false

/-- A warp writes an entry only while fewer than `numWqebb` entries are not fetched yet. -/
def Paced (numWqebb : ℕ) (x : Posting W) : PostingAction W → Prop
  | .warp (.run w) => writesNext (x.queue.place w) = true →
      x.queue.finished.length < x.card.executed.length + numWqebb
  | _ => True

instance decidablePaced (numWqebb : ℕ) (x : Posting W) :
    (a : PostingAction W) → Decidable (x.Paced numWqebb a)
  | .warp (.run _) => inferInstanceAs (Decidable (_ → _))
  | .warp (.call _ _) => inferInstanceAs (Decidable True)
  | .fetch => inferInstanceAs (Decidable True)

end Posting

end EpDemo.Kernel
