import EpDemo.Kernel.Wqe
import EpDemo.Library.Transition
import Mathlib.Data.List.Chain
import Mathlib.Data.List.Forall2

/-!
# `EpDemo.Kernel.PollCq`: waiting for a completion

`__mlx5gda_device_poll_cq` looks at the one entry of the completion queue until the counter in it
has passed the work request that it waits for. It takes part in no lock, and the network card
completes work requests between its looks, so what it reads is an argument here: one `CqeLoad` for
each pass of the loop.

The second part says what the network card shows. The numbers there do not wrap: the counters of the
program are these numbers modulo `65536`.
-/

set_option autoImplicit false

namespace EpDemo.Kernel

open EpDemo.Library

/-- What one pass of the loop reads of the entry: `wqe_counter`, as it is loaded, and `op_own`. -/
structure CqeLoad where
  wqeCounterBe : BitVec 16
  opOwn : BitVec 8
  deriving DecidableEq, Repr

/-- How a call ends after these looks at the entry. -/
inductive PollResult
  /-- It returns, and `wq_tail` of the context is as given. The other looks were not made. -/
  | returned (wqTail : BitVec 16) (notMade : List CqeLoad)
  /-- The assertion on the opcode failed. -/
  | trapped
  /-- It would look again. -/
  | waiting (wqTail : BitVec 16)
  deriving DecidableEq, Repr

/-- The condition of the loop: `(int16_t)(wq_tail - expect) <= 0`. -/
def stillWaits (wqTail expect : BitVec 16) : Prop := (wqTail - expect).toInt ≤ 0

instance (wqTail expect : BitVec 16) : Decidable (stillWaits wqTail expect) :=
  inferInstanceAs (Decidable (_ ≤ _))

/-- `__mlx5gda_device_poll_cq`, from `wq_tail` of the context. The store at its end writes the local
variable back when they differ. -/
def pollCq (expect : BitVec 16) : BitVec 16 → List CqeLoad → PollResult
  | wqTail, [] => if stillWaits wqTail expect then .waiting wqTail else .returned wqTail []
  | wqTail, l :: loads =>
    if stillWaits wqTail expect then
      let opcode := l.opOwn >>> 4
      if opcode = 0x0 ∨ opcode = 0xF then
        pollCq expect (deviceByteswap16 l.wqeCounterBe + 1) loads
      else .trapped
    else .returned wqTail (l :: loads)

/-! ### What the network card shows -/

/-- The load sees `completed` completions: the two bytes of `wqe_counter` are the index of the last
completed work request, and 0xFFFF when there is none, the highest byte first. -/
def CqeLoad.Shows (l : CqeLoad) (completed : ℕ) : Prop :=
  readBE (storeLE (fun _ => 0) 0 2 l.wqeCounterBe) 0 2 = BitVec.ofNat 16 (completed + 65535)

/-- A queue pair as a poll finds it: how many work requests were posted and completed, and how many
completions the last poll saw, which `wq_tail` counts. -/
structure SendCq where
  posted : ℕ
  completed : ℕ
  tail : ℕ
  deriving DecidableEq, Repr

namespace SendCq

/-- `ctx->wq_tail`. -/
def wqTail (s : SendCq) : BitVec 16 := BitVec.ofNat 16 s.tail

/-- At most `numWqebb` work requests are posted and not completed, and earlier polls saw no more
completions than there are. -/
structure Valid (numWqebb : ℕ) (s : SendCq) : Prop where
  completed_le : s.completed ≤ s.posted
  posted_le : s.posted ≤ s.completed + numWqebb
  tail_le : s.tail ≤ s.completed

/-- `expect` is one of the last `numWqebb` posted work requests. -/
def IsRecent (numWqebb : ℕ) (s : SendCq) (expect : ℕ) : Prop :=
  expect < s.posted ∧ s.posted ≤ expect + numWqebb

/-- The looks of a poll see the numbers of completions `seen`, which only grow, up to the number
`now` at its end. -/
structure Looks (s : SendCq) (loads : List CqeLoad) (seen : List ℕ) (now : ℕ) : Prop where
  shows : List.Forall₂ CqeLoad.Shows loads seen
  grows : List.IsChain (· ≤ ·) (s.completed :: seen ++ [now])

/-- However the network card goes on, a call that returns does so when the work request `expect` has
completed, and `wq_tail` is then the last number of completions that was seen, which is not ahead of
their number. -/
def PollSound (s : SendCq) (expect : ℕ) : Prop :=
  ∀ loads seen now, s.Looks loads seen now →
    ∀ wqTail, pollCq (BitVec.ofNat 16 expect) s.wqTail loads = .returned wqTail [] →
      expect < now ∧ seen.getLastD s.tail ≤ now ∧ wqTail = BitVec.ofNat 16 (seen.getLastD s.tail)

/-- What can happen next to a queue pair of `numWqebb` slots. -/
inductive Step (numWqebb : ℕ) : SendCq → Option ℕ → SendCq → Prop
  | post {s : SendCq} : s.posted < s.completed + numWqebb →
    Step numWqebb s none { s with posted := s.posted + 1 }
  | complete {s : SendCq} : s.completed < s.posted →
    Step numWqebb s none { s with completed := s.completed + 1 }
  /-- A call that waits for a recent work request returns. Others are posted and completed
  meanwhile. -/
  | poll {s : SendCq} {expect posted now : ℕ} {loads : List CqeLoad} {seen : List ℕ}
      {wqTail : BitVec 16} : s.IsRecent numWqebb expect → s.Looks loads seen now →
    pollCq (BitVec.ofNat 16 expect) s.wqTail loads = .returned wqTail [] →
    now ≤ posted → posted ≤ now + numWqebb →
    Step numWqebb s (some expect)
      { posted := posted, completed := now, tail := seen.getLastD s.tail }

/-- The runs of a queue pair with any number of posts and polls. -/
def system (numWqebb : ℕ) : TransitionSystem SendCq (Option ℕ) where
  init s := s = { posted := 0, completed := 0, tail := 0 }
  step := Step numWqebb

end SendCq

end EpDemo.Kernel
