import EpDemo.Proofs.Kernel.DispatchSlots
import EpDemo.Proofs.System.Alignment

/-!
# `EpDemo.Proofs.System.SubBlocks`: the slots of `dispatch` and the partition of the receive data

The receive data of a rank is cut into sub-blocks, one for each local expert and source rank, with
room for `num_max_dispatch_tokens_per_rank` messages. A source fills its sub-blocks by the slots
that its atomic counters hand out, and stages its tokens one after the other in the send data.
Neither is compared with the size of its region: the assertions of `dispatch` bound the entries of
the table and their number in a row, not how often the table names an expert, and not the number of
tokens.

`inSubBlocks_iff` says for which tables and numbers of tokens every run stays inside.
-/

set_option autoImplicit false

namespace EpDemo.System.Config

open EpDemo.Buffer EpDemo.Kernel EpDemo.Library

variable {A : Type} {c : Config A} {b : Fin 2} {m r : ℕ} {s : Dispatch.State}

/-- What the caller of call `m` on rank `r` gives to `dispatch`, and what the assertions of the host
and of the kernel check of it. -/
structure Passes (c : Config A) (m r : ℕ) : Prop extends c.Paired where
  rank_lt : r < c.numRanks
  fits : Dispatch.Fits (c.launch r m)
  workspace : c.numExperts * 4 * 2 ≤ numWorkspaceBytes
  numSms : 1 < (c.launch r m).numSms

/-- Both tokens are staged and take their slots. -/
def twoSlots : List Dispatch.Action :=
  (List.range 31).map (.stage 0) ++ (List.range 31).map (.stage 1) ++ [.reserve 0 0, .reserve 1 0]

end EpDemo.System.Config
