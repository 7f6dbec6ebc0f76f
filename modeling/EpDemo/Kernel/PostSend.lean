import EpDemo.Kernel.Wqe
import EpDemo.Library.Mutex

/-!
# `EpDemo.Kernel.PostSend`: posting to a queue pair

A warp posts a work request in the section under `mutex` of the queue pair's context: it writes the
entry into the slot of `wq_head`, counts `wq_head` up, stores the counter into the doorbell record,
copies the first 8 bytes of the last entry to the BlueFlame register and toggles the half of the
register. These are the steps between which the other warps run.

`device_mutex_lock_system` and `device_mutex_unlock_system` are the lock of the sections. The log
holds what the network card sees, in order: it is not part of the program.
-/

set_option autoImplicit false

namespace EpDemo.Kernel

open EpDemo.Library

/-- `MLX5GDA_BF_SIZE`. -/
def mlx5gdaBfSize : BitVec 32 := 256

/-- `mlx5gda_qp_devctx`, less the pointers, the mutex and `wq_tail`, which posting does not read. -/
structure QpDevctx where
  qpn : BitVec 32
  wqeidMask : BitVec 32
  bfOffset : BitVec 32
  wqHead : BitVec 16
  deriving DecidableEq, Repr

/-- `ctx->wq + (ctx->wq_head & ctx->wqeid_mask)`, as the index of a slot. -/
def QpDevctx.slot (ctx : QpDevctx) : ℕ := (ctx.wqHead.setWidth 32 &&& ctx.wqeidMask).toNat

/-- A work request: the arguments of the two writers, less the context. -/
inductive WorkRequest
  | rdmaWrite (laddr : BitVec 64) (lkey : BitVec 32) (raddr : BitVec 64) (rkey bytes : BitVec 32)
  | rdmaAtomicAdd (value : BitVec 32) (laddr : BitVec 64) (lkey : BitVec 32) (raddr : BitVec 64)
    (rkey : BitVec 32)

/-- What the writer of a request makes of a slot. -/
def WorkRequest.wqe (slot : Bytes) (qpn : BitVec 32) (wqHead : BitVec 16) : WorkRequest → Bytes
  | .rdmaWrite laddr lkey raddr rkey bytes =>
    writeRdmaWriteWqe slot qpn wqHead laddr lkey raddr rkey bytes
  | .rdmaAtomicAdd value laddr lkey raddr rkey =>
    writeRdmaAtomicAddWqe slot qpn wqHead value laddr lkey raddr rkey

/-- What the network card sees. -/
inductive PostEvent
  /-- A slot was written. -/
  | wqe (slot : ℕ) (contents : Bytes)
  /-- `send_counter` was stored, and this is its big-endian reading. -/
  | doorbell (sendCounter : BitVec 32)
  /-- 8 bytes were stored at an offset of the BlueFlame register. -/
  | blueFlame (offset : BitVec 32) (value : BitVec 64)

/-- A queue pair: its context, its slots, `mlx5gda_wq_dbr` and the log. -/
structure SendQueue where
  ctx : QpDevctx
  wq : ℕ → Bytes
  dbr : Bytes
  log : List PostEvent

namespace SendQueue

/-- `send_counter` in `mlx5gda_wq_dbr`. -/
def sendCounter : ℕ := 4

/-- The local variable of `__mlx5gda_device_post_send_db` that lives from one step to another,
`num_posted_wqe`. -/
abbrev Locals := BitVec 32

/-- The entry is written. -/
def writeWqe (r : WorkRequest) (x : SendQueue × Locals) : SendQueue × Locals :=
  let q := x.1
  let contents := r.wqe (q.wq q.ctx.slot) q.ctx.qpn q.ctx.wqHead
  ({ q with
      wq := Function.update q.wq q.ctx.slot contents
      log := q.log ++ [.wqe q.ctx.slot contents] }, x.2)

/-- `++ctx->wq_head`. -/
def countHead (x : SendQueue × Locals) : SendQueue × Locals :=
  ({ x.1 with ctx := { x.1.ctx with wqHead := x.1.ctx.wqHead + 1 } }, x.2)

/-- `num_posted_wqe` is read and `send_counter` is stored. -/
def ringDoorbell (x : SendQueue × Locals) : SendQueue × Locals :=
  let q := x.1
  let dbr := storeLE q.dbr sendCounter 4 (deviceByteswap32 (q.ctx.wqHead.setWidth 32))
  ({ q with dbr := dbr, log := q.log ++ [.doorbell (readBE dbr sendCounter 4)] },
    q.ctx.wqHead.setWidth 32)

/-- The first 8 bytes of `last_wqe` are stored into the BlueFlame register. -/
def storeBlueFlame (x : SendQueue × Locals) : SendQueue × Locals :=
  let q := x.1
  let lastWqe := q.wq ((x.2 - 1) &&& q.ctx.wqeidMask).toNat
  ({ q with log := q.log ++ [.blueFlame q.ctx.bfOffset (readLE lastWqe 0 8)] }, x.2)

/-- `ctx->bf_offset ^= MLX5GDA_BF_SIZE`. -/
def toggleBlueFlame (x : SendQueue × Locals) : SendQueue × Locals :=
  ({ x.1 with ctx := { x.1.ctx with bfOffset := x.1.ctx.bfOffset ^^^ mlx5gdaBfSize } }, x.2)

/-- A writer and `__mlx5gda_device_post_send_db`, which the kernels call under the mutex. -/
def post : Sections SendQueue Locals WorkRequest where
  locals := 0
  steps r := [writeWqe r, countHead, ringDoorbell, storeBlueFlame, toggleBlueFlame]

/-- The queue pair that `init_ibgda` builds: the fields of the context that it does not name are
zero. -/
def init (qpn numWqebb : BitVec 32) (wq : ℕ → Bytes) (dbr : Bytes) : SendQueue where
  ctx := { qpn := qpn, wqeidMask := numWqebb - 1, bfOffset := 0, wqHead := 0 }
  wq := wq
  dbr := dbr
  log := []

end SendQueue

end EpDemo.Kernel
