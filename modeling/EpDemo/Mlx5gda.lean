import EpDemo.Library.Ledger
import EpDemo.Memheap
import Mathlib.Data.Int.Notation

/-!
# `EpDemo.Mlx5gda`: queue pairs and completion queues of `mlx5gda.cpp`

`mlx5gda_create_rc_qp` takes memory for the queues from the control-buffer heap, two UARs, a
completion queue and a queue pair from the device, and hands them back at its `fail` label when a
step fails. What the driver, the device and the CUDA runtime answer is an argument of the model: a
field of `CqAnswers` or `QpAnswers` is true when the call it is named after succeeds. An allocation
from the heap fails when the heap says so.

A pointer is the number of the object in the ledger of the device. The device also keeps the state
of every queue pair and a record of the modify commands that were issued (`issued`), each with the
state in which it found the queue pair. A command is accepted in its source state only.
-/

set_option autoImplicit false

namespace EpDemo.Mlx5gda

open EpDemo.Library EpDemo.Memheap

/-- The objects of the device. -/
inductive Obj
  | uar
  | cq
  | qp
  deriving DecidableEq, Repr

/-- The state of a queue pair. -/
inductive QpState
  | reset
  | init
  | rtr
  | rts
  deriving DecidableEq, Repr

/-- The commands of `mlx5dv_devx_obj_modify`. -/
inductive Command
  | rst2init
  | init2rtr
  | rtr2rts
  deriving DecidableEq, Repr

/-- The state that a command expects. -/
def Command.source : Command → QpState
  | .rst2init => .reset
  | .init2rtr => .init
  | .rtr2rts => .rtr

/-- The state that a command leaves. -/
def Command.target : Command → QpState
  | .rst2init => .init
  | .init2rtr => .rtr
  | .rtr2rts => .rts

/-- A modify command and the state in which it found the queue pair, if there is one. -/
structure Issued where
  command : Command
  state : Option QpState
  deriving DecidableEq, Repr

/-- The queue pair was in the state that the command expects. -/
def Issued.Legal (c : Issued) : Prop := c.state = some c.command.source

/-- The device with the control-buffer heap. -/
structure Device where
  heap : Heap
  objects : Ledger Obj
  qpState : ℕ → Option QpState
  issued : List Issued

/-- `port_attr.link_layer`. -/
inductive LinkLayer
  | unspecified
  | infiniband
  | ethernet
  deriving DecidableEq, Repr

/-- `struct mlx5gda_cq`. -/
structure Cq where
  mcq : ℕ
  uar : ℕ
  cqn : ℕ
  cqe : ℕ
  cqOffset : ℕ
  dbrOffset : ℕ
  deriving DecidableEq, Repr

/-- `struct mlx5gda_qp`. -/
structure Qp where
  mqp : ℕ
  sendCq : Cq
  uar : ℕ
  linkLayer : LinkLayer
  qpn : ℕ
  numWqebb : ℕ
  wqOffset : ℕ
  dbrOffset : ℕ
  deriving DecidableEq, Repr

/-- The answers during `mlx5gda_create_cq`. -/
structure CqAnswers where
  memset : Bool
  malloc : Bool
  queryEqn : Bool
  allocUar : Bool
  synchronize : Bool
  objCreate : Bool
  cqn : ℕ
  deriving DecidableEq, Repr

/-- The answers during `mlx5gda_create_rc_qp`. -/
structure QpAnswers where
  calloc : Bool
  queryPort : Bool
  linkLayer : LinkLayer
  generalCmd : Bool
  cqeVersion : ℕ
  cq : CqAnswers
  allocUar : Bool
  hostRegister : Bool
  memset : Bool
  synchronize : Bool
  objCreate : Bool
  qpn : ℕ
  deriving DecidableEq, Repr

/-- Every step of `mlx5gda_create_cq` succeeds. -/
def CqAnswers.success (cqn : ℕ) : CqAnswers where
  memset := true
  malloc := true
  queryEqn := true
  allocUar := true
  synchronize := true
  objCreate := true
  cqn := cqn

/-- Every step of `mlx5gda_create_rc_qp` succeeds. -/
def QpAnswers.success (linkLayer : LinkLayer) (cqn qpn : ℕ) : QpAnswers where
  calloc := true
  queryPort := true
  linkLayer := linkLayer
  generalCmd := true
  cqeVersion := 1
  cq := .success cqn
  allocUar := true
  hostRegister := true
  memset := true
  synchronize := true
  objCreate := true
  qpn := qpn

/-- `MLX5_ADAPTER_PAGE_SHIFT`. -/
def adapterPageShift : ℕ := 12

/-- `sizeof(struct mlx5_cqe64)`, and `sizeof(struct mlx5gda_wqebb)`. -/
def queueEntryBytes : ℕ := 64

/-- `sizeof(struct mlx5gda_cq_dbr)`, and `sizeof(struct mlx5gda_wq_dbr)`. -/
def dbrBytes : ℕ := 8

/-- `round_up_pow2`: double until `n` is reached. The loop ends within the 32 bits of `n`. -/
def roundUpPow2 (n : ℕ) : ℕ :=
  if n ≤ 1 then 1 else (List.range 32).foldl (fun pow2 _ => if pow2 < n then 2 * pow2 else pow2) 1

namespace Device

/-- A device without objects, and a heap that was just created. -/
def fresh (size : ℕ) : Device where
  heap := memheapCreate size
  objects := .empty
  qpState _ := none
  issued := []

/-- `memheap_aligned_alloc` on the control-buffer heap. -/
def alignedAlloc (d : Device) (size align : ℕ) : Device × ℕ :=
  let r := memheapAlignedAlloc d.heap size align
  ({ d with heap := r.1 }, r.2)

/-- `memheap_alloc` on the control-buffer heap. -/
def alloc (d : Device) (size : ℕ) : Device × ℕ :=
  let r := memheapAlloc d.heap size
  ({ d with heap := r.1 }, r.2)

/-- `memheap_free` on the control-buffer heap. -/
def free (d : Device) (offset : ℕ) : Device := { d with heap := memheapFree d.heap offset }

/-- The device makes an object. A queue pair starts in RESET. -/
def create (d : Device) (k : Obj) : Device × ℕ :=
  ({ d with
      objects := d.objects.acquire k
      qpState := if k = .qp then Function.update d.qpState d.objects.next (some .reset)
        else d.qpState },
    d.objects.next)

/-- The device destroys an object. -/
def destroy (d : Device) (k : Obj) (id : ℕ) : Device :=
  { d with
    objects := d.objects.release (k, id)
    qpState := if k = .qp then Function.update d.qpState id none else d.qpState }

/-- A modify command. The device refuses it in any state but its source state, and may fail. -/
def modify (d : Device) (command : Command) (mqp : ℕ) (ok : Bool) : Device × Bool :=
  let state := d.qpState mqp
  let d := { d with issued := ⟨command, state⟩ :: d.issued }
  if state = some command.source ∧ ok = true then
    ({ d with qpState := Function.update d.qpState mqp (some command.target) }, true)
  else (d, false)

end Device

/-- `create_uar`: a UAR whose registers are mapped, or none. -/
def createUar (d : Device) (allocUar hostRegister : Bool) : Device × Option ℕ :=
  if !allocUar then (d, none)
  else
    let (d, uar) := d.create .uar
    if !hostRegister then (d.destroy .uar uar, none) else (d, some uar)

/-- `mlx5gda_create_cq`. At the label `fail`, the UAR is freed if there is one, and the memory of
the queue and of the doorbell record is kept. -/
def mlx5gdaCreateCq (d : Device) (cqe : ℤ) (ans : CqAnswers) : Device × Option Cq :=
  if cqe ≤ 0 then (d, none)
  else
    let numCqe := roundUpPow2 cqe.toNat
    let (d, cqOffset) := d.alignedAlloc (numCqe * queueEntryBytes) (2 ^ adapterPageShift)
    if cqOffset = sizeMax then (d, none)
    else if !ans.memset then (d, none)
    else
      let (d, dbrOffset) := d.alloc dbrBytes
      if dbrOffset = sizeMax then (d, none)
      else if !ans.malloc then (d, none)
      else if !ans.queryEqn then (d, none)
      else if !ans.allocUar then (d, none)
      else
        let (d, uar) := d.create .uar
        if !ans.synchronize then (d.destroy .uar uar, none)
        else if !ans.objCreate then (d.destroy .uar uar, none)
        else
          let (d, mcq) := d.create .cq
          (d, some ⟨mcq, uar, ans.cqn, numCqe, cqOffset, dbrOffset⟩)

/-- `mlx5gda_destroy_cq`. -/
def mlx5gdaDestroyCq (d : Device) (cq : Cq) : Device :=
  (((d.destroy .cq cq.mcq).destroy .uar cq.uar).free cq.cqOffset).free cq.dbrOffset

/-- The label `fail` of `mlx5gda_create_rc_qp`, with what was acquired so far. The queue pair
itself is the last step, so it is never among it. -/
def createRcQpFail (d : Device) (uar : Option ℕ) (sendCq : Option Cq) (wqOffset dbrOffset : ℕ) :
    Device :=
  let d := match uar with
    | some uar => d.destroy .uar uar
    | none => d
  let d := match sendCq with
    | some cq => mlx5gdaDestroyCq d cq
    | none => d
  let d := if wqOffset ≠ sizeMax then d.free wqOffset else d
  if dbrOffset ≠ sizeMax then d.free dbrOffset else d

/-- `mlx5gda_create_rc_qp`. -/
def mlx5gdaCreateRcQp (d : Device) (wqe : ℤ) (ans : QpAnswers) : Device × Option Qp :=
  if wqe ≤ 0 then (d, none)
  else
    let numWqebb := roundUpPow2 wqe.toNat
    if !ans.calloc then (d, none)
    else if !ans.queryPort then (d, none)
    else if !ans.generalCmd then (d, none)
    else if ans.cqeVersion ≠ 1 then (d, none)
    else
      match mlx5gdaCreateCq d wqe ans.cq with
      | (d, none) => (d, none)
      | (d, some sendCq) =>
        match createUar d ans.allocUar ans.hostRegister with
        | (d, none) => (createRcQpFail d none (some sendCq) sizeMax sizeMax, none)
        | (d, some uar) =>
          let (d, wqOffset) :=
            d.alignedAlloc (numWqebb * queueEntryBytes) (2 ^ adapterPageShift)
          if wqOffset = sizeMax then
            (createRcQpFail d (some uar) (some sendCq) sizeMax sizeMax, none)
          else
            let (d, dbrOffset) := d.alloc dbrBytes
            if dbrOffset = sizeMax then
              (createRcQpFail d (some uar) (some sendCq) wqOffset sizeMax, none)
            else if !ans.memset || !ans.synchronize || !ans.objCreate then
              (createRcQpFail d (some uar) (some sendCq) wqOffset dbrOffset, none)
            else
              let (d, mqp) := d.create .qp
              (d, some ⟨mqp, sendCq, uar, ans.linkLayer, ans.qpn, numWqebb, wqOffset, dbrOffset⟩)

/-- `mlx5gda_destroy_qp`. -/
def mlx5gdaDestroyQp (d : Device) (qp : Qp) : Device :=
  let d := (d.destroy .qp qp.mqp).destroy .uar qp.uar
  let d := mlx5gdaDestroyCq d qp.sendCq
  let d := if qp.wqOffset ≠ sizeMax then d.free qp.wqOffset else d
  if qp.dbrOffset ≠ sizeMax then d.free qp.dbrOffset else d

/-- `mlx5gda_modify_rc_qp_rst2init`. -/
def mlx5gdaModifyRcQpRst2init (d : Device) (qp : Option Qp) (ok : Bool) : Device × Bool :=
  match qp with
  | none => (d, false)
  | some qp => d.modify .rst2init qp.mqp ok

/-- `mlx5gda_modify_rc_qp_init2rtr`. On Ethernet the address handle comes first, and without it no
command is issued. -/
def mlx5gdaModifyRcQpInit2rtr (d : Device) (qp : Option Qp) (createAh ok : Bool) :
    Device × Bool :=
  match qp with
  | none => (d, false)
  | some qp =>
    if qp.linkLayer = .ethernet ∧ createAh = false then (d, false)
    else d.modify .init2rtr qp.mqp ok

/-- `mlx5gda_modify_rc_qp_rtr2rts`. -/
def mlx5gdaModifyRcQpRtr2rts (d : Device) (qp : Option Qp) (ok : Bool) : Device × Bool :=
  match qp with
  | none => (d, false)
  | some qp => d.modify .rtr2rts qp.mqp ok

end EpDemo.Mlx5gda
