import EpDemo.Buffer.Layout
import EpDemo.System.World

/-!
# `EpDemo.System.VectorAccess`: the 16-byte accesses of the kernels

Rows are loaded and stored in vectors of 16 bytes, an `int4`. These are the accesses into the
communication buffers, with the pointers of `World`: the vectors of a row follow each other from the
start of the row, or from the end of the header of a message. An address is the base of the buffer
of the pointer's rank and its offset.
-/

set_option autoImplicit false

namespace EpDemo.System

open EpDemo.Kernel

/-- `sizeof(int4)`. -/
def sizeofInt4 : ℕ := 16

/-- `sizeof(int4) / sizeof(nv_bfloat16)`: `kNumElemsPerRead` of `dispatch` and `kNumElemsPerInt4` of
`combine`. -/
def kNumElemsPerInt4 : ℕ := 8

/-- A load or store of an `int4`, one constructor for each place of the source. -/
inductive VectorAccess
  /-- `rdma_x_vec[i]`: the payload of a staging row. -/
  | stagePayload (tokenIdx i : ℕ)
  /-- `src_int4_ptr[i]`: the staging row of a message that is copied by stores. -/
  | messageLoad (tokenIdx dstRank i : ℕ)
  /-- `dst_int4_ptr[i]`: its slot on the destination rank. -/
  | messageStore (dstRank dstExpertLocalIdx : ℕ) (slotIdx : ℤ) (i : ℕ)
  /-- `src_data[k]`: the payload of a received message. -/
  | payloadLoad (localExpertIdx srcRank : ℕ) (i : ℤ) (k : ℕ)
  /-- `dst_int4_ptr[k]` of `combine`: the slot of a row that is copied by stores. -/
  | slotStore (dstRank localExpertIdx : ℕ) (srcIdx : ℤ) (k : ℕ)
  /-- `buf_int4_ptr[k]`: the staging row of a row that the network card sends. -/
  | slotStage (dstRank localExpertIdx : ℕ) (tokenIdx : ℤ) (k : ℕ)
  /-- The slot that the reduction loads. -/
  | slotLoad (topkIdx tokenIdx threadId : ℕ)
  deriving DecidableEq, Repr

namespace Config

variable {A : Type} (c : Config A)

/-- `num_int4_per_msg`. -/
def numInt4PerMsg : ℕ := c.shape.numBytesPerMsg / sizeofInt4

/-- `hidden_int4` of `dispatch`. -/
def hiddenInt4 : ℕ := c.shape.hiddenBytes / sizeofInt4

/-- `hidden_bf16_int4`. -/
def hiddenBf16Int4 : ℕ := c.shape.hidden / kNumElemsPerInt4

/-- The kernels of rank `r` make the access: the vector is one of its row, and the row goes to its
destination in this way. A payload in FP8 is staged by stores of 8 bytes. -/
def Performs (r : ℕ) : VectorAccess → Prop
  | .stagePayload _ i => c.shape.useFp8 = false ∧ i < c.hiddenBf16Int4
  | .messageLoad _ d i => c.fabric.path r d ≠ .rdma ∧ i < c.numInt4PerMsg
  | .messageStore d _ _ i => c.fabric.path r d ≠ .rdma ∧ i < c.numInt4PerMsg
  | .payloadLoad _ _ _ k => k < c.hiddenInt4
  | .slotStore d _ _ k => c.fabric.path r d ≠ .rdma ∧ k < c.hiddenBf16Int4
  | .slotStage d _ _ k => c.fabric.path r d = .rdma ∧ k < c.hiddenBf16Int4
  | .slotLoad _ _ threadId => threadId < c.hiddenBf16Int4

/-- Where the kernels of rank `r` make the access, when they use buffer `buf`. -/
def vectorPtr (buf r : ℕ) : VectorAccess → Ptr
  | .stagePayload t i =>
    (c.fabric.sendData buf r (t * c.shape.numBytesPerMsg)).add (sizeofInt4 + sizeofInt4 * i)
  | .messageLoad t _ i =>
    (c.fabric.sendData buf r (t * c.shape.numBytesPerMsg)).add (sizeofInt4 * i)
  | .messageStore d le slot i =>
    (c.fabric.target r d (c.fabric.recvData buf r (c.messageOffset le r slot))).add (sizeofInt4 * i)
  | .payloadLoad le srcRank i k =>
    (c.fabric.recvData buf r (c.messageOffset le srcRank i)).add (sizeofInt4 + sizeofInt4 * k)
  | .slotStore d le srcIdx k =>
    (c.fabric.target r d (c.fabric.recvData buf r
      (c.slotOffset (r * c.numLocalExperts + le) srcIdx))).add (sizeofInt4 * k)
  | .slotStage _ le tokenIdx k =>
    (c.fabric.sendData buf r (c.packedRow le tokenIdx * c.shape.numBytesPerSlot)).add
      (sizeofInt4 * k)
  | .slotLoad e t threadId =>
    (c.fabric.recvData buf r (c.slotOffset e t)).add (sizeofInt4 * threadId)

/-- The address of a pointer, when the buffer of rank `r` starts at `base r`. -/
def address (base : ℕ → ℤ) (p : Ptr) : ℤ := base p.rank + p.offset

/-- Every 16-byte access into a buffer is at a multiple of 16. -/
def VectorAligned (base : ℕ → ℤ) (buf : ℕ) : Prop :=
  ∀ r a, c.Performs r a → (sizeofInt4 : ℤ) ∣ address base (c.vectorPtr buf r a)

end Config

end EpDemo.System
