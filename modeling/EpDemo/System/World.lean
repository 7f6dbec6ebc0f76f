import EpDemo.Kernel.Address
import EpDemo.Kernel.Combine
import EpDemo.Kernel.Dispatch

/-!
# `EpDemo.System.World`: all ranks, their memories and their network cards

Every rank runs the same sequence of calls, one kernel after the other on its stream. The
system interleaves the warps of all ranks with the network cards, each of which executes the
work requests of a queue pair in posting order and arbitrarily late, and reads the source row
of a write when it executes it.

A kernel state is kept for every rank and call, so that a state of the system records what
every earlier call did. Two components record where values came from and are read by no
action: `sigFrom`, the signals that have gone into a signal word since it was last zeroed,
and `dataFrom`, the call whose message a data word belongs to.

Data words and signal words carry the buffer they belong to besides their address: a pointer
stays inside the region it was derived from.
-/

set_option autoImplicit false

namespace EpDemo.System

open EpDemo.Kernel EpDemo.Library

/-- A 32-bit word of a message. -/
abbrev Word := BitVec 32

/-- The two kernels. -/
inductive Kind
  | dispatch
  | combine
  deriving DecidableEq, Repr

/-- Where the `src_info` and `layout_range` of a `combine` come from. -/
inductive Source
  /-- The `dispatch` that was call `m`. -/
  | call (m : ℕ)
  | given (srcInfo : ℤ → ℤ) (layoutRange : ℕ → BitVec 64)

/-- What one rank passes to one call. -/
structure Input where
  numTokens : ℕ
  numTopk : ℕ
  topkIdx : ℕ → ℤ
  timeoutTicks : ℤ
  /-- The words of the staging row that `dispatch` computes for a token from `x`. -/
  packed : ℕ → ℕ → Word
  /-- The rows of `x` that `combine` sends. -/
  x : ℤ → ℕ → Word
  topkWeights : ℕ → Word
  zeroCopy : Bool
  source : Source

/-- One call, made by every rank: the buffer of the pair that it uses, and the one whose
receive signals it passes as `next_clean_buffer`. -/
structure Call where
  kind : Kind
  fused : Bool
  buf : ℕ
  clean : ℕ
  input : ℕ → Input

/-- The system: its sizes, the connections between ranks, the calls, and the arithmetic of
the reduction on an accumulator type. -/
structure Config (A : Type) where
  numRanks : ℕ
  numExperts : ℕ
  numMaxDispatchTokensPerRank : ℕ
  maxQpCount : ℕ
  shape : Shape
  fabric : Fabric
  /-- The number of calls, if there is a last one. -/
  length : Option ℕ
  calls : ℕ → Call
  zero : A
  mulAdd : A → Word → Word → A
  round : A → Word

/-- A work request in the send queue of a queue pair. The call and what it carries (the token
and warp or the group and row of a message, the expert of a signal) identify it. -/
inductive Wqe
  | write (call : ℕ) (key : ℕ × ℕ) (buf : ℕ) (src dst : Ptr) (bytes : ℕ)
  | atomicAdd (call e : ℕ) (buf : ℕ) (dst : Ptr) (value : ℤ)
  deriving DecidableEq

/-- A state of the system. Kernel states and output arrays are by rank and call. -/
structure World (A : Type) where
  call : ℕ → ℕ
  disp : ℕ × ℕ → Dispatch.State
  comb : ℕ × ℕ → Combine.State
  sig : ℕ → Ptr → ℤ
  sigFrom : ℕ → Ptr → List (ℕ × ℤ)
  send : ℕ → Ptr → Word
  data : ℕ → Ptr → Word
  dataFrom : ℕ → Ptr → Option ℕ
  nic : ℕ × ℕ → List Wqe
  srcInfo : ℕ × ℕ → ℤ → ℤ
  recvX : ℕ × ℕ → ℤ → ℕ → Word
  recvScales : ℕ × ℕ → ℤ → Word
  acc : ℕ × ℕ → ℕ × ℕ → A
  combined : ℕ × ℕ → ℕ × ℕ → Word

/-- What can happen next. -/
inductive Action
  | dispatch (r : ℕ) (a : Dispatch.Action)
  | combine (r : ℕ) (a : Combine.Action)
  /-- The network card of rank `r` executes the oldest work request of queue pair `ctx`. -/
  | deliver (r ctx : ℕ)
  /-- The kernel of rank `r` has finished and the next one starts. -/
  | advance (r : ℕ)
  deriving DecidableEq

/-! ### Memory -/

/-- The index of the word at `p` in the `n` words from `dst`, if it is one of them. -/
def wordIndex (dst : Ptr) (n : ℕ) (p : Ptr) : Option ℕ :=
  let d := p.sub dst
  if p.rank = dst.rank ∧ 0 ≤ d ∧ d % 4 = 0 ∧ d / 4 < n then some (d / 4).toNat else none

/-- Overwrite the `n` words from `dst`. -/
def writeWords {α : Type} (mem : Ptr → α) (dst : Ptr) (n : ℕ) (src : ℕ → α) (p : Ptr) : α :=
  match wordIndex dst n p with
  | some j => src j
  | none => mem p

/-- The network card executes a work request. -/
def World.execute {A : Type} (w : World A) : Wqe → World A
  | .write m _ buf src dst bytes =>
    { w with
      data := Function.update w.data buf
        (writeWords (w.data buf) dst (bytes / 4) fun j => w.send buf (src.add (4 * j)))
      dataFrom := Function.update w.dataFrom buf
        (writeWords (w.dataFrom buf) dst (bytes / 4) fun _ => some m) }
  | .atomicAdd m _ buf dst value =>
    { w with
      sig := Function.update w.sig buf
        (Function.update (w.sig buf) dst (toInt32 (w.sig buf dst + value)))
      sigFrom := Function.update w.sigFrom buf
        (Function.update (w.sigFrom buf) dst ((m, value) :: w.sigFrom buf dst)) }

namespace Config

variable {A : Type} (c : Config A)

/-- Call `m` is made. -/
def HasCall (m : ℕ) : Prop := ∀ n ∈ c.length, m < n

instance (m : ℕ) : Decidable (c.HasCall m) :=
  inferInstanceAs (Decidable (∀ n ∈ c.length, m < n))

/-- `num_local_experts`. -/
def numLocalExperts : ℕ := c.numExperts / c.numRanks

/-- The launch of call `m` on rank `r`, as far as both kernels share it. -/
def launch (r m : ℕ) : Launch where
  numExperts := c.numExperts
  numRanks := c.numRanks
  numMaxDispatchTokensPerRank := c.numMaxDispatchTokensPerRank
  rank := r
  numTokens := ((c.calls m).input r).numTokens
  numTopk := ((c.calls m).input r).numTopk
  topkIdx := ((c.calls m).input r).topkIdx
  timeoutTicks := ((c.calls m).input r).timeoutTicks

/-- The `layout_range` that call `m` of rank `r` reads. -/
def layoutRange (w : World A) (r m : ℕ) : ℕ → BitVec 64 :=
  match ((c.calls m).input r).source with
  | .call k => (w.disp (r, k)).layoutRange
  | .given _ layoutRange => layoutRange

/-- The `src_info` that call `m` of rank `r` reads. -/
def srcInfo (w : World A) (r m : ℕ) : ℤ → ℤ :=
  match ((c.calls m).input r).source with
  | .call k => w.srcInfo (r, k)
  | .given srcInfo _ => srcInfo

/-- The launch of `combine` as call `m` on rank `r`. -/
def combineLaunch (w : World A) (r m : ℕ) : CombineLaunch where
  toLaunch := c.launch r m
  hidden := c.shape.hidden
  layoutRange := c.layoutRange w r m
  zeroCopy := ((c.calls m).input r).zeroCopy
  fused := (c.calls m).fused
  byStore d := c.fabric.path r d != .rdma

/-- The bytes of `M` messages of `dispatch`. -/
def bytesPerRank : ℕ := c.numMaxDispatchTokensPerRank * c.shape.numBytesPerMsg

/-- The offset of message `slot` of a source rank for a local expert, in the receive data of
`dispatch`. -/
def messageOffset (localExpert srcRank : ℕ) (slot : ℤ) : ℤ :=
  (localExpert * c.numRanks * c.bytesPerRank + srcRank * c.bytesPerRank : ℕ) +
    slot * c.shape.numBytesPerMsg

/-- The first packed row of a local expert. -/
def packedRow (localExpert : ℕ) (row : ℤ) : ℤ :=
  (localExpert * c.numRanks * c.numMaxDispatchTokensPerRank : ℕ) + row

/-- The offset of the slot for a token and an expert, in the receive data of `combine`. -/
def slotOffset (globalExpert : ℕ) (token : ℤ) : ℤ :=
  (globalExpert * c.numMaxDispatchTokensPerRank + token) * c.shape.numBytesPerSlot

/-! ### Effects that both kernels share -/

/-- Send a message to rank `d`: plain stores of `content` at the target, or a work request
that reads the row at `src`. -/
def transfer (w : World A) (r d ctx : ℕ) (key : ℕ × ℕ) (src dst : Ptr) (bytes : ℕ)
    (content : ℕ → Word) : World A :=
  let m := w.call r
  let buf := (c.calls m).buf
  let target := c.fabric.target r d dst
  match c.fabric.path r d with
  | .rdma =>
    { w with
      nic := Function.update w.nic (r, ctx)
        (w.nic (r, ctx) ++ [.write m key buf src target bytes]) }
  | _ =>
    { w with
      data := Function.update w.data buf (writeWords (w.data buf) target (bytes / 4) content)
      dataFrom := Function.update w.dataFrom buf
        (writeWords (w.dataFrom buf) target (bytes / 4) fun _ => some m) }

/-- Signal rank `d`: a release store at the target, or an atomic add by the network card. -/
def signal (w : World A) (r d ctx e : ℕ) (dst : Ptr) (value : ℤ) : World A :=
  let m := w.call r
  let buf := (c.calls m).buf
  let target := c.fabric.target r d dst
  match c.fabric.path r d with
  | .rdma =>
    { w with
      nic := Function.update w.nic (r, ctx)
        (w.nic (r, ctx) ++ [.atomicAdd m e buf target value]) }
  | _ =>
    { w with
      sig := Function.update w.sig buf (Function.update (w.sig buf) target value)
      sigFrom := Function.update w.sigFrom buf
        (Function.update (w.sigFrom buf) target [(m, value)]) }

/-- Zero entry `i` of `next_clean_buffer`. -/
def clean (w : World A) (r i : ℕ) : World A :=
  let array := (c.calls (w.call r)).clean
  let p := c.fabric.recvSignal array r i
  { w with
    sig := Function.update w.sig array (Function.update (w.sig array) p 0)
    sigFrom := Function.update w.sigFrom array (Function.update (w.sigFrom array) p []) }

/-! ### `dispatch` -/

/-- The signal word that the group for `e` waits for in `dispatch`: source `e / L`, local
expert `e % L`. -/
def dispatchWait (r m e : ℕ) : Ptr :=
  c.fabric.recvSignal (c.calls m).buf r
    (e % c.numLocalExperts * c.numRanks + e / c.numLocalExperts)

/-- What an action of `dispatch` does to memory and the network. -/
def dispatchEffect (w : World A) (r : ℕ) : Dispatch.Action → World A
  | .stage t warp =>
    let buf := (c.calls (w.call r)).buf
    let row := c.fabric.sendData buf r (t * c.shape.numBytesPerMsg)
    let packed := ((c.calls (w.call r)).input r).packed
    { w with
      send := Function.update w.send buf fun p =>
        match wordIndex row (c.shape.numBytesPerMsg / 4) p with
        | some j =>
          if (c.shape.stagingThread j).map (· / 32) = some warp then
            if j = 0 then BitVec.ofInt 32 t else packed t j
          else w.send buf p
        | none => w.send buf p }
  | .send t warp =>
    let m := w.call r
    let buf := (c.calls m).buf
    let e := ((c.launch r m).dstExpertIdx t warp).toNat
    let d := e / c.numLocalExperts
    let le := e % c.numLocalExperts
    let src := c.fabric.sendData buf r (t * c.shape.numBytesPerMsg)
    let dst := c.fabric.recvData buf r (c.messageOffset le r ((w.disp (r, m)).slot (t, warp)))
    c.transfer w r d (dispatchDataCtx c.maxQpCount c.numRanks d le) (t, warp) src dst
      c.shape.numBytesPerMsg fun j => w.send buf (src.add (4 * j))
  | .clean i => c.clean w r i
  | .signal e =>
    let m := w.call r
    let d := e / c.numLocalExperts
    let le := e % c.numLocalExperts
    c.signal w r d (dispatchSignalCtx c.maxQpCount c.numRanks d le) e
      (c.fabric.recvSignal (c.calls m).buf r (le * c.numRanks + r)) ((w.disp (r, m)).signalValue e)
  | .copyRow e i =>
    let m := w.call r
    let buf := (c.calls m).buf
    let srcRank := e / c.numLocalExperts
    let le := e % c.numLocalExperts
    let row := (w.disp (r, m)).recvBegin e + i
    let src := c.fabric.recvData buf r (c.messageOffset le srcRank i)
    let word (j : ℕ) := w.data buf (src.add (4 * j))
    let payload := c.shape.hiddenBytes / 4
    let stride := c.numRanks * c.numMaxDispatchTokensPerRank
    { w with
      srcInfo := Function.update w.srcInfo (r, m)
        (Function.update (w.srcInfo (r, m)) (c.packedRow le row) (word 0).toInt)
      recvX := Function.update w.recvX (r, m)
        (Function.update (w.recvX (r, m)) (c.packedRow le row) fun j =>
          if j < payload then word (4 + j) else w.recvX (r, m) (c.packedRow le row) j)
      recvScales :=
        if c.shape.useFp8 then
          Function.update w.recvScales (r, m) fun k =>
            -- Column `j` of the scales of the expert starts `j * stride` after the first.
            let d := k - (le * stride * c.shape.numScales : ℕ) - row
            if 0 ≤ d ∧ d % stride = 0 ∧ d / stride < c.shape.numScales then
              word (4 + payload + (d / stride).toNat)
            else w.recvScales (r, m) k
        else w.recvScales }
  | _ => w

/-! ### `combine` -/

/-- What an action of `combine` does to memory and the network. -/
def combineEffect (w : World A) (r : ℕ) : Combine.Action → World A
  | .clean i => c.clean w r i
  | .stageRow e k =>
    let m := w.call r
    let buf := (c.calls m).buf
    let row := c.packedRow (e % c.numLocalExperts) ((c.combineLaunch w r m).rowIdx e k)
    { w with
      send := Function.update w.send buf
        (writeWords (w.send buf) (c.fabric.sendData buf r (row * c.shape.numBytesPerSlot))
          (c.shape.numBytesPerSlot / 4) (((c.calls m).input r).x row)) }
  | .sendRow e k =>
    let m := w.call r
    let buf := (c.calls m).buf
    let d := e / c.numLocalExperts
    let le := e % c.numLocalExperts
    let row := c.packedRow le ((c.combineLaunch w r m).rowIdx e k)
    let src := c.fabric.sendData buf r (row * c.shape.numBytesPerSlot)
    let dst := c.fabric.recvData buf r
      (c.slotOffset (r * c.numLocalExperts + le) (c.srcInfo w r m row))
    c.transfer w r d (combineDataCtx c.maxQpCount c.numRanks d le) (e, k) src dst
      c.shape.numBytesPerSlot (((c.calls m).input r).x row)
  | .signal e =>
    let m := w.call r
    let d := e / c.numLocalExperts
    let le := e % c.numLocalExperts
    c.signal w r d (combineSignalCtx c.maxQpCount c.numRanks d le) e
      (c.fabric.recvSignal (c.calls m).buf r (r * c.numLocalExperts + le)) 1
  | .accum t warp =>
    let m := w.call r
    let l := c.launch r m
    let i := (w.comb (r, m)).reduced (t, warp)
    let e := l.topk (t * l.numTopk + i)
    let weight := ((c.calls m).input r).topkWeights (t * l.numTopk + i)
    let src := c.fabric.recvData (c.calls m).buf r (c.slotOffset e.toNat t)
    { w with
      acc := Function.update w.acc (r, m) fun p =>
        if p.1 = t ∧ p.2 / 128 = warp ∧ 0 ≤ e then
          c.mulAdd (w.acc (r, m) p) (w.data (c.calls m).buf (src.add (4 * p.2))) weight
        else w.acc (r, m) p }
  | .store t warp =>
    let m := w.call r
    { w with
      combined := Function.update w.combined (r, m) fun p =>
        if p.1 = t ∧ p.2 / 128 = warp then c.round (w.acc (r, m) p) else w.combined (r, m) p }
  | _ => w

/-! ### The system -/

/-- The signal word that an action reads and the value that it must find there. -/
def signalRead (r m : ℕ) : Action → Option (Ptr × ℤ)
  | .dispatch _ (.acquire e v) => some (c.dispatchWait r m e, v)
  | .dispatch _ (.miss e) => some (c.dispatchWait r m e, 0)
  | .combine _ (.acquire e v) => some (c.fabric.recvSignal (c.calls m).buf r e, v)
  | .combine _ (.miss e) => some (c.fabric.recvSignal (c.calls m).buf r e, 0)
  | _ => none

/-- The action reads what is in memory. -/
def ReadsSignal (w : World A) (r : ℕ) (a : Action) : Prop :=
  ∀ x ∈ c.signalRead r (w.call r) a, w.sig (c.calls (w.call r)).buf x.1 = x.2

instance (w : World A) (r : ℕ) (a : Action) : Decidable (c.ReadsSignal w r a) :=
  inferInstanceAs (Decidable (∀ x ∈ c.signalRead r (w.call r) a, _))

/-- The kernel of rank `r` has finished its current call. -/
def KernelDone (w : World A) (r : ℕ) : Prop :=
  ((c.calls (w.call r)).kind = .dispatch → (w.disp (r, w.call r)).Done (c.launch r (w.call r))) ∧
  ((c.calls (w.call r)).kind = .combine →
    (w.comb (r, w.call r)).Done (c.combineLaunch w r (w.call r)))

instance (w : World A) (r : ℕ) : Decidable (c.KernelDone w r) :=
  inferInstanceAs (Decidable ((_ → _) ∧ (_ → _)))

/-- The guard of an action. -/
def enabled (w : World A) : Action → Prop
  | .dispatch r a => r < c.numRanks ∧ (c.calls (w.call r)).kind = .dispatch ∧
      Dispatch.enabled (c.launch r (w.call r)) (w.disp (r, w.call r)) a ∧
      c.ReadsSignal w r (.dispatch r a)
  | .combine r a => r < c.numRanks ∧ (c.calls (w.call r)).kind = .combine ∧
      Combine.enabled (c.combineLaunch w r (w.call r)) (w.comb (r, w.call r)) a ∧
      c.ReadsSignal w r (.combine r a)
  | .deliver r ctx => w.nic (r, ctx) ≠ []
  | .advance r => r < c.numRanks ∧ c.HasCall (w.call r + 1) ∧ c.KernelDone w r

instance decidableEnabled (w : World A) : (a : Action) → Decidable (c.enabled w a)
  | .dispatch .. | .combine .. | .deliver .. | .advance _ => by
    dsimp only [enabled]; infer_instance

/-- What a kernel leaves for the next one on its stream: the workspace and the active ranks. -/
def workspace (w : World A) (r : ℕ) : (ℕ → ℤ) × (ℕ → ℤ) :=
  match (c.calls (w.call r)).kind with
  | .dispatch => ((w.disp (r, w.call r)).ws, (w.disp (r, w.call r)).activeRanks)
  | .combine => ((w.comb (r, w.call r)).ws, (w.comb (r, w.call r)).activeRanks)

/-- The state after an action. -/
def fire (w : World A) : Action → World A
  | .dispatch r a =>
    let w' := c.dispatchEffect w r a
    { w' with
      disp := Function.update w'.disp (r, w.call r)
        (Dispatch.fire (c.launch r (w.call r)) (w.disp (r, w.call r)) a) }
  | .combine r a =>
    let w' := c.combineEffect w r a
    { w' with
      comb := Function.update w'.comb (r, w.call r)
        (Combine.fire (c.combineLaunch w r (w.call r)) (w.comb (r, w.call r)) a) }
  | .deliver r ctx =>
    match w.nic (r, ctx) with
    | [] => w
    | wqe :: rest =>
      let w' := w.execute wqe
      { w' with nic := Function.update w'.nic (r, ctx) rest }
  | .advance r =>
    let next := (r, w.call r + 1)
    { w with
      call := Function.update w.call r (w.call r + 1)
      disp := Function.update w.disp next
        { w.disp next with ws := (c.workspace w r).1, activeRanks := (c.workspace w r).2 }
      comb := Function.update w.comb next
        { w.comb next with ws := (c.workspace w r).1, activeRanks := (c.workspace w r).2 } }

/-- A state before the first call: no kernel has run, the workspaces and the receive signals
of the buffers in use are zero, and every rank is active. -/
structure Init (w : World A) : Prop where
  call : ∀ r, w.call r = 0
  disp : ∀ p, (w.disp p).Fresh
  comb : ∀ p, (w.comb p).Fresh
  workspace : ∀ r i, (w.disp (r, 0)).ws i = 0 ∧ (w.comb (r, 0)).ws i = 0
  activeRanks : ∀ r s, (w.disp (r, 0)).activeRanks s = 1 ∧ (w.comb (r, 0)).activeRanks s = 1
  sig : ∀ m, c.HasCall m → ∀ r < c.numRanks, ∀ i < c.numExperts,
    w.sig (c.calls m).buf (c.fabric.recvSignal (c.calls m).buf r i) = 0
  sigFrom : ∀ buf p, w.sigFrom buf p = []
  dataFrom : ∀ buf p, w.dataFrom buf p = none
  nic : ∀ q, w.nic q = []
  acc : ∀ q p, w.acc q p = c.zero

/-- A state after the constructors, which zero the workspace. The buffers hold whatever the
allocation gave. -/
structure Allocated (w : World A) : Prop where
  call : ∀ r, w.call r = 0
  disp : ∀ p, (w.disp p).Fresh
  comb : ∀ p, (w.comb p).Fresh
  workspace : ∀ r i, (w.disp (r, 0)).ws i = 0 ∧ (w.comb (r, 0)).ws i = 0
  activeRanks : ∀ r s, (w.disp (r, 0)).activeRanks s = 1 ∧ (w.comb (r, 0)).activeRanks s = 1
  sigFrom : ∀ buf p, w.sigFrom buf p = []
  dataFrom : ∀ buf p, w.dataFrom buf p = none
  nic : ∀ q, w.nic q = []
  acc : ∀ q p, w.acc q p = c.zero

/-- All interleavings of the ranks and the network cards. -/
def machine : Machine (World A) Action where
  enabled := c.enabled
  decEnabled := c.decidableEnabled
  fire := c.fire

/-- The runs of the system. -/
def system : TransitionSystem (World A) Action := c.machine.system c.Init

/-- What one rank may pass to call `m`. The entries of the top-k table are taken as the kernels
read them. -/
structure ValidInput (m r : ℕ) : Prop where
  numTokens_le : (c.launch r m).numTokens ≤ c.numMaxDispatchTokensPerRank
  numTopk_le : (c.launch r m).numTopk ≤ kNumMaxTopK
  /-- `num_tokens * num_topk` is an `int`. -/
  table_lt : (c.launch r m).numTokens * (c.launch r m).numTopk < 2 ^ 31
  entries_lt : ∀ i < (c.launch r m).numTokens * (c.launch r m).numTopk,
    (c.launch r m).topk i < c.numExperts
  /-- No expert is repeated in the row of a token. -/
  distinct : ∀ t < (c.launch r m).numTokens, ∀ i < (c.launch r m).numTopk,
    ∀ j < (c.launch r m).numTopk, 0 ≤ (c.launch r m).topk (t * (c.launch r m).numTopk + i) →
    (c.launch r m).topk (t * (c.launch r m).numTopk + i) =
      (c.launch r m).topk (t * (c.launch r m).numTopk + j) → i = j
  timeoutTicks : (c.launch r m).timeoutTicks = -1
  /-- A `combine` that takes the results of a call takes them of an earlier `dispatch`. -/
  source : (c.calls m).kind = .combine → ∀ k, ((c.calls m).input r).source = .call k →
    k < m ∧ (c.calls k).kind = .dispatch

/-- What the callers may pass. The ranks have the same number of experts, rows of the packed
output are indexed by an `int`, and a grid has a block. -/
structure Valid : Prop where
  hasCall : c.HasCall 0
  numRanks_pos : 0 < c.numRanks
  numExperts_pos : 0 < c.numExperts
  dvd : c.numRanks ∣ c.numExperts
  numExperts_lt : c.numExperts < 2 ^ 31
  rows_lt : c.numExperts * c.numMaxDispatchTokensPerRank < 2 ^ 31
  mapped : c.fabric.Mapped
  input : ∀ m, c.HasCall m → ∀ r < c.numRanks, c.ValidInput m r

/-- The same calls with timeouts disabled. -/
def untimed : Config A :=
  { c with
    calls := fun m =>
      { c.calls m with
        input := fun r => { (c.calls m).input r with timeoutTicks := -1 } } }

/-- What the callers may pass, whatever the timeouts are. -/
def Sound : Prop := c.untimed.Valid

/-- Every rank has finished its last call. -/
def Finished (w : World A) : Prop :=
  ∀ r < c.numRanks, c.length = some (w.call r + 1) ∧ c.KernelDone w r

instance (w : World A) : Decidable (c.Finished w) :=
  inferInstanceAs (Decidable (∀ r < c.numRanks, _ ∧ _))

end Config

end EpDemo.System
