import EpDemo.Kernel.NetworkCard
import EpDemo.Library.Strided
import EpDemo.Proofs.Kernel.PostSend
import Mathlib.Data.List.Infix
import Mathlib.Tactic.IntervalCases

/-!
# `EpDemo.Proofs.Kernel.NetworkCard`: the network card executes the posts

A slot is written over with every round of the ring, so what the card fetches depends on how far the
warps are: `HoldsLast` says that the ring holds the last `numWqebb` entries that were written, and
that is all that it holds. The entries that were written and the entries that the doorbell record
counts are those of the posts that have done one and three of their steps (`Sections.Begun`).
`exists_begun` has both for any run of the warps.

`OnTime` adds the card: it has executed the first posts, and its next entry is in the ring as long
as the warps are paced. `executed_in_order` is the induction, and `write_keeps_iff` says that a warp
that is not paced spoils an entry.
-/

set_option autoImplicit false

namespace EpDemo.Kernel

open EpDemo.Library

/-! ### One entry -/

section

variable (slot : Bytes) (qpn : BitVec 32) (wqHead : BitVec 16) (value bytes lkey rkey : BitVec 32)
  (laddr raddr : BitVec 64)

/-- Two swaps are none. -/
theorem deviceByteswap32_deviceByteswap32 (x : BitVec 32) :
    deviceByteswap32 (deviceByteswap32 x) = x := by
  refine eq_of_byte_eq (n := 4) fun i hi => ?_
  rw [byte_deviceByteswap32 _ hi, byte_deviceByteswap32 x (by omega)]
  congr 1
  omega

/-- The top byte of the number of a queue pair does not get into the control segment. -/
theorem qpn_shiftLeft_or (ds : BitVec 8) :
    (qpn.setWidth 24).setWidth 32 <<< 8 ||| ds.setWidth 32 = qpn <<< 8 ||| ds.setWidth 32 := by
  rw [shiftLeft_eight_or, shiftLeft_eight_or, setWidth_setWidth_qpn]

/-- The entry that the kernel writes is the one of the decoder's theorems, for keys that were
swapped and a number of 24 bits. -/
theorem writeRdmaWriteWqe_eq :
    writeRdmaWriteWqe slot qpn wqHead laddr lkey raddr rkey bytes
      = rdmaWriteWqe slot (qpn.setWidth 24) wqHead bytes (deviceByteswap32 lkey)
          (deviceByteswap32 rkey) laddr raddr := by
  have hqpn : (qpn.setWidth 24).setWidth 32 <<< 8 ||| (3 : BitVec 32) = qpn <<< 8 ||| 3 :=
    qpn_shiftLeft_or qpn 3
  rw [rdmaWriteWqe, writeRdmaWriteWqe, writeRdmaWriteWqe, hqpn, deviceByteswap32_deviceByteswap32,
    deviceByteswap32_deviceByteswap32]

/-- The same for an atomic addition. -/
theorem writeRdmaAtomicAddWqe_eq :
    writeRdmaAtomicAddWqe slot qpn wqHead value laddr lkey raddr rkey
      = rdmaAtomicAddWqe slot (qpn.setWidth 24) wqHead value (deviceByteswap32 lkey)
          (deviceByteswap32 rkey) laddr raddr := by
  have hqpn : (qpn.setWidth 24).setWidth 32 <<< 8 ||| (4 : BitVec 32) = qpn <<< 8 ||| 4 :=
    qpn_shiftLeft_or qpn 4
  rw [rdmaAtomicAddWqe, writeRdmaAtomicAddWqe, writeRdmaAtomicAddWqe, hqpn,
    deviceByteswap32_deviceByteswap32, deviceByteswap32_deviceByteswap32]

end

/-- The network card understands an entry as its request. -/
theorem fetchWqe_wqe (slot : Bytes) (qpn : BitVec 32) (wqHead : BitVec 16) (r : WorkRequest) :
    fetchWqe (r.wqe slot qpn wqHead) = some (r.fetched qpn wqHead) := by
  cases r with
  | rdmaWrite laddr lkey raddr rkey bytes =>
    rw [WorkRequest.wqe, writeRdmaWriteWqe_eq, fetchWqe, readCtrlSeg_rdmaWriteWqe,
      readRaddrSeg_rdmaWriteWqe]
    have hdata : readDataSeg (rdmaWriteWqe slot (qpn.setWidth 24) wqHead bytes
        (deviceByteswap32 lkey) (deviceByteswap32 rkey) laddr raddr) Offset.writeData = _ :=
      readDataSeg_writeDataSeg ..
    rw [hdata]
    rfl
  | rdmaAtomicAdd value laddr lkey raddr rkey =>
    rw [WorkRequest.wqe, writeRdmaAtomicAddWqe_eq, fetchWqe, readCtrlSeg_rdmaAtomicAddWqe,
      readRaddrSeg_rdmaAtomicAddWqe, readAtomicAddSeg_rdmaAtomicAddWqe]
    have hdata : readDataSeg (rdmaAtomicAddWqe slot (qpn.setWidth 24) wqHead value
        (deviceByteswap32 lkey) (deviceByteswap32 rkey) laddr raddr) Offset.atomicData = _ :=
      readDataSeg_writeDataSeg ..
    rw [hdata]
    rfl

/-! ### The ring -/

section

variable {qpn : BitVec 32} {numWqebb j : ℕ} {wq : ℕ → Bytes} {rs : List WorkRequest} {q : SendQueue}

/-- The ring holds the last entries, where the network card looks for them. -/
def HoldsLast (qpn : BitVec 32) (numWqebb : ℕ) (rs : List WorkRequest) (wq : ℕ → Bytes) : Prop :=
  ∀ (k : ℕ) (h : k < rs.length), rs.length ≤ k + numWqebb →
    fetchWqe (wq (k % numWqebb)) = some (rs[k].fetched qpn (BitVec.ofNat 16 k))

/-- One more entry: it takes the slot of the oldest one. -/
theorem HoldsLast.write (h : HoldsLast qpn numWqebb rs wq) (slot : Bytes)
    (r : WorkRequest) :
    HoldsLast qpn numWqebb (rs ++ [r]) (Function.update wq (rs.length % numWqebb)
      (r.wqe slot qpn (BitVec.ofNat 16 rs.length))) := by
  intro k hk hle
  rw [List.length_append] at hk hle
  by_cases hlast : k = rs.length
  · subst hlast
    rw [Function.update_self, List.getElem_concat_length rfl, fetchWqe_wqe]
  · have hlt : k < rs.length := by
      have : k < rs.length + 1 := hk
      omega
    have hslot : k % numWqebb ≠ rs.length % numWqebb := by
      intro heq
      have hround : k + numWqebb ≤ rs.length := add_le_of_mod_eq hlt heq.symm
      have : rs.length + 1 ≤ k + numWqebb := hle
      omega
    rw [Function.update_of_ne hslot, List.getElem_append_left hlt]
    exact h k hlt (by omega)

/-- The doorbell record counts the posts. -/
def Counts (rs : List WorkRequest) (dbr : Bytes) : Prop :=
  (readBE dbr SendQueue.sendCounter 4 : BitVec 32) = BitVec.ofNat 32 (rs.length % 65536)

/-- The counter that a post stores. -/
theorem counts_ringDoorbell {k : ℕ} (hctx : q.ctx = ctxAfter qpn numWqebb k) (dbr : Bytes) :
    (readBE (storeLE dbr SendQueue.sendCounter 4
      (deviceByteswap32 ((q.ctx.wqHead + 1).setWidth 32))) SendQueue.sendCounter 4 : BitVec 32)
        = BitVec.ofNat 32 ((k + 1) % 65536) := by
  have hhead : q.ctx.wqHead + 1 = BitVec.ofNat 16 (k + 1) := by
    rw [hctx, BitVec.ofNat_add]
    rfl
  rw [readBE_byteswap32, hhead]
  apply BitVec.eq_of_toNat_eq
  rw [toNat_setWidth_ofNat, BitVec.toNat_ofNat]
  omega

/-- What the first steps of a post have done to the ring. -/
theorem wq_runSteps (hj : j ≤ 16) (r : WorkRequest) {k : ℕ} (hctx : q.ctx = ctxAfter qpn (2 ^ j) k)
    {done : ℕ} (hdone : done ≤ 5) :
    (SendQueue.post.runSteps r done q).1.wq = if 1 ≤ done then
      Function.update q.wq (k % 2 ^ j) (r.wqe (q.wq (k % 2 ^ j)) qpn (BitVec.ofNat 16 k))
    else q.wq := by
  have hslot : q.ctx.slot = k % 2 ^ j := by rw [hctx, slot_ctxAfter hj]
  have hwrite : Function.update q.wq q.ctx.slot (r.wqe (q.wq q.ctx.slot) q.ctx.qpn q.ctx.wqHead)
      = Function.update q.wq (k % 2 ^ j) (r.wqe (q.wq (k % 2 ^ j)) qpn (BitVec.ofNat 16 k)) := by
    rw [hslot, hctx]
    rfl
  rw [← hwrite]
  interval_cases done <;> rfl

/-- What they have done to the doorbell record. -/
theorem dbr_runSteps (r : WorkRequest) {done : ℕ} (hdone : done ≤ 5) :
    (SendQueue.post.runSteps r done q).1.dbr = if 3 ≤ done then
      storeLE q.dbr SendQueue.sendCounter 4 (deviceByteswap32 ((q.ctx.wqHead + 1).setWidth 32))
      else q.dbr := by
  interval_cases done <;> rfl

end

/-! ### Runs of the warps -/

section

variable {qpn : BitVec 32} {j : ℕ} {wq : ℕ → Bytes}

/-- The queue pair before the first post. -/
def newQueue (qpn : BitVec 32) (j : ℕ) (wq : ℕ → Bytes) : SendQueue :=
  SendQueue.init qpn (BitVec.ofNat 32 (2 ^ j)) wq fun _ => 0

/-- After some posts the counters are those of as many entries. -/
theorem ctx_runAll (qpn : BitVec 32) (wq : ℕ → Bytes) (hj : j ≤ 16) (rs : List WorkRequest) :
    (SendQueue.post.runAll (newQueue qpn j wq) rs).ctx = ctxAfter qpn (2 ^ j) rs.length := by
  have hinit : Posted qpn (2 ^ j) wq [] (fun _ _ => 0) (newQueue qpn j wq) := posted_init _
  obtain ⟨contents, hposted⟩ := hinit.exists_runAll hj rs
  exact hposted.ctx

/-- Ring and doorbell record between two posts. -/
theorem holdsLast_runAll (qpn : BitVec 32) (wq : ℕ → Bytes) (hj : j ≤ 16) (rs : List WorkRequest) :
    HoldsLast qpn (2 ^ j) rs (SendQueue.post.runAll (newQueue qpn j wq) rs).wq ∧
      Counts rs (SendQueue.post.runAll (newQueue qpn j wq) rs).dbr := by
  induction rs using List.reverseRecOn with
  | nil =>
    constructor
    · intro k hk
      exact absurd hk (Nat.not_lt_zero k)
    · exact readBE_of_zero fun _ _ => rfl
  | append_singleton rs r ih =>
    -- The last post starts from where the others have left the queue pair.
    have hrun : SendQueue.post.runAll (newQueue qpn j wq) (rs ++ [r])
        = (SendQueue.post.runSteps r 5 (SendQueue.post.runAll (newQueue qpn j wq) rs)).1 := by
      rw [Sections.runAll, List.foldl_append]
      rfl
    have hctx := ctx_runAll qpn wq hj rs
    rw [hrun]
    constructor
    · -- Its entry goes over the one that has been in the slot for a whole turn of the ring.
      rw [wq_runSteps hj r hctx le_rfl, if_pos (by decide)]
      exact ih.1.write _ r
    · -- The doorbell record counts it.
      rw [dbr_runSteps r le_rfl, if_pos (by decide), Counts, counts_ringDoorbell hctx,
        List.length_append]
      rfl

/-- The entries in the ring are those of the posts that have done their first step, and the doorbell
record counts the posts that have done their third one. -/
theorem exists_begun {W : Type*} [DecidableEq W] (hj : j ≤ 16)
    {s : Locked W SendQueue SendQueue.Locals WorkRequest}
    (h : SendQueue.post.Serialized (newQueue qpn j wq) s) :
    ∃ written rung, Sections.Begun 1 s written ∧ Sections.Begun 3 s rung ∧ rung <+: written ∧
      HoldsLast qpn (2 ^ j) written s.shared.wq ∧ Counts rung s.shared.dbr := by
  have hall := holdsLast_runAll qpn wq hj (s.finished.map Prod.snd)
  rcases id h with ⟨-, houtside, hshared⟩ | ⟨-, w, r, done, l, hw, -, hle, hsteps⟩
  · have hnone : ∀ n w r done l, s.place w = .inside r done l → done < n := by
      intro n w r done l hw
      refine absurd ?_ (houtside w)
      rw [hw]
      trivial
    rw [hshared]
    exact ⟨_, _, .finished (hnone 1), .finished (hnone 3), List.prefix_refl _, hall⟩
  · -- The list of those that have done `n` steps, and what it says about the warp in its section.
    have hbegun : ∀ n, ∃ rs, Sections.Begun n s rs ∧
        rs = if n ≤ done then s.finished.map Prod.snd ++ [r] else s.finished.map Prod.snd := by
      intro n
      by_cases hn : n ≤ done
      · rw [if_pos hn]
        exact ⟨_, .current hw hn, rfl⟩
      · rw [if_neg hn]
        refine ⟨_, .finished fun w' r' done' l' hw' => ?_, rfl⟩
        rw [h.eq_of_inside hw hw', hw] at hw'
        cases hw'
        omega
    obtain ⟨written, hwritten, hwrittenEq⟩ := hbegun 1
    obtain ⟨rung, hrung, hrungEq⟩ := hbegun 3
    have hctx := ctx_runAll qpn wq hj (s.finished.map Prod.snd)
    have hshared : s.shared = (SendQueue.post.runSteps r done
        (SendQueue.post.runAll (newQueue qpn j wq) (s.finished.map Prod.snd))).1 :=
      congrArg Prod.fst hsteps
    refine ⟨written, rung, hwritten, hrung, hwritten.prefix h hrung (by decide), ?_, ?_⟩
    · rw [hshared, wq_runSteps hj r hctx hle, hwrittenEq]
      split_ifs
      · exact hall.1.write _ r
      · exact hall.1
    · rw [hshared, dbr_runSteps r hle, hrungEq]
      split_ifs
      · rw [Counts, counts_ringDoorbell hctx, List.length_append]
        rfl
      · exact hall.2

end

/-! ### Runs with the network card -/

/-- The last request that was posted is fetched last, under its own index. -/
theorem fetchedAll_append (qpn : BitVec 32) (rs : List WorkRequest) (r : WorkRequest) :
    fetchedAll qpn (rs ++ [r])
      = fetchedAll qpn rs ++ [some (r.fetched qpn (BitVec.ofNat 16 rs.length))] :=
  List.mapIdx_concat

/-- One request is fetched for each that was posted. -/
theorem length_fetchedAll (qpn : BitVec 32) (rs : List WorkRequest) :
    (fetchedAll qpn rs).length = rs.length :=
  List.length_mapIdx

namespace Posting

variable {W : Type*} [DecidableEq W] {qpn : BitVec 32} {j : ℕ} {wq : ℕ → Bytes} {x : Posting W}

/-- What holds in the runs whose warps are paced: the network card has executed the first of the
posts that the doorbell record counts, and what it has yet to fetch is in the ring. -/
structure OnTime (qpn : BitVec 32) (j : ℕ) (wq : ℕ → Bytes) (x : Posting W) : Prop where
  serialized : SendQueue.post.Serialized (newQueue qpn j wq) x.queue
  next : x.card.next = BitVec.ofNat 16 x.card.executed.length
  executed : ∀ rung, Sections.Begun 3 x.queue rung → x.card.executed <+: fetchedAll qpn rung
  paced : ∀ written, Sections.Begun 1 x.queue written →
    written.length ≤ x.card.executed.length + 2 ^ j

/-- The network card has more to fetch exactly while it has executed fewer posts than the doorbell
record counts: it is less than a round of the counter behind. -/
theorem OnTime.rung_iff (hj : j ≤ 15) (h : OnTime qpn j wq x) {rung : List WorkRequest}
    (hrung : Sections.Begun 3 x.queue rung) : x.Rung ↔ x.card.executed.length < rung.length := by
  obtain ⟨written, rung', hwritten, hrung', hprefix, -, hcounts⟩ :=
    exists_begun (hj.trans (by decide)) h.serialized
  obtain rfl := hrung.unique h.serialized hrung'
  have hle : x.card.executed.length ≤ rung.length := by
    rw [← length_fetchedAll qpn rung]
    exact (h.executed rung hrung).length_le
  have hahead := h.paced written hwritten
  have hwithin := hprefix.length_le
  have hround : 2 ^ j ≤ 2 ^ 15 := Nat.pow_le_pow_right (by decide) hj
  have hcounter : (readBE x.queue.shared.dbr SendQueue.sendCounter 4 : BitVec 32).setWidth 16
      = BitVec.ofNat 16 rung.length := by
    rw [hcounts]
    apply BitVec.eq_of_toNat_eq
    rw [BitVec.toNat_setWidth, BitVec.toNat_ofNat, BitVec.toNat_ofNat]
    omega
  rw [Rung, hcounter, h.next, ne_eq, ← BitVec.toNat_inj, BitVec.toNat_ofNat, BitVec.toNat_ofNat]
  omega

/-- The posts that have done `n` steps before and after a step of a warp. -/
theorem begun_warp {n : ℕ} (hpos : 0 < n) (hn : n ≤ 5)
    (h : SendQueue.post.Serialized (newQueue qpn j wq) x.queue) {a : LockAction W WorkRequest}
    (hen : Sections.enabled x.queue a) {rs' : List WorkRequest}
    (hrs' : Sections.Begun n (SendQueue.post.fire x.queue a) rs') :
    ∃ rs, Sections.Begun n x.queue rs ∧ (rs' = rs ∨ ∃ w r done l, a = .run w ∧
      x.queue.place w = .inside r done l ∧ done + 1 = n ∧ rs' = rs ++ [r]) := by
  obtain ⟨rs, hrs⟩ := Sections.exists_begun x.queue n
  refine ⟨rs, hrs, ?_⟩
  cases hrs.fire h hpos (fun _ => hn) a hen with
  | inl hsame => exact .inl (hrs'.unique (h.fire a hen) hsame)
  | inr hmore =>
    obtain ⟨w, r, done, l, ha, hw, hdone, hmore⟩ := hmore
    exact .inr ⟨w, r, done, l, ha, hw, hdone, hrs'.unique (h.fire a hen) hmore⟩

/-- A warp before its first step: the entries in the ring are those of the finished posts. -/
theorem begun_of_inside_zero (h : SendQueue.post.Serialized (newQueue qpn j wq) x.queue) {w : W}
    {r : WorkRequest} {l : SendQueue.Locals} (hw : x.queue.place w = .inside r 0 l)
    {written : List WorkRequest} (hwritten : Sections.Begun 1 x.queue written) :
    written = x.queue.finished.map Prod.snd := by
  refine hwritten.unique h (.finished fun w' r' done' l' hw' => ?_)
  rw [h.eq_of_inside hw hw', hw] at hw'
  cases hw'
  decide

/-- A step of a warp. -/
theorem OnTime.warp (h : OnTime qpn j wq x) {a : LockAction W WorkRequest}
    (hen : Sections.enabled x.queue a) (hpaced : x.Paced (2 ^ j) (.warp a)) :
    OnTime qpn j wq (x.fire (2 ^ j) (.warp a)) where
  serialized := h.serialized.fire a hen
  next := h.next
  executed rung hrung := by
    obtain ⟨rung₀, hrung₀, hstep⟩ := begun_warp (by decide) (by decide) h.serialized hen hrung
    have hprefix : x.card.executed <+: fetchedAll qpn rung₀ := h.executed rung₀ hrung₀
    rcases hstep with rfl | ⟨w, r, done, l, -, -, -, rfl⟩
    · exact hprefix
    · rw [fetchedAll_append]
      exact hprefix.trans (List.prefix_append _ _)
  paced written hwritten := by
    obtain ⟨written₀, hwritten₀, hstep⟩ :=
      begun_warp (by decide) (by decide) h.serialized hen hwritten
    rcases hstep with rfl | ⟨w, r, done, l, rfl, hw, hdone, rfl⟩
    · exact h.paced written hwritten₀
    · -- The warp writes its entry, and that is where it is paced.
      obtain rfl : done = 0 := by omega
      have hroom : x.queue.finished.length < x.card.executed.length + 2 ^ j := by
        refine hpaced ?_
        rw [hw]
        rfl
      rw [begun_of_inside_zero h.serialized hw hwritten₀, List.length_append, List.length_map]
      exact hroom

/-- A fetch. -/
theorem OnTime.fetch (hj : j ≤ 15) (h : OnTime qpn j wq x) (hen : x.Rung) :
    OnTime qpn j wq (x.fire (2 ^ j) .fetch) := by
  obtain ⟨written, rung, hwritten, hrung, hprefix, hring, -⟩ :=
    exists_begun (hj.trans (by decide)) h.serialized
  have hlt : x.card.executed.length < rung.length := (h.rung_iff hj hrung).mp hen
  have hwithin := hprefix.length_le
  have hlt' : x.card.executed.length < written.length := by omega
  have hslot : x.card.next.toNat % 2 ^ j = x.card.executed.length % 2 ^ j := by
    rw [h.next, BitVec.toNat_ofNat]
    exact mod_mod_two_pow (hj.trans (by decide)) _
  -- The next entry is the post that the card has come to.
  have hentry : fetchWqe (x.queue.shared.wq (x.card.next.toNat % 2 ^ j))
      = some (rung[x.card.executed.length].fetched qpn
        (BitVec.ofNat 16 x.card.executed.length)) := by
    rw [hslot, hring _ hlt' (h.paced written hwritten), hprefix.getElem hlt]
  constructor
  · exact h.serialized
  · show x.card.next + 1 = BitVec.ofNat 16 (x.card.executed ++ [_]).length
    rw [h.next, List.length_append, List.length_singleton, BitVec.ofNat_add]
    rfl
  · intro rung' hrung'
    obtain rfl := hrung.unique h.serialized hrung'
    show x.card.executed ++ [fetchWqe _] <+: fetchedAll qpn rung
    have hlen : x.card.executed.length < (fetchedAll qpn rung).length := by
      rw [length_fetchedAll]
      exact hlt
    have hnext := List.concat_get_prefix (h.executed rung hrung) hlen
    rw [List.get_eq_getElem] at hnext
    have hget : (fetchedAll qpn rung)[x.card.executed.length] = fetchWqe
        (x.queue.shared.wq (x.card.next.toNat % 2 ^ j)) := by
      rw [hentry]
      exact List.getElem_mapIdx
    rw [← hget]
    exact hnext
  · intro written' hwritten'
    show written'.length ≤ (x.card.executed ++ [_]).length + 2 ^ j
    have := h.paced written' hwritten'
    rw [List.length_append, List.length_singleton]
    omega

/-- The runs whose warps are paced. -/
theorem onTime_of_reachable (hj : j ≤ 15)
    (h : ((system qpn (2 ^ j) wq).restrict (Paced (2 ^ j))).Reachable x) : OnTime qpn j wq x := by
  induction h with
  | init hinit =>
    obtain rfl : _ = start qpn (2 ^ j) wq := hinit
    constructor
    · exact .inl ⟨rfl, fun _ hin => hin, rfl⟩
    · rfl
    · exact fun _ _ => List.nil_prefix
    · intro written hwritten
      have hser : SendQueue.post.Serialized (newQueue qpn j wq)
          (Sections.start (newQueue qpn j wq) : Locked W _ _ _) :=
        .inl ⟨rfl, fun _ hin => hin, rfl⟩
      rw [hwritten.unique hser (.finished fun _ _ _ _ hw => by cases hw)]
      exact Nat.zero_le _
  | @step x a x' _ hs ih =>
    obtain ⟨hpaced, hen, rfl⟩ := hs
    cases a with
    | warp a => exact ih.warp hen hpaced
    | fetch => exact ih.fetch hj hen

/-- However the warps and the network card take turns, the card executes the posts in the order in
which their warps take the mutex, each one once and with every field as it was posted, and it has
executed them all when the doorbell record shows it no more. -/
theorem executed_in_order (hj : j ≤ 15)
    (h : ((system qpn (2 ^ j) wq).restrict (Paced (2 ^ j))).Reachable x) :
    ∃ rung, Sections.Begun 3 x.queue rung ∧ x.card.executed <+: fetchedAll qpn rung ∧
      (x.Rung ↔ x.card.executed.length < rung.length) := by
  have hon := onTime_of_reachable hj h
  obtain ⟨rung, hrung⟩ := Sections.exists_begun x.queue 3
  exact ⟨rung, hrung, hon.executed rung hrung, hon.rung_iff hj hrung⟩

/-! ### The pace is needed -/

/-- The index of the entry is the number that the writer was given. -/
theorem wqeIndex_fetched (qpn : BitVec 32) (wqHead : BitVec 16) (r : WorkRequest) :
    (r.fetched qpn wqHead).ctrl.wqeIndex = wqHead := by
  cases r <;> rfl

/-- The ring after the first step of a post. -/
theorem wq_fire (hj : j ≤ 16) (h : SendQueue.post.Serialized (newQueue qpn j wq) x.queue) {w : W}
    {r : WorkRequest} {l : SendQueue.Locals} (hw : x.queue.place w = .inside r 0 l) :
    ∃ slot, (x.fire (2 ^ j) (.warp (.run w))).queue.shared.wq =
      Function.update x.queue.shared.wq (x.queue.finished.length % 2 ^ j)
        (r.wqe slot qpn (BitVec.ofNat 16 x.queue.finished.length)) := by
  -- The warp that holds the mutex has done nothing yet, so the queue is that of the finished
  -- posts.
  have hshared : x.queue.shared
      = SendQueue.post.runAll (newQueue qpn j wq) (x.queue.finished.map Prod.snd) :=
    congrArg Prod.fst (h.of_inside hw).2.2.2
  have hctx : x.queue.shared.ctx = ctxAfter qpn (2 ^ j) x.queue.finished.length := by
    rw [hshared, ctx_runAll qpn wq hj, List.length_map]
  -- Its first step writes the entry.
  have hfire : SendQueue.post.fire x.queue (.run w) = { x.queue with
      shared := (SendQueue.writeWqe r (x.queue.shared, l)).1
      place := Function.update x.queue.place w
        (.inside r 1 (SendQueue.writeWqe r (x.queue.shared, l)).2) } := by
    rw [Sections.fire, hw]
    rfl
  refine ⟨x.queue.shared.wq x.queue.shared.ctx.slot, ?_⟩
  show (SendQueue.post.fire x.queue (.run w)).shared.wq = _
  rw [hfire]
  show Function.update x.queue.shared.wq x.queue.shared.ctx.slot (r.wqe _ _ _) = _
  rw [hctx, slot_ctxAfter hj]
  rfl

/-- A warp that writes its entry leaves every entry that the network card has yet to fetch as it is,
if and only if it is paced. If it is not, the card finds the new request where the oldest entry was.
-/
theorem write_keeps_iff (hj : j ≤ 15)
    (h : ((system qpn (2 ^ j) wq).restrict (Paced (2 ^ j))).Reachable x) {w : W} {r : WorkRequest}
    {l : SendQueue.Locals} (hw : x.queue.place w = .inside r 0 l) :
    ((∀ (k : ℕ) (hk : k < x.queue.finished.length), x.card.executed.length ≤ k →
      fetchWqe ((x.fire (2 ^ j) (.warp (.run w))).queue.shared.wq (k % 2 ^ j))
        = some (x.queue.finished[k].2.fetched qpn (BitVec.ofNat 16 k))) ↔
      x.Paced (2 ^ j) (.warp (.run w))) ∧
    (¬x.Paced (2 ^ j) (.warp (.run w)) → x.card.executed.length < x.queue.finished.length ∧
      fetchWqe ((x.fire (2 ^ j) (.warp (.run w))).queue.shared.wq (x.card.executed.length % 2 ^ j))
        = some (r.fetched qpn (BitVec.ofNat 16 x.queue.finished.length))) := by
  have hon := onTime_of_reachable hj h
  have hround : 2 ^ j ≤ 2 ^ 15 := Nat.pow_le_pow_right (by decide) hj
  have hpos : 0 < 2 ^ j := Nat.two_pow_pos j
  obtain ⟨slot, hwq⟩ := wq_fire (hj.trans (by decide)) hon.serialized hw
  obtain ⟨written, -, hwritten, -, -, hring, -⟩ :=
    exists_begun (hj.trans (by decide)) hon.serialized
  have hpaced := hon.paced written hwritten
  obtain rfl := begun_of_inside_zero hon.serialized hw hwritten
  rw [List.length_map] at hpaced
  have hiff : x.Paced (2 ^ j) (.warp (.run w)) ↔
      x.queue.finished.length < x.card.executed.length + 2 ^ j := by
    show (writesNext (x.queue.place w) = true → _) ↔ _
    rw [hw]
    exact ⟨fun hroom => hroom rfl, fun hroom _ => hroom⟩
  -- Without room the slot is that of the oldest entry, which now has the index of the new one.
  have hover : ¬x.queue.finished.length < x.card.executed.length + 2 ^ j →
      x.card.executed.length < x.queue.finished.length ∧
        fetchWqe ((x.fire (2 ^ j) (.warp (.run w))).queue.shared.wq
            (x.card.executed.length % 2 ^ j))
          = some (r.fetched qpn (BitVec.ofNat 16 x.queue.finished.length)) := by
    intro hfull
    have heq : x.queue.finished.length = x.card.executed.length + 2 ^ j := by omega
    refine ⟨by omega, ?_⟩
    rw [hwq, heq, Nat.add_mod_right, Function.update_self, fetchWqe_wqe]
  rw [hiff]
  refine ⟨⟨?_, ?_⟩, hover⟩
  · intro hkeeps
    by_contra hfull
    obtain ⟨hlt, hnew⟩ := hover hfull
    have hold := hkeeps x.card.executed.length hlt le_rfl
    rw [hnew] at hold
    have hindex := congrArg (fun f => f.ctrl.wqeIndex.toNat) (Option.some.inj hold)
    simp only [wqeIndex_fetched, BitVec.toNat_ofNat] at hindex
    omega
  · intro hroom k hk hle
    have hwrite := hring.write slot r
    rw [List.length_map, ← hwq] at hwrite
    have hk' : k < (x.queue.finished.map Prod.snd ++ [r]).length := by
      rw [List.length_append, List.length_map]
      exact hk.trans (Nat.lt_succ_self _)
    rw [hwrite k hk' (by
      rw [List.length_append, List.length_map, List.length_singleton]
      omega), List.getElem_append_left (by rw [List.length_map]; exact hk), List.getElem_map]

/-! ### A ring of two slots -/

/-- Two warps fill the ring, and the network card fetches the first entry before one of them comes
back: it is about to write over that entry. -/
def twoSlots : List (PostingAction ℕ) :=
  [.warp (.call 0 (.rdmaWrite 0x1000 1 0x2000 2 64)),
    .warp (.run 0), .warp (.run 0), .warp (.run 0),
    .warp (.call 1 (.rdmaAtomicAdd 1 0x3000 1 0x4000 2)), .warp (.run 1), .warp (.run 0),
    .fetch, .warp (.run 0), .warp (.run 0), .warp (.run 0), .warp (.run 1), .warp (.run 1),
    .warp (.run 1), .warp (.run 1), .warp (.run 1), .warp (.run 1), .warp (.run 1),
    .warp (.call 0 (.rdmaWrite 0x1040 1 0x2040 2 64)), .warp (.run 0)]

/-- The state that they come to. -/
def afterTwoSlots : Posting ℕ := (machine (2 ^ 1)).exec (start 7 (2 ^ 1) fun _ _ => 0) twoSlots

/-- The state belongs to a run in which no post outruns the card. -/
theorem reachable_afterTwoSlots :
    ((system 7 (2 ^ 1) fun _ _ => 0).restrict (Paced (2 ^ 1))).Reachable afterTwoSlots :=
  Machine.reachable_restrict_exec twoSlots (.init rfl) (by decide +kernel)

/-- In this state one request was executed, and it is the first that was posted. -/
theorem executed_in_order_twoSlots :
    ∃ rung, Sections.Begun 3 afterTwoSlots.queue rung ∧
      afterTwoSlots.card.executed <+: fetchedAll 7 rung ∧
      (afterTwoSlots.Rung ↔ afterTwoSlots.card.executed.length < rung.length) :=
  executed_in_order (by decide) reachable_afterTwoSlots

/-- The same without a fetch: the ring is full, and warp 0 is about to write over the first entry.
-/
def fullTwoSlots : Posting ℕ :=
  (machine (2 ^ 1)).exec (start 7 (2 ^ 1) fun _ _ => 0) (twoSlots.eraseIdx 7)

/-- This state belongs to such a run as well. -/
theorem reachable_fullTwoSlots :
    ((system 7 (2 ^ 1) fun _ _ => 0).restrict (Paced (2 ^ 1))).Reachable fullTwoSlots :=
  Machine.reachable_restrict_exec (twoSlots.eraseIdx 7) (.init rfl) (by decide +kernel)

/-- After the fetch the next write keeps the entries that are still needed, and without it the
write is not paced. -/
theorem write_keeps_iff_twoSlots :
    ((∀ (k : ℕ) (hk : k < afterTwoSlots.queue.finished.length),
      afterTwoSlots.card.executed.length ≤ k →
        fetchWqe ((afterTwoSlots.fire (2 ^ 1) (.warp (.run 0))).queue.shared.wq (k % 2 ^ 1))
          = some (afterTwoSlots.queue.finished[k].2.fetched 7 (BitVec.ofNat 16 k))) ↔
      afterTwoSlots.Paced (2 ^ 1) (.warp (.run 0))) ∧
    ¬fullTwoSlots.Paced (2 ^ 1) (.warp (.run 0)) ∧
      fetchWqe ((fullTwoSlots.fire (2 ^ 1) (.warp (.run 0))).queue.shared.wq 0)
        = some ((WorkRequest.rdmaWrite 0x1040 1 0x2040 2 64).fetched 7 2) := by
  have hfull : ¬fullTwoSlots.Paced (2 ^ 1) (.warp (.run 0)) := by decide +kernel
  have hover := (write_keeps_iff (by decide) reachable_fullTwoSlots (w := 0)
    (r := .rdmaWrite 0x1040 1 0x2040 2 64) (l := 0) rfl).2 hfull
  exact ⟨(write_keeps_iff (by decide) reachable_afterTwoSlots
    (r := .rdmaWrite 0x1040 1 0x2040 2 64) (l := 0) rfl).1, hfull, hover.2⟩

end Posting

end EpDemo.Kernel
