import EpDemo.Kernel.PostSend
import EpDemo.Proofs.Kernel.Wqe
import Mathlib.Data.Nat.Bitwise

/-!
# `EpDemo.Proofs.Kernel.PostSend`: ring, doorbell and BlueFlame stay in step

Under the mutex a run of posts is a sequential one (`Library.Sections.serialized_of_reachable`), so
it is enough to follow one post after another. `Posted` is what holds between two posts: `wq_head`
is the number of posts modulo `65536`, `bf_offset` is the half of the next one, and the log is made
of the three events of each post (`postEvents`). `Posted.run` is the step of the induction, and
`Posted.log_runSteps` says which events the first steps of a post add.

`posts_in_step` puts them together, for any number of posts.
-/

set_option autoImplicit false

namespace EpDemo.Kernel

open EpDemo.Library

/-- What post number `k` shows to the network card: the entry in its slot, the number of posts so
far in the doorbell record, and the start of the entry in the half of the BlueFlame register. -/
def postEvents (numWqebb k : ℕ) (contents : Bytes) : List PostEvent :=
  [.wqe (k % numWqebb) contents, .doorbell (BitVec.ofNat 32 ((k + 1) % 65536)),
    .blueFlame (BitVec.ofNat 32 (256 * (k % 2))) (readLE contents 0 8)]

/-- The entry of a request that is post number `k`: the writer made it, over whatever the slot held,
and the network card reads the index of the post in it. -/
structure IsWqe (qpn : BitVec 32) (k : ℕ) (r : WorkRequest) (contents : Bytes) : Prop where
  written : ∃ slot, contents = r.wqe slot qpn (BitVec.ofNat 16 k)
  wqeIndex : (readCtrlSeg contents).wqeIndex.toNat = k % 65536

/-- The slots after the stores of a log. -/
def replay (wq : ℕ → Bytes) (log : List PostEvent) : ℕ → Bytes :=
  log.foldl (fun wq e =>
    match e with
    | .wqe slot contents => Function.update wq slot contents
    | _ => wq) wq

/-- The log of the first `n` posts. -/
def postLog (numWqebb : ℕ) (contents : ℕ → Bytes) (n : ℕ) : List PostEvent :=
  ((List.range n).map fun k => postEvents numWqebb k (contents k)).flatten

/-! ### Words -/

/-- The index of an entry is the counter that its writer was given. -/
theorem wqeIndex_wqe (slot : Bytes) (qpn : BitVec 32) (wqHead : BitVec 16) (r : WorkRequest) :
    (readCtrlSeg (r.wqe slot qpn wqHead)).wqeIndex = wqHead := by
  cases r with
  | rdmaWrite laddr lkey raddr rkey bytes =>
    rw [WorkRequest.wqe, readCtrlSeg_writeRdmaWriteWqe]
  | rdmaAtomicAdd value laddr lkey raddr rkey =>
    rw [WorkRequest.wqe, readCtrlSeg_writeRdmaAtomicAddWqe]

/-- What a post writes is an entry for its request. -/
theorem isWqe_wqe (slot : Bytes) (qpn : BitVec 32) (k : ℕ) (r : WorkRequest) :
    IsWqe qpn k r (r.wqe slot qpn (BitVec.ofNat 16 k)) where
  written := ⟨slot, rfl⟩
  wqeIndex := by
    rw [wqeIndex_wqe]
    exact BitVec.toNat_ofNat k 16

section

variable {j : ℕ}

/-- The mask of a power of two. -/
theorem toNat_mask (hj : j ≤ 16) : (BitVec.ofNat 32 (2 ^ j) - 1).toNat = 2 ^ j - 1 := by
  have hpos : 0 < 2 ^ j := Nat.two_pow_pos j
  have hle : 2 ^ j ≤ 65536 := Nat.pow_le_pow_right (by decide) hj
  rw [BitVec.toNat_sub, BitVec.toNat_ofNat]
  show (2 ^ 32 - 1 + 2 ^ j % 2 ^ 32) % 2 ^ 32 = _
  omega

/-- A masked word is its remainder. -/
theorem toNat_and_mask (hj : j ≤ 16) (x : BitVec 32) :
    (x &&& (BitVec.ofNat 32 (2 ^ j) - 1)).toNat = x.toNat % 2 ^ j := by
  rw [BitVec.toNat_and, toNat_mask hj, Nat.and_two_pow_sub_one_eq_mod]

/-- A counter of 16 bits, used as an index. -/
theorem toNat_setWidth_ofNat (k : ℕ) : ((BitVec.ofNat 16 k).setWidth 32).toNat = k % 65536 := by
  rw [BitVec.toNat_setWidth, BitVec.toNat_ofNat]
  omega

/-- A remainder of the counter is one of the number that it counts. -/
theorem mod_mod_two_pow (hj : j ≤ 16) (k : ℕ) : k % 65536 % 2 ^ j = k % 2 ^ j :=
  Nat.mod_mod_of_dvd k (Nat.pow_dvd_pow 2 hj)

/-- The last entry is the one before the counter, also when the counter has just come back to
zero. -/
theorem toNat_lastWqe (hj : j ≤ 16) (k : ℕ) :
    (((BitVec.ofNat 16 (k + 1)).setWidth 32 - 1) &&& (BitVec.ofNat 32 (2 ^ j) - 1)).toNat
      = k % 2 ^ j := by
  rw [toNat_and_mask hj, BitVec.toNat_sub, toNat_setWidth_ofNat]
  show (2 ^ 32 - 1 + (k + 1) % 65536) % 2 ^ 32 % 2 ^ j = _
  rw [Nat.mod_mod_of_dvd _ (Nat.pow_dvd_pow 2 (hj.trans (by decide))), ← mod_mod_two_pow hj]
  have hmod : (2 ^ 32 - 1 + (k + 1) % 65536) % 65536 = k % 65536 := by omega
  rw [hmod, mod_mod_two_pow hj]

/-- The other half. -/
theorem toggle_half (k : ℕ) :
    BitVec.ofNat 32 (256 * (k % 2)) ^^^ mlx5gdaBfSize = BitVec.ofNat 32 (256 * ((k + 1) % 2)) := by
  cases Nat.mod_two_eq_zero_or_one k with
  | inl h =>
    have hsucc : (k + 1) % 2 = 1 := by omega
    rw [h, hsucc]
    rfl
  | inr h =>
    have hsucc : (k + 1) % 2 = 0 := by omega
    rw [h, hsucc]
    rfl

end

/-! ### One post -/

section

variable {qpn : BitVec 32} {j : ℕ} {wq : ℕ → Bytes} {rs : List WorkRequest} {q : SendQueue}

/-- The context between two posts, after `k` of them. -/
def ctxAfter (qpn : BitVec 32) (numWqebb k : ℕ) : QpDevctx where
  qpn := qpn
  wqeidMask := BitVec.ofNat 32 numWqebb - 1
  bfOffset := BitVec.ofNat 32 (256 * (k % 2))
  wqHead := BitVec.ofNat 16 k

/-- What holds of a queue pair between two posts, after the posts `rs`. -/
structure Posted (qpn : BitVec 32) (numWqebb : ℕ) (wq : ℕ → Bytes) (rs : List WorkRequest)
    (contents : ℕ → Bytes) (q : SendQueue) : Prop where
  ctx : q.ctx = ctxAfter qpn numWqebb rs.length
  isWqe : ∀ (k : ℕ) (h : k < rs.length), IsWqe qpn k rs[k] (contents k)
  log : q.log = postLog numWqebb contents rs.length
  wq : q.wq = replay wq q.log

/-- The entry that the next post writes. -/
def nextContents (qpn : BitVec 32) (numWqebb k : ℕ) (r : WorkRequest) (q : SendQueue) : Bytes :=
  r.wqe (q.wq (k % numWqebb)) qpn (BitVec.ofNat 16 k)

/-- After `k` posts the next slot is `k` modulo the size of the ring. -/
theorem slot_ctxAfter (hj : j ≤ 16) (k : ℕ) : (ctxAfter qpn (2 ^ j) k).slot = k % 2 ^ j := by
  show ((BitVec.ofNat 16 k).setWidth 32 &&& (BitVec.ofNat 32 (2 ^ j) - 1)).toNat = _
  rw [toNat_and_mask hj, toNat_setWidth_ofNat, mod_mod_two_pow hj]

/-- The events of a post are those of its number. -/
theorem events_eq (hj : j ≤ 16) (r : WorkRequest) {k : ℕ} (hctx : q.ctx = ctxAfter qpn (2 ^ j) k) :
    (SendQueue.storeBlueFlame (SendQueue.ringDoorbell (SendQueue.countHead
      (SendQueue.writeWqe r (q, 0))))).1.log
      = q.log ++ postEvents (2 ^ j) k (nextContents qpn (2 ^ j) k r q) := by
  have hslot : q.ctx.slot = k % 2 ^ j := by rw [hctx, slot_ctxAfter hj]
  have hhead : (q.ctx.wqHead + 1).setWidth 32 = (BitVec.ofNat 16 (k + 1)).setWidth 32 := by
    rw [hctx]
    show (BitVec.ofNat 16 k + 1).setWidth 32 = _
    rw [BitVec.ofNat_add]
    rfl
  have hcontents : r.wqe (q.wq q.ctx.slot) q.ctx.qpn q.ctx.wqHead
      = nextContents qpn (2 ^ j) k r q := by
    rw [hslot, hctx]
    rfl
  have hdoorbell : ((BitVec.ofNat 16 (k + 1)).setWidth 32 : BitVec 32)
      = BitVec.ofNat 32 ((k + 1) % 65536) := by
    apply BitVec.eq_of_toNat_eq
    rw [toNat_setWidth_ofNat, BitVec.toNat_ofNat]
    omega
  -- `last_wqe` is the entry that was just written
  have hlast : Function.update q.wq q.ctx.slot (nextContents qpn (2 ^ j) k r q)
      (((q.ctx.wqHead + 1).setWidth 32 - 1 &&& q.ctx.wqeidMask).toNat)
        = nextContents qpn (2 ^ j) k r q := by
    have hmask : q.ctx.wqeidMask = BitVec.ofNat 32 (2 ^ j) - 1 := by rw [hctx]; rfl
    rw [hhead, hmask, toNat_lastWqe hj, hslot, Function.update_self]
  have hbf : q.ctx.bfOffset = BitVec.ofNat 32 (256 * (k % 2)) := by rw [hctx]; rfl
  show ((q.log ++ [.wqe q.ctx.slot (r.wqe (q.wq q.ctx.slot) q.ctx.qpn q.ctx.wqHead)])
      ++ [.doorbell (readBE (storeLE q.dbr SendQueue.sendCounter 4
        (deviceByteswap32 ((q.ctx.wqHead + 1).setWidth 32))) SendQueue.sendCounter 4)])
      ++ [.blueFlame q.ctx.bfOffset (readLE (Function.update q.wq q.ctx.slot
        (r.wqe (q.wq q.ctx.slot) q.ctx.qpn q.ctx.wqHead)
        (((q.ctx.wqHead + 1).setWidth 32 - 1 &&& q.ctx.wqeidMask).toNat)) 0 8)] = _
  rw [hcontents, hlast, readBE_byteswap32, hhead, hdoorbell, hbf, hslot]
  simp only [List.append_assoc, List.cons_append, List.nil_append]
  rfl

/-- The steps of a post. -/
theorem of_mem_steps {r : WorkRequest}
    {f : SendQueue × SendQueue.Locals → SendQueue × SendQueue.Locals}
    (hf : f ∈ SendQueue.post.steps r) :
    f = SendQueue.writeWqe r ∨ f = SendQueue.countHead ∨ f = SendQueue.ringDoorbell ∨
      f = SendQueue.storeBlueFlame ∨ f = SendQueue.toggleBlueFlame := by
  simpa [SendQueue.post] using hf

/-- Every step of a post only adds to the log. -/
theorem log_prefix_step {r : WorkRequest}
    {f : SendQueue × SendQueue.Locals → SendQueue × SendQueue.Locals}
    (hf : f ∈ SendQueue.post.steps r) (x : SendQueue × SendQueue.Locals) :
    x.1.log <+: (f x).1.log := by
  rcases of_mem_steps hf with rfl | rfl | rfl | rfl | rfl
  · exact List.prefix_append _ _
  · exact List.prefix_refl _
  · exact List.prefix_append _ _
  · exact List.prefix_append _ _
  · exact List.prefix_refl _

/-- Every step keeps the slots in step with the log. -/
theorem replay_step {r : WorkRequest}
    {f : SendQueue × SendQueue.Locals → SendQueue × SendQueue.Locals}
    (hf : f ∈ SendQueue.post.steps r) (x : SendQueue × SendQueue.Locals)
    (h : x.1.wq = replay wq x.1.log) : (f x).1.wq = replay wq (f x).1.log := by
  have hadd : ∀ e, replay wq (x.1.log ++ [e]) = replay (replay wq x.1.log) [e] :=
    fun e => List.foldl_append
  rcases of_mem_steps hf with rfl | rfl | rfl | rfl | rfl
  · show Function.update x.1.wq _ _ = replay wq (x.1.log ++ [_])
    rw [hadd, ← h]
    rfl
  · exact h
  · show x.1.wq = replay wq (x.1.log ++ [_])
    rw [hadd, ← h]
    rfl
  · show x.1.wq = replay wq (x.1.log ++ [_])
    rw [hadd, ← h]
    rfl
  · exact h

/-- The first steps of a post add the first of its events. -/
theorem log_runSteps (hj : j ≤ 16) (r : WorkRequest) {k : ℕ} (hctx : q.ctx = ctxAfter qpn (2 ^ j) k)
    {done : ℕ} (hdone : done ≤ 5) :
    ∃ t, t <+: postEvents (2 ^ j) k (nextContents qpn (2 ^ j) k r q) ∧
      (SendQueue.post.runSteps r done q).1.log = q.log ++ t := by
  have hmono : ∀ {i i' : ℕ}, i ≤ i' → (SendQueue.post.runSteps r i q).1.log <+:
      (SendQueue.post.runSteps r i' q).1.log :=
    fun h => SendQueue.post.runSteps_mono (Q := fun x y => x.1.log <+: y.1.log)
      (fun _ => List.prefix_refl _) (fun _ _ _ hxy hyz => hxy.trans hyz)
      (fun f hf x => log_prefix_step hf x) q h
  obtain ⟨t, ht⟩ := hmono (Nat.zero_le done)
  have hlast : (SendQueue.post.runSteps r 5 q).1.log
      = q.log ++ postEvents (2 ^ j) k (nextContents qpn (2 ^ j) k r q) :=
    events_eq hj r hctx
  refine ⟨t, ?_, ht.symm⟩
  have hle := hmono hdone
  rw [hlast, ← ht] at hle
  exact (List.prefix_append_right_inj _).mp hle

/-- One more post adds its own events to the log. -/
theorem postLog_succ (n : ℕ) (contents : ℕ → Bytes) (k : ℕ) :
    postLog n contents (k + 1) = postLog n contents k ++ postEvents n k (contents k) := by
  rw [postLog, postLog, List.range_succ, List.map_append, List.flatten_append]
  simp only [List.map_cons, List.map_nil, List.flatten_cons, List.flatten_nil, List.append_nil]

/-- The log of the posts before `k` does not depend on the entry of post `k`. -/
theorem postLog_update (n : ℕ) (contents : ℕ → Bytes) (k : ℕ) (c : Bytes) :
    postLog n (Function.update contents k c) k = postLog n contents k := by
  rw [postLog, postLog]
  congr 1
  apply List.map_congr_left
  intro i hi
  rw [Function.update_of_ne (List.mem_range.mp hi).ne]

/-- One more post. -/
theorem Posted.run (hj : j ≤ 16) {contents : ℕ → Bytes} (h : Posted qpn (2 ^ j) wq rs contents q)
    (r : WorkRequest) :
    Posted qpn (2 ^ j) wq (rs ++ [r])
      (Function.update contents rs.length (nextContents qpn (2 ^ j) rs.length r q))
      (SendQueue.post.run q r) where
  ctx := by
    -- The counter wraps in 16 bits, as the index does.
    have hhead : BitVec.ofNat 16 rs.length + 1 = BitVec.ofNat 16 (rs.length + 1) :=
      (BitVec.ofNat_add rs.length 1).symm
    show ({ q.ctx with
        bfOffset := q.ctx.bfOffset ^^^ mlx5gdaBfSize, wqHead := q.ctx.wqHead + 1 } : QpDevctx) = _
    rw [h.ctx, List.length_append]
    show ({ qpn := qpn, wqeidMask := BitVec.ofNat 32 (2 ^ j) - 1
            bfOffset := BitVec.ofNat 32 (256 * (rs.length % 2)) ^^^ mlx5gdaBfSize
            wqHead := BitVec.ofNat 16 rs.length + 1 } : QpDevctx) = _
    rw [toggle_half, hhead]
    rfl
  isWqe k hk := by
    rw [List.length_append] at hk
    -- The new entry is the last one, and older ones stay.
    by_cases hlast : k = rs.length
    · subst hlast
      rw [Function.update_self, List.getElem_concat_length rfl]
      exact isWqe_wqe _ qpn rs.length r
    · have hlt : k < rs.length := by
        have : k < rs.length + 1 := hk
        omega
      rw [Function.update_of_ne hlast, List.getElem_append_left hlt]
      exact h.isWqe k hlt
  -- The post adds its own events to the log.
  log := by
    rw [List.length_append]
    show (SendQueue.post.run q r).log = postLog _ _ (rs.length + 1)
    rw [postLog_succ, postLog_update, Function.update_self, ← h.log]
    exact events_eq hj r h.ctx
  wq := SendQueue.post.runSteps_invariant (I := fun x => x.1.wq = replay wq x.1.log)
    (fun f hf x hx => replay_step hf x hx) h.wq _

/-- Posts one after the other. -/
theorem Posted.exists_runAll (hj : j ≤ 16) {contents : ℕ → Bytes}
    (h : Posted qpn (2 ^ j) wq rs contents q) (rs' : List WorkRequest) :
    ∃ contents', Posted qpn (2 ^ j) wq (rs ++ rs') contents' (SendQueue.post.runAll q rs') := by
  induction rs' generalizing rs contents q with
  | nil =>
    rw [List.append_nil]
    exact ⟨contents, h⟩
  | cons r rs' ih =>
    obtain ⟨contents', h'⟩ := ih (h.run hj r)
    rw [List.append_assoc] at h'
    exact ⟨contents', h'⟩

/-- The queue pair of `init_ibgda` has no posts. -/
theorem posted_init (dbr : Bytes) :
    Posted qpn (2 ^ j) wq [] (fun _ _ => 0)
      (SendQueue.init qpn (BitVec.ofNat 32 (2 ^ j)) wq dbr) where
  ctx := rfl
  isWqe k hk := absurd hk (Nat.not_lt_zero k)
  log := rfl
  wq := rfl

end

/-! ### Runs under the mutex -/

/-- A queue pair in the middle of a run: the log is made of the events of the finished posts, in the
order in which they released the mutex, and of the first events of the post whose warp holds it. -/
structure InStep {W : Type*} (qpn : BitVec 32) (numWqebb : ℕ) (wq : ℕ → Bytes)
    (s : Locked W SendQueue SendQueue.Locals WorkRequest) : Prop where
  log : ∃ contents current,
    (∀ k, (h : k < s.finished.length) → IsWqe qpn k s.finished[k].2 (contents k)) ∧
    current <+: postEvents numWqebb s.finished.length (contents s.finished.length) ∧
    s.shared.log = postLog numWqebb contents s.finished.length ++ current ∧
    (current ≠ [] → s.mutex = 1 ∧ ∃ w r done l, s.place w = .inside r done l ∧
      IsWqe qpn s.finished.length r (contents s.finished.length))
  /-- No other slot was written. -/
  wq : s.shared.wq = replay wq s.shared.log
  /-- The posts do not overlap. -/
  exclusive : ∀ w w', Sections.Inside (s.place w) → Sections.Inside (s.place w') → w = w'

/-- Ring, doorbell and BlueFlame stay in step: in every run of any number of posts of either kind,
by any warps, from the queue pair that `init_ibgda` builds. -/
theorem posts_in_step {W : Type*} [DecidableEq W] (qpn : BitVec 32) {j : ℕ} (hj : j ≤ 16)
    (wq : ℕ → Bytes) (dbr : Bytes) {s : Locked W SendQueue SendQueue.Locals WorkRequest}
    (h : (SendQueue.post.system
      (SendQueue.init qpn (BitVec.ofNat 32 (2 ^ j)) wq dbr)).Reachable s) :
    InStep qpn (2 ^ j) wq s := by
  have hinit : Posted qpn (2 ^ j) wq [] (fun _ _ => 0)
      (SendQueue.init qpn (BitVec.ofNat 32 (2 ^ j)) wq dbr) := posted_init dbr
  obtain ⟨contents, hposted⟩ := hinit.exists_runAll hj (s.finished.map Prod.snd)
  rw [List.nil_append] at hposted
  have hlen : (s.finished.map Prod.snd).length = s.finished.length := List.length_map _
  have hfinished : ∀ k, (hk : k < s.finished.length) →
      IsWqe qpn k s.finished[k].2 (contents k) := by
    intro k hk
    have hwqe := hposted.isWqe k (hlen.symm ▸ hk)
    rw [List.getElem_map] at hwqe
    exact hwqe
  have hlog := hposted.log
  rw [hlen] at hlog
  cases Sections.serialized_of_reachable h with
  | inl hfree =>
    obtain ⟨-, houtside, hshared⟩ := hfree
    rw [← hshared] at hposted hlog
    constructor
    · refine ⟨contents, [], hfinished, List.nil_prefix, ?_, fun hne => absurd rfl hne⟩
      rw [hlog, List.append_nil]
    · exact hposted.wq
    · exact fun w _ hin => absurd hin (houtside w)
  | inr hheld =>
    obtain ⟨hmutex, v, r, done, l, hv, hothers, hle, hsteps⟩ := hheld
    have hctx := hposted.ctx
    rw [hlen] at hctx
    have hshared : s.shared = (SendQueue.post.runSteps r done (SendQueue.post.runAll
        (SendQueue.init qpn (BitVec.ofNat 32 (2 ^ j)) wq dbr) (s.finished.map Prod.snd))).1 :=
      congrArg Prod.fst hsteps
    obtain ⟨current, hprefix, hcurrent⟩ := log_runSteps hj r hctx hle
    rw [← hshared, hlog] at hcurrent
    -- the entry of the post in progress takes the next place
    refine ⟨⟨Function.update contents s.finished.length
      (nextContents qpn (2 ^ j) s.finished.length r
        (SendQueue.post.runAll (SendQueue.init qpn (BitVec.ofNat 32 (2 ^ j)) wq dbr)
          (s.finished.map Prod.snd))), current, fun k hk => ?_, ?_, ?_, fun _ => ?_⟩, ?_, ?_⟩
    · rw [Function.update_of_ne hk.ne]
      exact hfinished k hk
    · rw [Function.update_self]
      exact hprefix
    · rw [postLog_update]
      exact hcurrent
    · rw [Function.update_self]
      exact ⟨hmutex, v, r, done, l, hv, isWqe_wqe _ qpn s.finished.length r⟩
    · rw [hshared]
      exact SendQueue.post.runSteps_invariant (I := fun x => x.1.wq = replay wq x.1.log)
        (fun f hf x hx => replay_step hf x hx) hposted.wq done
    · intro w w' hw hw'
      have hself : ∀ u, Sections.Inside (s.place u) → u = v := by
        intro u hu
        by_contra hne
        exact hothers u hne hu
      rw [hself w hw, hself w' hw']

/-- Two warps, a write and an atomic addition: the second warp comes while the first one holds the
mutex, and has written its entry over the ring of two slots. -/
def twoWarps : List (LockAction ℕ WorkRequest) :=
  [.call 0 (.rdmaWrite 0x1000 1 0x2000 2 64), .run 0, .call 1 (.rdmaAtomicAdd 1 0x3000 1 0x4000 2),
    .run 1, .run 0, .run 0, .run 1, .run 0, .run 0, .run 0, .run 0, .run 1, .run 1]

/-- Both warps post in step, though they compete for the mutex. -/
theorem posts_in_step_twoWarps :
    InStep 7 (2 ^ 1) (fun _ _ => 0) (SendQueue.post.machine.exec (Sections.start
      (SendQueue.init 7 (BitVec.ofNat 32 (2 ^ 1)) (fun _ _ => 0) (fun _ => 0))) twoWarps) :=
  posts_in_step 7 (by decide) (fun _ _ => 0) (fun _ => 0)
    (Machine.reachable_exec twoWarps (.init rfl) (by decide))

end EpDemo.Kernel
