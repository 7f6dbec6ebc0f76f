import EpDemo.Proofs.System.DispatchDelivers

/-!
# `EpDemo.Proofs.System.StaleRows`: what a `combine` reads of the old contents of its buffer

The wait of `combine` may give a rank up, while the reduction reads a slot for every entry of the
top-k table. `Twins` are two runs of one `combine` with the same inputs, the same schedule and the
same deliveries, which differ only in the receive data before the call. As long as every row that
is added up has arrived (`ReadsArrived`), the second run has nothing but the words that no message
has written to tell them apart (`Alike`), and the outputs are the same (`no_stale_rows`).
`stale_row_read` is a rank that is given up and read all the same.
-/

set_option autoImplicit false

namespace EpDemo.System

open EpDemo.Kernel EpDemo.Library

/-- The rank, the token and the warp that adds the row of an entry up. -/
def Action.accum : Action → Option (ℕ × ℕ × ℕ)
  | .combine r (.accum t warp) => some (r, t, warp)
  | _ => none

namespace Config

variable {A : Type} {c : Config A} {w : World A} {a : Action}

/-! ### Words that were written -/

/-- A message that has landed has written its words. -/
def Written (c : Config A) (w : World A) : Prop :=
  ∀ m, ∀ r < c.numRanks, ∀ key, c.Landed w m r (.data key) → ∀ j < c.dataBytes m / 4,
    w.dataFrom (c.calls m).buf ((c.dataDst w m r key).add (4 * j)) ≠ none

/-- A word that was written stays one. -/
theorem writeWords_ne_none {mem : Ptr → Option ℕ} {dst p : Ptr} {n m : ℕ} (h : mem p ≠ none) :
    writeWords mem dst n (fun _ => some m) p ≠ none := by
  rw [writeWords]
  cases wordIndex dst n p with
  | none => exact h
  | some j => exact Option.some_ne_none m

/-- Every step keeps it. What lands now is written now. -/
theorem Written.fire (hv : c.Sound) (hl : c.Launches w) (hq : c.Queues w) (h : c.Written w)
    (hen : c.enabled w a) : c.Written (c.fire w a) := by
  -- A message that has landed keeps its marks.
  intro m r hr key hland j hj
  cases data_cases hv hl hq hen with
  | inl hsame =>
    have hland := (hsame.2.2 m r key).mp hland
    rw [dataDst_fire_of_sent hv hl hen hr hland.1, hsame.2.1]
    exact h m r hr key hland j hj
  | inr hlanding =>
    obtain ⟨k, s, key', content, hlanding⟩ := hlanding
    rw [hlanding.dataFrom]
    -- A message that lands over it leaves marks as well.
    cases (hlanding.landed m r key).mp hland with
    | inl hland =>
      have hold := h m r hr key hland j hj
      rw [dataDst_fire_of_sent hv hl hen hr hland.1, Function.update_apply]
      split
      · rename_i hbuf
        exact writeWords_ne_none (hbuf ▸ hold)
      · exact hold
    | inr heq =>
      -- The message that lands marks its own words.
      obtain ⟨rfl, rfl, rfl⟩ := heq
      rw [hlanding.dataDst_fire hv hl hq hen, Function.update_self, writeWords_self _ _ _ hj]
      exact Option.some_ne_none _

/-- It holds in every state of a run. -/
theorem written_of_run {init : World A → Prop} (hv : c.Sound) (hinit : ∀ w, init w → c.Allocated w)
    (h : (c.machine.system init).Reachable w) : c.Written w := by
  refine h.invariant ?_ ?_
  · intro q hq m r _ key hland
    exact absurd hland.1 (not_dataSent_of_allocated (hinit q hq))
  · rintro q a q' hreach hold ⟨hen, rfl⟩
    exact hold.fire hv (launches_of_run hv hinit hreach) (queues_of_run hv hinit hreach) hen

/-! ### Two runs -/

/-- Two runs with the same schedule. -/
def twins (c : Config A) : Machine (World A × World A) Action where
  enabled p a := c.enabled p.1 a ∧ c.enabled p.2 a
  decEnabled _ _ := inferInstance
  fire p a := (c.fire p.1 a, c.fire p.2 a)

/-- The states before the call differ in the receive data only. -/
def Twins (c : Config A) (p : World A × World A) : Prop :=
  c.Allocated p.1 ∧ p.2 = { p.1 with data := p.2.data }

/-- All ranks run one `combine`. -/
structure SingleCombine (c : Config A) : Prop where
  length : c.length = some 1
  kind : (c.calls 0).kind = .combine

/-- The expert of the entry that warp `warp` of rank `r` adds up next for token `t`. -/
def nextEntry (c : Config A) (w : World A) (r t warp : ℕ) : ℤ :=
  let l := c.launch r (w.call r)
  l.topk (t * l.numTopk + (w.comb (r, w.call r)).reduced (t, warp))

/-- The row for expert `e` and token `t` of rank `r` has arrived: the owner of the expert sends a
row for the token, and its signal for the rank has landed. -/
def RowArrived (c : Config A) (w : World A) (r e t : ℕ) : Prop :=
  let m := w.call r
  let s := e / c.numLocalExperts
  let group := r * c.numLocalExperts + e % c.numLocalExperts
  c.Landed w m s (.signal group) ∧ ∃ k < (c.combineLaunch w s m).numRows group,
    c.srcInfo w s m (c.combineRow w m s (group, k)) = t

/-- The step adds up no row that has not arrived. -/
def ReadsArrived (c : Config A) (w : World A) (a : Action) : Prop :=
  ∀ x ∈ a.accum, 0 ≤ c.nextEntry w x.1 x.2.1 x.2.2 →
    c.RowArrived w x.1 (c.nextEntry w x.1 x.2.1 x.2.2).toNat x.2.1

instance (w : World A) (m r : ℕ) : (q : Request) → Decidable (c.Sent w m r q)
  | .data key => inferInstanceAs (Decidable (c.DataSent w m r key))
  | .signal e => inferInstanceAs (Decidable (c.SignalSent w m r e))

instance (w : World A) (m r : ℕ) (q : Request) : Decidable (c.Landed w m r q) :=
  inferInstanceAs (Decidable (_ ∧ ¬∃ x ∈ w.nic _, _))

instance (w : World A) (r e t : ℕ) : Decidable (c.RowArrived w r e t) :=
  inferInstanceAs (Decidable (_ ∧ ∃ k < _, _))

instance (w : World A) (a : Action) : Decidable (c.ReadsArrived w a) :=
  inferInstanceAs (Decidable (∀ x ∈ a.accum, _ → _))

/-- The second state differs from the first in words of receive data that no message has written,
and in nothing else. -/
structure Alike (p : World A × World A) : Prop where
  same : p.2 = { p.1 with data := p.2.data }
  data : ∀ b q, p.1.dataFrom b q ≠ none → p.2.data b q = p.1.data b q

/-- A message is written to both. -/
theorem write_alike {data data' : ℕ → Ptr → Word} {dataFrom : ℕ → Ptr → Option ℕ}
    (h : ∀ b q, dataFrom b q ≠ none → data' b q = data b q) (buf n m : ℕ) (dst : Ptr)
    (content : ℕ → Word) (b : ℕ) (q : Ptr)
    (hq : Function.update dataFrom buf
      (writeWords (dataFrom buf) dst n fun _ => some m) b q ≠ none) :
    Function.update data' buf (writeWords (data' buf) dst n content) b q =
      Function.update data buf (writeWords (data buf) dst n content) b q := by
  by_cases hb : b = buf
  · subst hb
    rw [Function.update_self, writeWords] at hq
    rw [Function.update_self, Function.update_self, writeWords, writeWords]
    cases hindex : wordIndex dst n q with
    | some j => rfl
    | none =>
      rw [hindex] at hq
      exact h b q hq
  · rw [Function.update_of_ne hb] at hq ⊢
    rw [Function.update_of_ne hb]
    exact h b q hq

/-- A row that has arrived has written its slot. -/
theorem RowArrived.written (hv : c.Sound) (hl : c.Launches w) (hq : c.Queues w) (hw : c.Written w)
    {r e t j : ℕ} (hr : r < c.numRanks) (he : e < c.numExperts)
    (hkind : (c.calls (w.call r)).kind = .combine) (h : c.RowArrived w r e t)
    (hj : j < c.shape.numBytesPerSlot / 4) :
    w.dataFrom (c.calls (w.call r)).buf ((c.fabric.recvData (c.calls (w.call r)).buf r
      (c.slotOffset e t)).add (4 * j)) ≠ none := by
  obtain ⟨hland, k, hk, hinfo⟩ := h
  have hs := hv.div_lt he
  have hgroup := hv.expert_lt hr (hv.mod_lt e)
  have hdata : c.Landed w (w.call r) (e / c.numLocalExperts)
      (.data (r * c.numLocalExperts + e % c.numLocalExperts, k)) := by
    refine hq.data_landed hv hl hs hgroup hland ?_ ?_
    · simp only [Task, hkind]
      exact ⟨hgroup, hk⟩
    · simp only [dataExpert, hkind]
  have hwritten := hw _ _ hs _ hdata j (by simpa only [dataBytes, hkind] using hj)
  rwa [dataDst_of_row hv hkind, hinfo] at hwritten

section

variable {data : ℕ → Ptr → Word} (hdata : ∀ b q, w.dataFrom b q ≠ none → data b q = w.data b q)

include hdata

/-- A step of `combine` that adds up nothing keeps the runs alike. -/
theorem alike_combine {r : ℕ} {b : Combine.Action} (haccum : ∀ t warp, b ≠ .accum t warp) :
    Alike (c.fire w (.combine r b), c.fire { w with data := data } (.combine r b)) := by
  -- Only the reduction reads the receive buffer.
  cases b with
  | accum t warp => exact absurd rfl (haccum t warp)
  | sendRow e k =>
    constructor
    · simp only [fire, combineEffect, transfer_eq]
      rfl
    · intro b q hq
      simp only [fire, combineEffect, transfer_eq] at hq ⊢
      split
      · -- A send over RDMA changes no word, and a direct one writes the same words in both runs.
        rename_i hpath
        rw [if_pos hpath] at hq
        exact hdata b q hq
      · rename_i hpath
        rw [if_neg hpath] at hq
        exact write_alike hdata _ _ _ _ _ b q hq
  | signal e =>
    constructor
    · simp only [fire, combineEffect, signal_eq]
      rfl
    · intro b q hq
      simp only [fire, combineEffect, signal_eq] at hq ⊢
      exact hdata b q hq
  | _ => exact ⟨rfl, hdata⟩

/-- A warp that adds up a row that was written keeps the runs alike. -/
theorem alike_accum {r t warp : ℕ}
    (hwords : 0 ≤ c.nextEntry w r t warp → ∀ j, j / 128 = warp →
      w.dataFrom (c.calls (w.call r)).buf ((c.fabric.recvData (c.calls (w.call r)).buf r
        (c.slotOffset (c.nextEntry w r t warp).toNat t)).add (4 * j)) ≠ none) :
    Alike (c.fire w (.combine r (.accum t warp)),
      c.fire { w with data := data } (.combine r (.accum t warp))) := by
  have hacc : (c.fire { w with data := data } (.combine r (.accum t warp))).acc =
      (c.fire w (.combine r (.accum t warp))).acc := by
    refine congrArg (Function.update w.acc (r, w.call r)) (funext fun x => ?_)
    refine if_ctx_congr Iff.rfl (fun hx => ?_) fun _ => rfl
    exact congrArg (c.mulAdd _ · _) (hdata _ _ (hwords hx.2.2 x.2 hx.2.1))
  refine ⟨?_, hdata⟩
  calc c.fire { w with data := data } (.combine r (.accum t warp))
      = { c.fire w (.combine r (.accum t warp)) with
          data := data
          acc := (c.fire { w with data := data } (.combine r (.accum t warp))).acc } := rfl
    _ = { c.fire w (.combine r (.accum t warp)) with data := data } := by rw [hacc]

/-- The network card keeps the runs alike. -/
theorem alike_deliver (r ctx : ℕ) :
    Alike (c.fire w (.deliver r ctx), c.fire { w with data := data } (.deliver r ctx)) := by
  cases hnic : w.nic (r, ctx) with
  | nil =>
    simp only [fire, hnic]
    exact ⟨rfl, hdata⟩
  | cons x rest =>
    simp only [fire, hnic]
    cases x with
    | atomicAdd => exact ⟨rfl, hdata⟩
    | write m key buf src dst bytes => exact ⟨rfl, write_alike hdata buf (bytes / 4) m dst _⟩

end

/-- An entry that is added up is an existing expert. -/
theorem nextEntry_lt (hv : c.Sound) (hl : c.Launches w) {r t warp : ℕ}
    (hen : c.enabled w (.combine r (.accum t warp))) (hpos : 0 ≤ c.nextEntry w r t warp) :
    (c.nextEntry w r t warp).toNat < c.numExperts := by
  obtain ⟨hr, -, ⟨-, ht, -, hi, -⟩, -⟩ := hen
  have hfit := hv.fits (hl.hasCall r hr) hr
  have hentry : c.nextEntry w r t warp =
      (c.launch r (w.call r)).dstExpertIdx t ((w.comb (r, w.call r)).reduced (t, warp)) :=
    (Launch.dstExpertIdx_of_lt _ hi).symm
  rw [hentry] at hpos ⊢
  exact hfit.dst_lt ht hpos

/-- Two runs of one `combine` are alike, as long as every row that is added up has arrived. -/
theorem alike_of_twins (hv : c.Sound) (hone : c.SingleCombine) {p : World A × World A}
    (h : ((c.twins.system c.Twins).restrict fun p a => c.ReadsArrived p.1 a).Reachable p) :
    Alike p := by
  -- The two runs start with different data, but with no word that was written.
  refine h.invariant ?_ ?_
  · rintro q ⟨hinit, hsame⟩
    exact ⟨hsame, fun b p hfrom => absurd (hinit.dataFrom b p) hfrom⟩
  · rintro ⟨w, w'⟩ a q' hreach hold ⟨hreads, ⟨hen, -⟩, rfl⟩
    replace hen : c.enabled w a := hen
    -- The first of the two is a run of its own.
    have hrun : (c.machine.system c.Allocated).Reachable w := by
      have hpair : (c.twins.system c.Twins).Reachable (w, w') := hreach.of_restrict
      refine hpair.map (U := c.machine.system c.Allocated) Prod.fst ?_ ?_
      · exact fun _ hq => hq.1
      · rintro q a q' - ⟨⟨hen, -⟩, rfl⟩
        exact .single ⟨a, hen, rfl⟩
    have hl := launches_of_run hv (fun _ h => h) hrun
    -- There is only one call.
    have hfirst : ∀ r < c.numRanks, w.call r = 0 := by
      intro r hr
      have hcall : c.HasCall (w.call r) := hl.hasCall r hr
      simpa [HasCall, hone.length] using hcall
    obtain ⟨hsame, hdata⟩ := hold
    generalize w'.data = data at hsame hdata
    replace hsame : w' = { w with data := data } := hsame
    subst hsame
    cases a with
    | dispatch r b =>
      have hkind : (c.calls (w.call r)).kind = .dispatch := hen.2.1
      rw [hfirst r hen.1, hone.kind] at hkind
      cases hkind
    | deliver r ctx => exact alike_deliver hdata r ctx
    | advance r =>
      have hnext : c.HasCall (w.call r + 1) := hen.2.1
      simp [HasCall, hone.length] at hnext
    | combine r b =>
      -- The words that the reduction adds were written in this run.
      by_cases haccum : ∃ t warp, b = .accum t warp
      · obtain ⟨t, warp, rfl⟩ := haccum
        refine alike_accum hdata fun hpos j hj => ?_
        exact (hreads (r, t, warp) rfl hpos).written hv hl (queues_of_run hv (fun _ h => h) hrun)
          (written_of_run hv (fun _ h => h) hrun) hen.1 (nextEntry_lt hv hl hen hpos) hen.2.1
          (word_lt rfl hen.2.2.1.2.2.1 hj)
      · exact alike_combine hdata fun t warp heq => haccum ⟨t, warp, heq⟩

/-- The output of a `combine` does not depend on what the receive data held before the call, as
long as every row that is added up has arrived. -/
theorem no_stale_rows (c : Config A) (hv : c.Sound) (hone : c.SingleCombine)
    (p : World A × World A)
    (hp : ((c.twins.system c.Twins).restrict fun p a => c.ReadsArrived p.1 a).Reachable p) :
    p.2.combined = p.1.combined := by
  rw [(alike_of_twins hv hone hp).same]

/-! ### Two ranks, one of which is given up -/

/-- The ranks of `twoRanks` run one `combine`, in which the token of rank 0 has one expert. -/
def oneCombine (expert : ℕ) : Config ℕ :=
  let c := twoRanks (some 1) (fun _ => 0) fun _ => 1
  { c with
    calls := fun k =>
      { c.calls k with
        kind := .combine
        input := fun r =>
          { (c.calls k).input r with
            topkIdx := fun _ => expert
            timeoutTicks := 1000
            source := .given (fun _ => 0) fun i =>
              if i = expert % 5 * 2 ∧ r = expert / 5 then pack2 1 0 else 0 } } }

/-- The inputs with one `combine` pass all checks, for every expert of the token. -/
theorem oneCombine_sound {expert : ℕ} (hexpert : expert < 10) : (oneCombine expert).Sound where
  hasCall := fun _ hn => by cases hn; decide
  numRanks_pos := (by decide : 0 < 2)
  numExperts_pos := (by decide : 0 < 10)
  dvd := (by decide : 2 ∣ 10)
  numExperts_lt := (by decide : 10 < 2 ^ 31)
  rows_lt := (by decide : 10 * 1 < 2 ^ 31)
  mapped _ _ := ⟨rfl, rfl⟩
  input m _ r _ := by
    have hlt : (if r = 0 then 1 else 0) ≤ 1 := by split <;> decide
    refine ⟨hlt, (by decide : 1 ≤ kNumMaxTopK), ?_, ?_, ?_, rfl, ?_⟩
    · exact (Nat.mul_le_mul_right 1 hlt).trans_lt (by decide)
    · intro i _
      show toInt32 (expert : ℤ) < (10 : ℕ)
      rw [toInt32_natCast (by omega)]
      exact_mod_cast hexpert
    · intro t _ i hi j hj _ _
      rw [Nat.lt_one_iff.mp hi, Nat.lt_one_iff.mp hj]
    · intro _ k hk
      cases hk

/-- Two states before the call, which differ in the receive data. -/
def twinBlanks : World ℕ × World ℕ := (blank, { blank with data := fun _ _ => 7 })

/-- The two states differ in nothing but the receive data. -/
theorem twinBlanks_twins (expert : ℕ) : (oneCombine expert).Twins twinBlanks :=
  ⟨(init_blank rfl).allocated, rfl⟩

/-- The `combine` of rank 0, which gives rank 1 up, to the first part of its output row. The row
for the token is its own, or it is one of rank 1. -/
def withoutPeer (own : Bool) : List Combine.Action :=
  (List.range 10).map Combine.Action.clean ++ ([.publish] : List Combine.Action) ++
    (if own then ([.sendRow 2 0] : List Combine.Action) else []) ++
    (List.range 10).flatMap (fun e => ([.open e, .signal e, .drop e] : List Combine.Action)) ++
    (List.range 5).map (fun e => Combine.Action.acquire e 1) ++
    ([.miss 5, .expire 5, .giveUp 5] : List Combine.Action) ++
    (List.range' 6 4).flatMap (fun e => ([.miss e, .giveUp e] : List Combine.Action)) ++
    ([.gridSync, .accum 0 0, .store 0 0] : List Combine.Action)

/-- The expert of the token is on rank 0 itself. -/
theorem no_stale_rows_oneCombine :
    let p := (oneCombine 2).twins.exec twinBlanks ((withoutPeer true).map (.combine 0))
    p.2.combined = p.1.combined := by
  intro p
  have hlegal : ((oneCombine 2).twins.guarded fun p a => (oneCombine 2).ReadsArrived p.1 a).Legal
      twinBlanks ((withoutPeer true).map (.combine 0)) := by decide +kernel
  exact no_stale_rows (oneCombine 2) (oneCombine_sound (by decide)) ⟨rfl, rfl⟩ p
    (Machine.reachable_restrict_exec _ (.init (twinBlanks_twins 2)) hlegal)

/-- The expert of the token is on rank 1, which has not sent anything when rank 0 gives it up. Rank
0 adds the old contents of the slot up. -/
theorem stale_row_read :
    let c := oneCombine 7
    c.Sound ∧ c.SingleCombine ∧ ∃ p, (c.twins.system c.Twins).Reachable p ∧
      p.2.combined ≠ p.1.combined := by
  intro c
  have hlegal : c.twins.Legal twinBlanks ((withoutPeer false).map (.combine 0)) := by decide +kernel
  have hout :
      (c.twins.exec twinBlanks ((withoutPeer false).map (.combine 0))).2.combined (0, 0) (0, 0) =
        14 ∧
      (c.twins.exec twinBlanks ((withoutPeer false).map (.combine 0))).1.combined (0, 0) (0, 0) =
        0 := by
    decide +kernel
  refine ⟨oneCombine_sound (by decide), ⟨rfl, rfl⟩, _,
    Machine.reachable_exec _ (.init (twinBlanks_twins 7)) hlegal, fun hsame => ?_⟩
  rw [hsame] at hout
  exact absurd (hout.1.symm.trans hout.2) (by decide)

end Config

end EpDemo.System
