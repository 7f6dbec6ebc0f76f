import EpDemo.Proofs.System.CombineReduces
import EpDemo.Proofs.System.Transports

/-!
# `EpDemo.Proofs.System.SharedBuffer`: `dispatch` and its `combine` on one buffer

`test_dispatch_combine` runs both kernels on the buffer `get_buffer_idx()` and passes a scratch
array to be cleaned. So the entries that `combine` waits for hold the signals of the `dispatch`, and
they end its waits before anything was sent (`shared_buffer_unsafe`). Nor does anything keep a rank
that is in its `combine` from writing over the messages of a peer that is still in its `dispatch`.

`Separate` is what is missing: every wait is ended by its own signal, no message lands over a word
of the other call that is still in use, and no row is staged over one that is still queued. Then
both calls read what was sent to them (`shared_buffer_safe`). Where the ranks start the `combine`
together, only the first of the three is missing (`separate_of_level`).
-/

set_option autoImplicit false

namespace EpDemo.System.Config

open EpDemo.Kernel EpDemo.Library

variable {A : Type} {c : Config A} {w₀ w : World A} {a : Action}

/-- All ranks run a `dispatch` and then the `combine` of it on the same buffer, and pass another
array to be cleaned. -/
structure SharesBuffer (c : Config A) : Prop where
  length : c.length = some 2
  inverts : c.Inverts 0 1
  buf_eq : (c.calls 1).buf = (c.calls 0).buf
  clean_ne : ∀ m < 2, (c.calls m).clean ≠ (c.calls m).buf
  zeroCopy : ∀ r < c.numRanks, ((c.calls 1).input r).zeroCopy = false

/-- A step that reads the receive data finds there what was sent to it in its call. -/
structure ReadsOwnCall (c : Config A) (w : World A) (a : Action) : Prop where
  /-- No other call has written to the slot that a `dispatch` copies. -/
  dispatch : ∀ d e i, a = .dispatch d (.copyRow e i) → ∀ j < c.shape.numBytesPerMsg / 4,
    w.dataFrom (c.calls (w.call d)).buf
      ((c.fabric.recvData (c.calls (w.call d)).buf d
        (c.messageOffset (e % c.numLocalExperts) (e / c.numLocalExperts) i)).add (4 * j)) =
      some (w.call d)
  /-- The owner of the expert has delivered the row that a `combine` adds. -/
  combine : ∀ r t warp, a = .combine r (.accum t warp) →
    let m := w.call r
    let i := (w.comb (r, m)).reduced (t, warp)
    let e := (c.entry m r t i).toNat
    let group := r * c.numLocalExperts + e % c.numLocalExperts
    0 ≤ c.entry m r t i → ∃ k,
      c.SentFor w m r t i (c.combineRow w m (e / c.numLocalExperts) (group, k)) ∧
        c.Landed w m (e / c.numLocalExperts) (.data (group, k))

/-- In separate runs both calls read what was sent to them. -/
theorem shared_buffer_safe (c : Config A) (hv : c.Valid) (hshare : c.SharesBuffer) (w : World A)
    (hw : c.separate.Reachable w) (a : Action) (hen : c.enabled w a) : c.ReadsOwnCall w a := by
  obtain ⟨w₀, hw₀, hfrom⟩ := hw.exists_startingAt
  have hf := facts_of_separate hv hw
  have hl := hf.launches
  constructor
  · -- A warp of dispatch copies a row whose message is still intact.
    rintro d e i rfl j hj
    obtain ⟨hd, hkind, ⟨he, hready, hlt, -⟩, -⟩ := hen
    rw [(hf.claims d hd _ hkind).numRecv e (by rw [hready]; rfl)] at hlt
    obtain ⟨key, hkey, hslot, hland⟩ :=
      hf.settled.exists_landed hv hl hf.queues hd hkind he (by exact_mod_cast hlt)
    have hexpert := dataExpert_of_mem hkind hkey
    have hmessage := intact_dispatch hv hw₀ (onTime_of_separate hfrom) _ hkind _ (hv.div_lt he) key
      hland (by rw [hexpert, (mul_add_div_mod (hv.mod_lt e)).1])
    have hword := (hmessage j (by simpa only [dataBytes, hkind] using hj)).1
    rwa [dataDst_of_slot hv hkind hexpert hslot] at hword
  · -- A warp of combine adds the row that was sent for its entry.
    rintro r t warp rfl m i e group hpos
    obtain ⟨hr, hkind, ⟨hred, ht, -, hi, -⟩, -⟩ := hen
    have hcall : m = 1 := by
      have hlt := (hasCall_iff_of_length hshare.length).mp (hl.hasCall r hr)
      have hne : w.call r ≠ 0 := by
        intro hzero
        rw [hzero, hshare.inverts.dispatch] at hkind
        cases hkind
      show w.call r = 1
      omega
    have hinv : c.Inverts 0 m := hcall ▸ hshare.inverts
    exact hinv.exists_message hf hr le_rfl hred ht hi hpos
      (hf.connected hv hinv hr le_rfl hred (entry_lt hv (hl.hasCall r hr) hr ht hi hpos))

/-! ### Ranks that start a call together -/

/-- All ranks are in the same call, or one of them goes to its next one. -/
def Level (c : Config A) (w : World A) (a : Action) : Prop :=
  (∀ r < c.numRanks, ∀ s < c.numRanks, w.call r = w.call s) ∨ ∃ r, a = .advance r

/-- Messages of ranks in one call are of that call, so they keep apart from those of others. -/
theorem onTime_of_level (hv : c.Valid) (h : c.system.Reachable w) (hacq : c.Acquired w)
    (hen : c.enabled w a) (hlevel : c.Level w a) : c.OnTime w a := by
  have hl := launches_of_reachable hv h
  have hq := queues_of_reachable hv h
  cases hlevel with
  | inr hadvance =>
    obtain ⟨r, rfl⟩ := hadvance
    refine ⟨?_, fun r hstage => by cases hstage⟩
    intro m r key content hland
    cases hland.how with
    | inl hstore => cases hstore.1
    | inr hdeliver =>
      obtain ⟨⟨ctx, hctx⟩, -⟩ := hdeliver
      cases hctx
  | inl hsame =>
    constructor
    · intro m r key content hland j _ n hfrom
      have hd := hv.div_lt hland.expert
      have hge := hland.recv_call_le hv hl hq hacq hen
      have hle := hland.call_le
      obtain ⟨s, hs, hn⟩ := dataFrom_le hv h hfrom
      rw [hsame s hs _ hd] at hn
      rw [hsame r hland.rank _ hd] at hle
      omega
    · intro r _ m key hp hne
      -- The receiver of a queued message has not left its call, and neither has its sender.
      obtain ⟨x, hx, htag⟩ := id hp
      have hr := hq.rank r _ x hx
      have he : c.dataExpert m r key < c.numExperts := by
        have he := hq.expert r _ x hx
        rwa [htag] at he
      have hd := hv.div_lt he
      have hsent := hq.sent_of_pending hp
      have hle := hl.le_of_sent hr hsent
      refine absurd hp (data_landed_of_taken hv hl hq hacq hr he (hl.task_of_sent hv hr hsent) ?_).2
      refine hl.taken_of_lt hd ?_ (hv.expert_lt hr (hv.mod_lt _))
      rw [← hsame r hr _ hd]
      omega

/-- The runs of ranks that start each call together and wait for their own signals. -/
def level (c : Config A) : TransitionSystem (World A) Action :=
  c.system.restrict fun w a => c.OwnSignal w a ∧ c.Level w a

/-- Ranks that start each call together and wait for their own signals disturb nobody: their steps
are separate. -/
theorem separate_of_level (hv : c.Valid) (h : c.level.Reachable w) : c.separate.Reachable w := by
  refine h.mono (T := c.level) (U := c.separate) (fun _ hw => hw) ?_
  intro q a q' hq hs
  have hacq := acquired_of_run (fun _ _ hstep => hstep.1) hv hq
  exact ⟨⟨onTime_of_level hv hq.of_restrict hacq hs.2.1 hs.1.2, hs.1.1⟩, hs.2⟩

instance (w : World A) (a : Action) : Decidable (c.Level w a) :=
  match a with
  | .advance r => isTrue (.inr ⟨r, rfl⟩)
  | .dispatch .. | .combine .. | .deliver .. =>
    decidable_of_iff (∀ r < c.numRanks, ∀ s < c.numRanks, w.call r = w.call s)
      ⟨.inl, fun h => h.resolve_right fun ⟨_, hadvance⟩ => by cases hadvance⟩

instance (w : World A) (a : Action) : Decidable (c.OwnSignal w a) :=
  decidable_of_iff (∀ x ∈ a.acquired,
    w.call x.1 ∈ (w.sigFrom (c.calls (w.call x.1)).buf (c.fabric.recvSignal
      (c.calls (w.call x.1)).buf x.1 (c.waitCell (w.call x.1) x.2.1))).map Prod.fst ∧
    ((c.calls (w.call x.1)).kind = .dispatch →
      (w.sigFrom (c.calls (w.call x.1)).buf (c.fabric.recvSignal
        (c.calls (w.call x.1)).buf x.1 (c.waitCell (w.call x.1) x.2.1))).map Prod.fst =
          [w.call x.1]))
    ⟨fun h r e v hacq => h (r, e, v) hacq, fun h x hacq => h x.1 x.2.1 x.2.2 hacq⟩

/-! ### Two ranks -/

/-- The ranks of `twoRanks` run a `dispatch` and its `combine` on buffer 0. -/
def twoRanksShared : Config ℕ := twoRanks (some 2) (fun _ => 0) fun _ => 1

/-- The two ranks use one buffer for both calls. -/
theorem twoRanksShared_sharesBuffer : twoRanksShared.SharesBuffer where
  length := rfl
  inverts :=
    ⟨Nat.zero_lt_one, rfl, rfl, fun _ _ => rfl, fun _ _ => rfl, fun _ _ => rfl, fun _ _ => rfl⟩
  buf_eq := rfl
  clean_ne _ _ := Nat.one_ne_zero
  zeroCopy _ _ := rfl

/-- The SEND phase of `combine` on rank `r` when the ranks reach each other by stores. -/
def combineStores (r : ℕ) : List Combine.Action :=
  (List.range 10).map Combine.Action.clean ++ ([.publish] : List Combine.Action) ++
    (if r = 1 then ([.sendRow 2 0] : List Combine.Action) else []) ++
    (List.range 10).flatMap fun e => ([.open e, .signal e, .drop e] : List Combine.Action)

/-- Both calls on one buffer by stores, where every rank has sent before any waits. -/
def sharedSchedule : List Action :=
  storedDispatch ++ ([.advance 0, .advance 1] : List Action) ++
    (combineStores 0).map (Action.combine 0) ++ (combineStores 1).map (Action.combine 1) ++
    combineRecv.map (Action.combine 0)

/-- The run of two ranks on one buffer, over NVLink. -/
theorem shared_buffer_safe_twoRanks :
    let c := twoRanksShared.withNvlink fun _ _ => true
    c.ReadsOwnCall (c.machine.exec blank sharedSchedule) (.combine 0 (.accum 0 0)) := by
  intro c
  have hv : c.Valid := (twoRanks_valid (by simp) _ _).withNvlink _
  have hlegal : (c.machine.guarded fun w a => c.OwnSignal w a ∧ c.Level w a).Legal blank
      sharedSchedule := by decide +kernel
  have hen : c.enabled (c.machine.exec blank sharedSchedule) (.combine 0 (.accum 0 0)) := by
    decide +kernel
  have hinit : c.Init blank := init_blank rfl
  have hrun := Machine.reachable_restrict_exec _ (.init hinit) hlegal
  obtain ⟨hlength, hinverts, hbuf, hclean, hcopy⟩ := twoRanksShared_sharesBuffer
  exact shared_buffer_safe c hv
    ⟨hlength,
    ⟨hinverts.lt, hinverts.dispatch, hinverts.combine, hinverts.source, hinverts.numTokens,
      hinverts.numTopk, hinverts.topkIdx⟩, hbuf, hclean, hcopy⟩ _ (separate_of_level hv hrun) _ hen

/-- The RECV phase of `combine` on rank 0 with the signals of the `dispatch` in the entries of
rank 1. -/
def combineStale : List Combine.Action :=
  (List.range 5).map (fun e => Combine.Action.acquire e 1) ++
    (List.range' 5 5).map (fun e => Combine.Action.acquire e (-1)) ++
    ([.gridSync] : List Combine.Action)

/-- Rank 0 runs its `combine` before rank 1 has started. -/
def staleSchedule : List Action :=
  wholeDispatch ++ ([.advance 0] : List Action) ++ (combineSend 0).map (Action.combine 0) ++
    combineStale.map (Action.combine 0)

/-- Rank 0 adds up a row that rank 1 has not sent. -/
theorem shared_buffer_unsafe :
    twoRanksShared.Valid ∧ twoRanksShared.SharesBuffer ∧
      ∃ w a, twoRanksShared.system.Reachable w ∧ twoRanksShared.enabled w a ∧
        ¬twoRanksShared.ReadsOwnCall w a := by
  have hv : twoRanksShared.Valid := twoRanks_valid (by simp) _ _
  have hlegal : twoRanksShared.machine.Legal blank staleSchedule ∧
      twoRanksShared.enabled (twoRanksShared.machine.exec blank staleSchedule)
        (.combine 0 (.accum 0 0)) ∧
      (twoRanksShared.machine.exec blank staleSchedule).call 0 = 1 ∧
      (twoRanksShared.machine.exec blank staleSchedule).call 1 = 0 := by decide +kernel
  have hreach : twoRanksShared.system.Reachable (twoRanksShared.machine.exec blank staleSchedule) :=
    Machine.reachable_exec _ (.init (init_blank rfl)) hlegal.1
  generalize twoRanksShared.machine.exec blank staleSchedule = w at hlegal hreach
  obtain ⟨-, hen, hzero, hone⟩ := hlegal
  refine ⟨hv, twoRanksShared_sharesBuffer, w, _, hreach, hen, fun hreads => ?_⟩
  have hentry : ∀ m r t i, twoRanksShared.entry m r t i = 7 := fun _ _ _ _ => rfl
  obtain ⟨k, hsent, -⟩ := hreads.combine 0 0 0 rfl (by rw [hentry]; decide)
  -- Rank 1 owns expert 7 and is still in the first call.
  have hle := hsent.1
  rw [hentry] at hle
  replace hle : w.call 0 ≤ w.call 1 := hle
  omega

end EpDemo.System.Config
