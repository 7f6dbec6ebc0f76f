import EpDemo.Proofs.System.Memory

/-!
# `EpDemo.Proofs.System.DoubleBuffer`: calls on alternating buffers do not disturb each other

The ranks are in no lockstep, but no rank is more than one call ahead of another
(`call_le_succ`): to leave a call it has acquired a signal of every rank, and every rank signals
after it has cleaned. What the handshake says about the receive signals holds of the signal words
themselves, and a message of a call lands when its receiver is in that call or the one before.
-/

set_option autoImplicit false

namespace EpDemo.System.Config

open EpDemo.Kernel EpDemo.Library

variable {A : Type} {c : Config A} {w : World A} {a : Action}

/-! ### Alternating buffers -/

/-- The handshake invariant holds in every run. -/
theorem handshake_of_reachable (hv : c.Valid) (halt : c.Alternates) (h : c.system.Reachable w) :
    (protocol hv).Invariant (c.view w) :=
  Handshake.Protocol.invariant_of_reachable (halt.protocol hv) (view_reachable hv h)

/-- No rank is two calls ahead of another one. -/
theorem call_le_succ (hv : c.Valid) (halt : c.Alternates) (h : c.system.Reachable w) {r q : ℕ}
    (hr : r < c.numRanks) (hq : q < c.numRanks) : w.call r ≤ w.call q + 1 :=
  (handshake_of_reachable hv halt h).round_le_succ (halt.protocol hv) ⟨r, hr⟩ ⟨q, hq⟩

/-- What a cleaning store erases are signals of earlier calls that were acquired. -/
theorem taken_of_cleaned (hv : c.Valid) (halt : c.Alternates) (h : c.system.Reachable w)
    (hen : c.enabled w a) {r i : ℕ} (hclean : a.cleaned = some (r, i)) :
    ∀ x ∈ w.sigFrom (c.calls (w.call r)).clean (c.fabric.recvSignal (c.calls (w.call r)).clean r i),
      x.1 < w.call r ∧ c.Taken w x.1 r (c.waiter x.1 i) := by
  obtain ⟨hr, hi, hnot⟩ := of_cleaned hen hclean
  intro x hx
  have hinv := handshake_of_reachable hv halt h
  have hcontent : x.1 ∈ (c.view w).content ((c.calls (w.call r)).clean, ⟨r, hr⟩, ⟨i, hi⟩) :=
    List.mem_map.mpr ⟨x, hx, rfl⟩
  exact hinv.taken_of_clean (p := ⟨r, hr⟩) (c := ⟨i, hi⟩) (halt.protocol hv) hnot hcontent

/-- What a signal wait acquires is the signal of its call, which has landed. -/
theorem sigFrom_of_acquired (hv : c.Valid) (halt : c.Alternates) (h : c.system.Reachable w)
    (hen : c.enabled w a) {r e : ℕ} {v : ℤ} (hacq : a.acquired = some (r, e, v)) :
    let m := w.call r
    let i := c.waitCell m e
    w.sigFrom (c.calls m).buf (c.fabric.recvSignal (c.calls m).buf r i) = [(m, v)] ∧
      v = c.signalValue m (c.cellSender m i) (c.cellExpert m r i) ∧
      c.Landed w m (c.cellSender m i) (.signal (c.cellExpert m r i)) := by
  intro m i
  have hl := launches_of_reachable hv h
  have hs := signals_of_reachable hv h
  obtain ⟨hr, he, hne, hread⟩ := of_acquired hen hacq
  have hi : i < c.numExperts := waitCell_lt hv he
  -- The word is the sum of what has arrived in it, and it is not zero.
  have hword := hs.word m (hl.hasCall r hr) r hr i hi
  have hnonempty : (c.view w).content ((c.calls m).buf, ⟨r, hr⟩, ⟨i, hi⟩) ≠ [] := by
    intro hempty
    have hnil : w.sigFrom (c.calls m).buf (c.fabric.recvSignal (c.calls m).buf r i) = [] :=
      List.map_eq_nil_iff.mp hempty
    rw [hread, hnil] at hword
    exact hne hword
  -- The handshake leaves one signal of the current call.
  obtain ⟨hland, hcontent⟩ := (handshake_of_reachable hv halt h).content_of_take
    (p := ⟨r, hr⟩) (c := ⟨i, hi⟩) hnonempty
  obtain ⟨x, hx, hxm⟩ := List.map_eq_singleton_iff.mp
    (show (w.sigFrom (c.calls m).buf (c.fabric.recvSignal (c.calls m).buf r i)).map Prod.fst = [m]
      from hcontent)
  have hvalue := hs.value (c.calls m).buf r hr i hi x (by rw [hx]; exact List.mem_singleton_self _)
  rw [hxm] at hvalue
  -- Its value is the value that the sender encoded.
  have hv' : v = x.2 := by
    rw [← hread, hword, hx, List.map_singleton, List.sum_singleton, hvalue, signalValue_range]
  refine ⟨?_, hv'.trans hvalue, hland⟩
  rw [hx, hv', ← hxm]

/-- A word of receive data was written by a call no more than one ahead of its owner. -/
theorem dataFrom_le_succ (hv : c.Valid) (halt : c.Alternates) (h : c.system.Reachable w) {b : ℕ}
    {p : Ptr} {m : ℕ} (hfrom : w.dataFrom b p = some m) :
    p.rank < c.numRanks ∧ b = (c.calls m).buf ∧ m ≤ w.call p.rank + 1 := by
  revert b p m
  refine h.invariant (I := fun w => ∀ {b : ℕ} {p : Ptr} {m : ℕ}, w.dataFrom b p = some m →
    p.rank < c.numRanks ∧ b = (c.calls m).buf ∧ m ≤ w.call p.rank + 1) ?_ ?_
  · intro q hq b p m hfrom
    rw [hq.dataFrom] at hfrom
    cases hfrom
  · rintro q a q' hr hold ⟨hen, rfl⟩ b p m hfrom
    have hl := launches_of_reachable hv hr
    have hq := queues_of_reachable hv hr
    have hmono := call_le_fire c q a p.rank
    cases dataFrom_cases hv hl hq hen hfrom with
    | inl hbefore =>
      obtain ⟨hp, hb, hle⟩ := hold hbefore
      exact ⟨hp, hb, hle.trans (Nat.succ_le_succ hmono)⟩
    | inr hnew =>
      -- The word belongs to the message that lands, whose sender is in call `m` or later.
      obtain ⟨r, key, content, hland, hb, hrank⟩ := hnew
      have hd : p.rank < c.numRanks := by
        rw [hrank]
        exact hv.div_lt hland.expert
      have hle := call_le_succ hv halt hr hland.rank hd
      exact ⟨hd, hb, hland.call_le.trans (hle.trans (Nat.succ_le_succ hmono))⟩

/-! ### The buffer pair -/

/-- Call `m` of rank `r` has ended. -/
def CallDone (c : Config A) (w : World A) (r m : ℕ) : Prop :=
  ((c.calls m).kind = .dispatch → (w.disp (r, m)).Done (c.launch r m)) ∧
  ((c.calls m).kind = .combine → (w.comb (r, m)).Done (c.combineLaunch w r m))

/-- An unbounded sequence of calls on the two buffers of a `BufferPair`: call `k` uses buffer
`k % 2` and cleans the receive signals of the other one, and a `combine` takes the results of the
latest `dispatch`. -/
structure DoubleBuffered (c : Config A) : Prop where
  length : c.length = none
  buf : ∀ k, (c.calls k).buf = k % 2
  clean : ∀ k, (c.calls k).clean = (k + 1) % 2
  latest : ∀ k, (c.calls k).kind = .combine → ∀ r < c.numRanks, ∃ j < k,
    ((c.calls k).input r).source = .call j ∧ (c.calls j).kind = .dispatch ∧
      ∀ i, j < i → i < k → (c.calls i).kind = .combine

/-- Buffers that take turns alternate. -/
theorem DoubleBuffered.alternates (h : c.DoubleBuffered) : c.Alternates where
  buf_succ m _ := by
    rw [h.buf, h.buf]
    omega
  buf_add_two m _ := by
    rw [h.buf, h.buf]
    omega
  clean_ne m _ := by
    rw [h.clean, h.buf]
    omega
  clean_succ m _ := by
    rw [h.clean, h.buf]

/-- No cleaning store erases a signal that was not consumed, or one of a later call. -/
def CleansConsumed (c : Config A) (w : World A) : Prop :=
  ∀ a r i, c.enabled w a → a.cleaned = some (r, i) →
    ∀ x ∈ w.sigFrom (c.calls (w.call r)).clean (c.fabric.recvSignal (c.calls (w.call r)).clean r i),
      x.1 < w.call r ∧ c.Taken w x.1 r (c.waiter x.1 i)

/-- A signal wait of a call accepts one signal, which was sent for this call. -/
def AcceptsCurrent (c : Config A) (w : World A) : Prop :=
  ∀ a r e v, c.enabled w a → a.acquired = some (r, e, v) →
    let m := w.call r
    let i := c.waitCell m e
    w.sigFrom (c.calls m).buf (c.fabric.recvSignal (c.calls m).buf r i) = [(m, v)] ∧
      v = c.signalValue m (c.cellSender m i) (c.cellExpert m r i) ∧
      c.SignalSent w m (c.cellSender m i) (c.cellExpert m r i)

/-- A word of receive data that was written for call `k + 2` belongs to a rank that has ended
call `k`, the one before on this buffer. -/
def WritesAfterReads (c : Config A) (w : World A) : Prop :=
  ∀ b p k, w.dataFrom b p = some (k + 2) →
    b = (c.calls k).buf ∧ k < w.call p.rank ∧ c.CallDone w p.rank k

/-- The double buffer is safe, in every run of every sequence of calls. -/
theorem double_buffer_safe (c : Config A) (hv : c.Valid) (hdb : c.DoubleBuffered) (w : World A)
    (hw : c.system.Reachable w) :
    c.CleansConsumed w ∧ c.AcceptsCurrent w ∧ c.WritesAfterReads w := by
  have halt := hdb.alternates
  have hl := launches_of_reachable hv hw
  refine ⟨fun a r i hen hclean => taken_of_cleaned hv halt hw hen hclean, ?_, ?_⟩
  · intro a r e v hen hacq
    obtain ⟨hfrom, hvalue, hland⟩ := sigFrom_of_acquired hv halt hw hen hacq
    exact ⟨hfrom, hvalue, hland.1⟩
  · intro b p k hfrom
    obtain ⟨hp, hb, hle⟩ := dataFrom_le_succ hv halt hw hfrom
    have hlt : k < w.call p.rank := by omega
    refine ⟨?_, hlt, fun hk => hl.dispDone _ hp k hlt hk, fun hk => hl.combDone _ hp k hlt hk⟩
    rw [hb, hdb.buf, hdb.buf]
    omega

/-! ### Two ranks with five experts each -/

/-- Two ranks that reach each other by the network only, with ten experts. Every even call is a
`dispatch`, in which rank 0 has one token for expert 7, and every odd call the `combine` of the
call before. -/
def twoRanks (length : Option ℕ) (buf clean : ℕ → ℕ) : Config ℕ where
  numRanks := 2
  numExperts := 10
  numMaxDispatchTokensPerRank := 1
  maxQpCount := 2
  shape := { hidden := 2048, useFp8 := false }
  fabric :=
    { nvlinkAvailable := fun _ _ => false
      ipcPeerPtrs := fun _ d => Fabric.mxaBuffer d
      raddrArray := fun _ d => Fabric.mxaBuffer d
      buffers := fun _ => ⟨0, 0, 0, 0⟩ }
  length := length
  calls k :=
    { kind := if k % 2 = 0 then .dispatch else .combine
      fused := true
      buf := buf k
      clean := clean k
      input := fun r =>
        { numTokens := if r = 0 then 1 else 0
          numTopk := 1
          topkIdx := fun _ => 7
          timeoutTicks := -1
          packed := fun t j => BitVec.ofNat 32 (t + j)
          x := fun _ _ => 5
          topkWeights := fun _ => 2
          zeroCopy := false
          source := .call (k - 1) } }
  zero := 0
  mulAdd acc y weight := acc + y.toNat * weight.toNat
  round acc := BitVec.ofNat 32 acc

/-- A state before the first call. -/
def blank : World ℕ where
  call _ := 0
  disp _ := Dispatch.start
  comb _ := Combine.start
  sig _ _ := 0
  sigFrom _ _ := []
  send _ _ := 0
  data _ _ := 0
  dataFrom _ _ := none
  nic _ := []
  srcInfo _ _ := 0
  recvX _ _ _ := 0
  recvScales _ _ := 0
  acc _ _ := 0
  combined _ _ := 0

/-- The blank state is one before the first call. -/
theorem init_blank {c : Config ℕ} (hzero : c.zero = 0) : c.Init blank where
  call _ := rfl
  disp _ := Dispatch.start_fresh
  comb _ := Combine.start_fresh
  workspace _ _ := ⟨rfl, rfl⟩
  activeRanks _ _ := ⟨rfl, rfl⟩
  sig _ _ _ _ _ _ := rfl
  sigFrom _ _ := rfl
  dataFrom _ _ := rfl
  nic _ := rfl
  acc _ _ := hzero.symm

/-- It is one for the two ranks. -/
theorem blank_init (length : Option ℕ) (buf clean : ℕ → ℕ) :
    (twoRanks length buf clean).Init blank := init_blank rfl

/-- The inputs of the two ranks pass all checks. -/
theorem twoRanks_valid {length : Option ℕ} (hlength : ∀ n ∈ length, 0 < n) (buf clean : ℕ → ℕ) :
    (twoRanks length buf clean).Valid where
  hasCall := hlength
  numRanks_pos := (by decide : 0 < 2)
  numExperts_pos := (by decide : 0 < 10)
  dvd := (by decide : 2 ∣ 10)
  numExperts_lt := (by decide : 10 < 2 ^ 31)
  rows_lt := (by decide : 10 * 1 < 2 ^ 31)
  mapped _ _ := ⟨rfl, rfl⟩
  -- Rank 0 sends one token, and rank 1 none.
  input m _ r _ := by
    have hlt : (if r = 0 then 1 else 0) ≤ 1 := by split <;> decide
    refine ⟨hlt, (by decide : 1 ≤ kNumMaxTopK), ?_, ?_, ?_, rfl, ?_⟩
    · exact (Nat.mul_le_mul_right 1 hlt).trans_lt (by decide)
    · exact fun _ _ => (by decide : toInt32 7 < 10)
    · intro t _ i hi j hj _ _
      rw [Nat.lt_one_iff.mp hi, Nat.lt_one_iff.mp hj]
    · -- A combine call takes its rows from the dispatch call before it.
      intro hkind k hk
      cases hk
      have hodd : ¬m % 2 = 0 := by
        intro heven
        simp only [twoRanks, heven, if_true] at hkind
        cases hkind
      have hprev : (m - 1) % 2 = 0 := by omega
      exact ⟨by omega, if_pos hprev⟩

/-- With the two buffers in turn, the calls are double buffered. -/
theorem twoRanks_doubleBuffered :
    (twoRanks none (· % 2) fun k => (k + 1) % 2).DoubleBuffered := by
  refine ⟨rfl, fun _ => rfl, fun _ => rfl, ?_⟩
  intro k hkind r _
  have hodd : ¬k % 2 = 0 := by
    intro heven
    simp only [twoRanks, heven, if_true] at hkind
    cases hkind
  have hprev : (k - 1) % 2 = 0 := by omega
  exact ⟨k - 1, by omega, rfl, if_pos hprev, fun i _ _ => by omega⟩

/-! ### Runs of the two ranks -/

/-- The SEND phase of rank `r` of `twoRanks`, which sends its token for expert 7 or has none. -/
def sendPhase (r : ℕ) (token : Bool) : List Action :=
  (if token then
    (List.range numTokenWarps).map (fun warp => Action.dispatch r (.stage 0 warp)) ++
      ([.dispatch r (.reserve 0 0), .dispatch r (.send 0 0), .dispatch r (.finish 0 0)] :
        List Action)
  else []) ++
  (List.range 10).map (fun i => Action.dispatch r (.clean i)) ++
  (List.range 10).map (fun i => Action.dispatch r (.tag i)) ++
  (List.range 10).map (fun e => Action.dispatch r (.count e)) ++
  (List.range 10).flatMap (fun e =>
    ([.dispatch r (.poll e), .dispatch r (.signal e), .dispatch r (.resetCounter e),
      .dispatch r (.resetFinish e), .dispatch r (.resetCount e)] : List Action)) ++
  ([.dispatch r .gridSync] : List Action)

/-- The RECV phase of rank `r`, up to the copies: group 2 of rank 1 gets the token. -/
def recvPhase (r : ℕ) : List Action :=
  (List.range 10).flatMap fun e =>
    [.dispatch r (.acquire e (if r = 1 ∧ e = 2 then -2 else -1)), .dispatch r (.claim e),
      .dispatch r (.publish e)]

/-- A whole `dispatch` of both ranks, with everything sent before anything is delivered. -/
def wholeDispatch : List Action :=
  sendPhase 0 true ++ sendPhase 1 false ++ List.replicate 6 (Action.deliver 0 1) ++
    List.replicate 5 (Action.deliver 1 0) ++ recvPhase 0 ++ recvPhase 1 ++
    ([.dispatch 1 (.copyRow 2 0)] : List Action)

/-- The SEND phase of `combine` on rank `r` of `twoRanks`: rank 1 sends the row of the token. -/
def combineSend (r : ℕ) : List Combine.Action :=
  (List.range 10).map Combine.Action.clean ++ ([.publish] : List Combine.Action) ++
    (if r = 1 then ([.stageRow 2 0, .sendRow 2 0] : List Combine.Action) else []) ++
    (List.range 10).flatMap fun e => ([.open e, .signal e, .drop e] : List Combine.Action)

/-- The RECV phase, up to the barrier. -/
def combineRecv : List Combine.Action :=
  (List.range 10).map (fun e => Combine.Action.acquire e 1) ++ ([.gridSync] : List Combine.Action)

/-- The eight warps that reduce the token of rank 0. -/
def reduceToken : List Combine.Action :=
  (List.range 8).flatMap fun warp => ([.accum 0 warp, .store 0 warp] : List Combine.Action)

/-- A `dispatch` of both ranks and its `combine`. -/
def wholeCombine : List Action :=
  wholeDispatch ++ ([.advance 0, .advance 1] : List Action) ++
    (combineSend 0).map (Action.combine 0) ++ (combineSend 1).map (Action.combine 1) ++
    List.replicate 5 (Action.deliver 0 1) ++ List.replicate 6 (Action.deliver 1 0) ++
    combineRecv.map (Action.combine 0) ++ combineRecv.map (Action.combine 1) ++
    reduceToken.map (Action.combine 0)

/-- Both ranks run a `dispatch`, and rank 0 its `combine` too, with everything sent. -/
def aheadByOne : List Action :=
  wholeDispatch ++ ([.advance 0, .advance 1] : List Action) ++
    (combineSend 0).map (Action.combine 0) ++ (combineSend 1).map (Action.combine 1) ++
    List.replicate 5 (Action.deliver 0 1) ++ List.replicate 6 (Action.deliver 1 0) ++
    combineRecv.map (Action.combine 0) ++ reduceToken.map (Action.combine 0)

/-- Then rank 0 sends its token of the third call. -/
def intoThirdCall : List Action :=
  aheadByOne ++ ([.advance 0] : List Action) ++
    (List.range numTokenWarps).map (fun warp => Action.dispatch 0 (.stage 0 warp)) ++
    ([.dispatch 0 (.reserve 0 0), .dispatch 0 (.send 0 0), .deliver 0 1] : List Action)

/-- Rank 0 is in its third call and has yet to clean, its token is with rank 1, and rank 1 has yet
to wait for the signals of the second call. -/
theorem double_buffer_safe_twoRanks :
    let c := twoRanks none (· % 2) fun k => (k + 1) % 2
    let w := c.machine.exec blank intoThirdCall
    (c.enabled w (.dispatch 0 (.clean 0)) ∧ c.enabled w (.combine 1 (.acquire 0 1)) ∧
      w.dataFrom 0 (c.fabric.recvData 0 1 (c.messageOffset 2 0 0)) = some 2) ∧
      c.CleansConsumed w ∧ c.AcceptsCurrent w ∧ c.WritesAfterReads w := by
  intro c w
  have hrun : c.machine.Legal blank intoThirdCall ∧ c.enabled w (.dispatch 0 (.clean 0)) ∧
      c.enabled w (.combine 1 (.acquire 0 1)) ∧
      w.dataFrom 0 (c.fabric.recvData 0 1 (c.messageOffset 2 0 0)) = some 2 := by decide +kernel
  exact ⟨hrun.2, double_buffer_safe c (twoRanks_valid (by simp) _ _) twoRanks_doubleBuffered w
    (Machine.reachable_exec _ (.init (blank_init _ _ _)) hrun.1)⟩

end EpDemo.System.Config
