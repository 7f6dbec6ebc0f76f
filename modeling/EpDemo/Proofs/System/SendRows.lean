import EpDemo.Proofs.System.Routing

/-!
# `EpDemo.Proofs.System.SendRows`: send rows are free when they are written again

Nothing tells a rank that its network card has read a row of the send buffer. In a call that runs
every row is staged for one message, before it is posted. A row that is left over from an earlier
call on the same buffer has been read: the rank could not have come so far if its message had not
landed (`undisturbed_of_alternates`). So no row is overwritten while a posted write has yet to
read it (`send_rows_free`).
-/

set_option autoImplicit false

namespace EpDemo.System.Config

open EpDemo.Kernel EpDemo.Library

variable {A : Type} {c : Config A} {w : World A} {a : Action}

/-- The row of a send buffer that a step writes to: the buffer, the first byte and the size. -/
def stagingRow (c : Config A) (w : World A) : Action → Option (ℕ × Ptr × ℕ)
  | .dispatch r (.stage t _) =>
    some ((c.calls (w.call r)).buf, c.fabric.sendData (c.calls (w.call r)).buf r
      (t * c.shape.numBytesPerMsg), c.shape.numBytesPerMsg)
  | .combine r (.stageRow e k) =>
    some ((c.calls (w.call r)).buf, c.fabric.sendData (c.calls (w.call r)).buf r
      (c.combineRow w (w.call r) r (e, k) * c.shape.numBytesPerSlot), c.shape.numBytesPerSlot)
  | _ => none

/-- A step changes no more than the words of its row. -/
def StagesRow (c : Config A) (w : World A) : Prop :=
  ∀ a b p, (c.fire w a).send b p ≠ w.send b p →
    ∃ row n, c.stagingRow w a = some (b, row, n) ∧ ∃ j < n / 4, p = row.add (4 * j)

/-- No row that a step writes to is the source of a write that a network card has yet to execute.
-/
def RowsFree (c : Config A) (w : World A) : Prop :=
  ∀ a b row n, c.enabled w a → c.stagingRow w a = some (b, row, n) →
    ∀ q m key src dst bytes, Wqe.write m key b src dst bytes ∈ w.nic q →
      ∀ i < n / 4, ∀ j < bytes / 4, row.add (4 * i) ≠ src.add (4 * j)

/-- Only the words of the staging row change. -/
theorem stagesRow (c : Config A) (w : World A) : c.StagesRow w := by
  intro a b p hne
  -- Only the two staging actions write to the send buffer.
  cases hstage : a.staging with
  | none => exact absurd (congrFun (congrFun (send_fire_of_not_staging hstage) b) p) hne
  | some r =>
    have hb : b = (c.calls (w.call r)).buf := by
      by_contra hb
      exact hne (send_fire_of_ne hstage (.inr hb))
    cases of_staging hstage with
    | inl ha =>
      -- A dispatch warp writes to the row of its token.
      obtain ⟨t, warp, rfl⟩ := ha
      subst hb
      refine ⟨_, _, rfl, ?_⟩
      simp only [fire, dispatchEffect, Function.update_self] at hne
      cases hindex : wordIndex (c.fabric.sendData (c.calls (w.call r)).buf r
          (t * c.shape.numBytesPerMsg)) (c.shape.numBytesPerMsg / 4) p with
      | none =>
        rw [hindex] at hne
        exact absurd rfl hne
      | some j => exact ⟨j, (wordIndex_eq_some.mp hindex).1, (wordIndex_eq_some.mp hindex).2⟩
    | inr ha =>
      -- A combine warp writes to the row of its expert.
      obtain ⟨e, k, rfl⟩ := ha
      subst hb
      refine ⟨_, _, rfl, ?_⟩
      rw [send_stageRow] at hne
      by_contra hno
      exact hne (writeWords_of_ne _ _ fun i hi heq => hno ⟨i, hi, heq⟩)

/-- A `combine` takes the results of a `dispatch` that every rank has run. -/
def TakesDispatch (c : Config A) : Prop :=
  ∀ m, c.HasCall m → (c.calls m).kind = .combine → ∀ r < c.numRanks, ∃ k < m,
    ((c.calls m).input r).source = .call k ∧ (c.calls k).kind = .dispatch

/-- Calls that take turns give each `combine` the results of a `dispatch`. -/
theorem DoubleBuffered.takesDispatch (h : c.DoubleBuffered) : c.TakesDispatch := by
  intro m _ hkind r hr
  obtain ⟨k, hk, hsrc, hdisp, -⟩ := h.latest m hkind r hr
  exact ⟨k, hk, hsrc, hdisp⟩

/-- The write request of a message in the queue of a rank. -/
theorem Queues.pending_of_write (hq : c.Queues w) {q : ℕ × ℕ} {m : ℕ} {key : ℕ × ℕ} {b : ℕ}
    {src dst : Ptr} {bytes : ℕ} (h : Wqe.write m key b src dst bytes ∈ w.nic q) :
    q.1 < c.numRanks ∧ c.Pending w m q.1 (.data key) ∧ b = (c.calls m).buf ∧
      src = c.dataSrc w m q.1 key ∧ bytes = c.dataBytes m := by
  have hwqe : Wqe.write m key b src dst bytes = c.dataWqe w m q.1 key := hq.wqe q.1 q.2 _ h
  obtain ⟨-, -, hbuf, hsrc, -, hbytes⟩ := Wqe.write.inj hwqe
  exact ⟨hq.rank q.1 q.2 _ h, hq.pending_of_mem (x := .write m key b src dst bytes) h, hbuf, hsrc,
    hbytes⟩

/-- Only staging has a row. -/
theorem stagingRow_of_staging_none (hstage : a.staging = none) : c.stagingRow w a = none := by
  cases a with
  | dispatch r a =>
    cases a with
    | stage t warp => cases hstage
    | _ => rfl
  | combine r a =>
    cases a with
    | stageRow e k => cases hstage
    | _ => rfl
  | deliver r ctx => rfl
  | advance r => rfl

/-- The row is in the memory of the rank that stages, and in the buffer of its call. -/
theorem of_stagingRow {b n r : ℕ} {row : Ptr} (hstage : a.staging = some r)
    (hrow : c.stagingRow w a = some (b, row, n)) :
    b = (c.calls (w.call r)).buf ∧ row.rank = r := by
  cases of_staging hstage with
  | inl ha =>
    obtain ⟨t, warp, rfl⟩ := ha
    cases hrow
    exact ⟨rfl, rfl⟩
  | inr ha =>
    obtain ⟨e, k, rfl⟩ := ha
    cases hrow
    exact ⟨rfl, rfl⟩

/-- Every message is read from the memory of its sender. -/
theorem dataSrc_rank (c : Config A) (w : World A) (m r : ℕ) (key : ℕ × ℕ) :
    (c.dataSrc w m r key).rank = r := by
  unfold dataSrc
  cases (c.calls m).kind <;> rfl

/-- Within a call, a row is staged for one message, before that is posted. -/
theorem row_ne_of_sent (htakes : c.TakesDispatch) (hf : c.Facts w) (hen : c.enabled w a)
    {r b n : ℕ} {row : Ptr} {key : ℕ × ℕ} (hr : r < c.numRanks) (hstage : a.staging = some r)
    (hrow : c.stagingRow w a = some (b, row, n)) (hsent : c.DataSent w (w.call r) r key) {i j : ℕ}
    (hi : i < n / 4) (hj : j < c.dataBytes (w.call r) / 4) :
    row.add (4 * i) ≠ (c.dataSrc w (w.call r) r key).add (4 * j) := by
  have hl := hf.launches
  cases of_staging hstage with
  | inl ha =>
    obtain ⟨t, warp, rfl⟩ := ha
    obtain ⟨-, hkind, ⟨-, hwarp, hidle, -⟩, -⟩ := hen
    cases hrow
    -- A token that was sent is staged by all warps.
    have hbarrier := (Dispatch.order_of_runs (hl.disp r hr _ le_rfl hkind)).barrier key.1 key.2
      (hasSlot_of_sent hkind hsent) warp hwarp
    simp only [dataBytes, hkind] at hj
    simp only [dataSrc, hkind]
    refine Fabric.sendData_ne hi hj fun heq => hbarrier ?_
    rw [← show t = key.1 by exact_mod_cast heq.2]
    exact hidle
  | inr ha =>
    obtain ⟨e, k, rfl⟩ := ha
    obtain ⟨-, hkind, ⟨he, hk, -, hidle, -⟩, -⟩ := hen
    cases hrow
    -- Every message has its own row.
    have htask := hl.task_of_sent hf.sound hr hsent
    simp only [Task, hkind] at htask
    obtain ⟨d, hd, hdisp, hsrc⟩ := htakes _ (hl.hasCall r hr) hkind r hr
    simp only [dataBytes, hkind] at hj
    simp only [dataSrc, hkind]
    refine Fabric.sendData_ne hi hj fun heq => ?_
    have hkey : (e, k) = key := combineRow_inj hf hr le_rfl hd hsrc hdisp he hk htask.1 htask.2
      heq.2
    subst hkey
    simp only [DataSent, hkind] at hsent
    rw [show (w.comb (r, w.call r)).row (e, k) = .idle from hidle] at hsent
    cases hsent

/-- In an undisturbed step the staging row is free. -/
theorem rows_free_of_undisturbed (htakes : c.TakesDispatch) (hf : c.Facts w)
    (hund : ∀ a, c.enabled w a → c.Undisturbed w a) : c.RowsFree w := by
  intro a b row n hen hrow q m key src dst bytes hmem i hi j hj
  have hq := hf.queues
  obtain ⟨hr, hp, hbuf, rfl, rfl⟩ := hq.pending_of_write hmem
  cases hstage : a.staging with
  | none =>
    rw [stagingRow_of_staging_none hstage] at hrow
    cases hrow
  | some r =>
    obtain ⟨hb, hrank⟩ := of_stagingRow hstage hrow
    by_cases hqr : q.1 = r
    · rw [hqr] at hp hr ⊢
      -- What is pending in the same buffer belongs to the call that runs.
      have hm : m = w.call r := by
        by_contra hother
        exact (hund a hen).staging r hstage m key hp hother (hbuf.symm.trans hb)
      subst hm
      exact row_ne_of_sent htakes hf hen hr hstage hrow (hq.sent_of_pending hp) hi hj
    · -- The rows of other ranks are in other memories.
      intro heq
      have hranks := congrArg Ptr.rank heq
      rw [show (row.add (4 * i)).rank = r from hrank] at hranks
      exact hqr (hranks.trans (c.dataSrc_rank w m q.1 key)).symm

/-- Send rows may be used again without waiting for completions: in every run of every sequence of
calls on alternating buffers, no step writes to a row that a posted write has yet to read. -/
theorem send_rows_free (c : Config A) (hv : c.Valid) (hdb : c.DoubleBuffered) (w : World A)
    (hw : c.system.Reachable w) : c.RowsFree w ∧ c.StagesRow w := by
  have halt := hdb.alternates
  have hf := facts_of_separate hv (separate_of_alternates hv halt hw)
  exact ⟨rows_free_of_undisturbed hdb.takesDispatch hf fun a hen =>
    undisturbed_of_alternates hv halt hw hen, c.stagesRow w⟩

/-- The ranks of `twoRanks`, where rank 0 has two tokens. -/
def tokenPair : Config ℕ :=
  let c := twoRanks none (· % 2) fun k => (k + 1) % 2
  { c with
    numMaxDispatchTokensPerRank := 2
    calls := fun k =>
      { c.calls k with
        input := fun r =>
          { (c.calls k).input r with numTokens := if r = 0 then 2 else 0 } } }

/-- The inputs with two tokens pass all checks. -/
theorem tokenPair_valid : tokenPair.Valid where
  hasCall := by simp [HasCall, tokenPair, twoRanks]
  numRanks_pos := (by decide : 0 < 2)
  numExperts_pos := (by decide : 0 < 10)
  dvd := (by decide : 2 ∣ 10)
  numExperts_lt := (by decide : 10 < 2 ^ 31)
  rows_lt := (by decide : 10 * 2 < 2 ^ 31)
  mapped _ _ := ⟨rfl, rfl⟩
  input m _ r hr := by
    have hlt : (if r = 0 then 2 else 0) ≤ 2 := by split <;> decide
    refine ⟨hlt, (by decide : 1 ≤ kNumMaxTopK), ?_, ?_, ?_, rfl, ?_⟩
    · exact (Nat.mul_le_mul_right 1 hlt).trans_lt (by decide)
    · exact fun _ _ => (by decide : toInt32 7 < 10)
    · intro t _ i hi j hj _ _
      rw [Nat.lt_one_iff.mp hi, Nat.lt_one_iff.mp hj]
    · have hv := @twoRanks_valid none (by simp) (· % 2) fun k => (k + 1) % 2
      exact (hv.input m (by simp [HasCall, twoRanks]) r hr).source

/-- Their buffers take turns. -/
theorem tokenPair_doubleBuffered : tokenPair.DoubleBuffered :=
  ⟨rfl, fun _ => rfl, fun _ => rfl, twoRanks_doubleBuffered.latest⟩

/-- Rank 0 has posted the write of its first token, and has yet to stage the second. -/
theorem send_rows_free_tokenPair :
    let w := tokenPair.machine.exec blank
      ((List.range numTokenWarps).map (fun warp => .dispatch 0 (.stage 0 warp)) ++
        [.dispatch 0 (.reserve 0 0), .dispatch 0 (.send 0 0)])
    (w.nic (0, 1) ≠ [] ∧ tokenPair.enabled w (.dispatch 0 (.stage 1 0))) ∧
      tokenPair.RowsFree w ∧ tokenPair.StagesRow w := by
  intro w
  have hrun : tokenPair.machine.Legal blank
        ((List.range numTokenWarps).map (fun warp => .dispatch 0 (.stage 0 warp)) ++
          [.dispatch 0 (.reserve 0 0), .dispatch 0 (.send 0 0)]) ∧
      w.nic (0, 1) ≠ [] ∧ tokenPair.enabled w (.dispatch 0 (.stage 1 0)) := by decide +kernel
  exact ⟨hrun.2, send_rows_free tokenPair tokenPair_valid tokenPair_doubleBuffered w
    (Machine.reachable_exec _ (.init (init_blank rfl)) hrun.1)⟩

end EpDemo.System.Config
