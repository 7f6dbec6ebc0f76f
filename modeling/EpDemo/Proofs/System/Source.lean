import EpDemo.Library.Ranges
import EpDemo.Proofs.System.Undisturbed

/-!
# `EpDemo.Proofs.System.Source`: what is sent

A message is read from the send buffer when it lands, which may be long after it was posted. Its
words are staged by then, by all warps of `dispatch` or by one warp of `combine`, and nobody
writes over them: within a call every message has its own row, and a later call on the same
buffer stages nothing while a write is pending (`StagesFree`, `source_of_run`).

The words of a `dispatch` header after the first are staged by no one. They are what the send
buffer holds, which is known in the first call. So everything here is about runs from a given
state `w₀`.
-/

set_option autoImplicit false

namespace EpDemo.Kernel

open EpDemo.Library

/-- Every staging thread belongs to a token warp. -/
theorem Shape.stagingThread_lt {p : Shape} {j thread : ℕ} (h : p.stagingThread j = some thread) :
    thread / 32 < numTokenWarps := by
  have hpos : 0 < numTokenWarps * 32 := by decide
  rw [Nat.div_lt_iff_lt_mul (by decide)]
  unfold stagingThread at h
  generalize (if p.useFp8 = true then 2 else 4) = wordsPerVec at h
  dsimp only at h
  split at h
  · cases h
    exact hpos
  · split at h
    · cases h
    · split at h
      · cases h
        exact Nat.mod_lt _ hpos
      · split at h
        · cases h
          exact Nat.mod_lt _ hpos
        · cases h

/-- The words of one row of the send buffer do not belong to another. -/
theorem Fabric.sendData_ne {f : Fabric} {buf r r' n i j : ℕ} {x y : ℤ} (hi : i < n / 4)
    (hj : j < n / 4) (hne : ¬(r = r' ∧ x = y)) :
    (f.sendData buf r (x * n)).add (4 * i) ≠ (f.sendData buf r' (y * n)).add (4 * j) := by
  intro heq
  simp only [sendData, mxaBuffer, Ptr.add, Ptr.mk.injEq] at heq
  obtain ⟨hr, hoff⟩ := heq
  have hxy := digits_inj (x := x) (y := y) (a := 4 * i) (b := 4 * j) (n := n) (by omega) (by omega)
    (by omega) (by omega) (by omega)
  exact hne ⟨hr, hxy.1⟩

end EpDemo.Kernel

namespace EpDemo.System.Config

open EpDemo.Kernel EpDemo.Library

variable {A : Type} (c : Config A)

/-- Every `combine` copies its rows. -/
def NoZeroCopy : Prop :=
  ∀ m, c.HasCall m → (c.calls m).kind = .combine → ∀ r < c.numRanks,
    ((c.calls m).input r).zeroCopy = false

/-- No row is staged over one that a queued write has yet to read. -/
def StagesFree (w : World A) (a : Action) : Prop :=
  ∀ r, a.staging = some r → ∀ m key, c.Pending w m r (.data key) → m ≠ w.call r →
    (c.calls m).buf ≠ (c.calls (w.call r)).buf

/-- Word `j` of a message. -/
def messageWord (w₀ w : World A) (m r : ℕ) (key : ℕ × ℕ) (j : ℕ) : Word :=
  match (c.calls m).kind with
  | .dispatch =>
    match c.shape.stagingThread j with
    | some _ =>
      if j = 0 then BitVec.ofInt 32 key.1 else ((c.calls m).input r).packed key.1 j
    | none => w₀.send (c.calls m).buf ((c.dataSrc w m r key).add (4 * j))
  | .combine => ((c.calls m).input r).x (c.combineRow w m r key) j

/-- The word is staged, or it is one that stays as it was before the first call. -/
def Defined (m j : ℕ) : Prop :=
  (c.calls m).kind = .dispatch → c.shape.stagingThread j = none → m = 0

/-- The word of a message is in the send buffer. -/
def Staged (w : World A) (m r : ℕ) (key : ℕ × ℕ) (j : ℕ) : Prop :=
  match (c.calls m).kind with
  | .dispatch =>
    match c.shape.stagingThread j with
    | some thread => (w.disp (r, m)).token (key.1, thread / 32) ≠ .idle
    | none => m = 0
  | .combine => (w.comb (r, m)).row key ≠ .idle ∧ (c.combineLaunch w r m).staged key.1 = true

/-- What was staged for a message stays in the send buffer while the call lasts, and afterwards
until the message has landed. -/
def Source (w₀ w : World A) : Prop :=
  ∀ r < c.numRanks, ∀ m key, m = w.call r ∨ c.Pending w m r (.data key) →
    ∀ j < c.dataBytes m / 4, c.Staged w m r key j →
      w.send (c.calls m).buf ((c.dataSrc w m r key).add (4 * j)) = c.messageWord w₀ w m r key j

section

variable {c} {w₀ w : World A} {a : Action}

/-! ### What a step does -/

/-- The row of a message of `combine` does not change any more. -/
theorem combineRow_fire (hv : c.Sound) (hl : c.Launches w) (a : Action) {m r : ℕ}
    (hr : r < c.numRanks) (hle : m ≤ w.call r) (hkind : (c.calls m).kind = .combine)
    (key : ℕ × ℕ) : c.combineRow (c.fire w a) m r key = c.combineRow w m r key := by
  simp only [combineRow, combineLaunch_fire hv a hr ((hl.hasCall r hr).of_le hle) hle hkind]

/-- Where a message is read from does not change. -/
theorem dataSrc_fire (hv : c.Sound) (hl : c.Launches w) (a : Action) {m r : ℕ}
    (hr : r < c.numRanks) (hle : m ≤ w.call r) (key : ℕ × ℕ) :
    c.dataSrc (c.fire w a) m r key = c.dataSrc w m r key := by
  unfold dataSrc
  cases hkind : (c.calls m).kind with
  | dispatch => rfl
  | combine => simp only [combineRow_fire hv hl a hr hle hkind]

/-- Nor does what it is to hold. -/
theorem messageWord_fire (hv : c.Sound) (hl : c.Launches w) (a : Action) {m r : ℕ}
    (hr : r < c.numRanks) (hle : m ≤ w.call r) (key : ℕ × ℕ) (j : ℕ) :
    c.messageWord w₀ (c.fire w a) m r key j = c.messageWord w₀ w m r key j := by
  unfold messageWord
  cases hkind : (c.calls m).kind with
  | dispatch => simp only [dataSrc_fire hv hl a hr hle]
  | combine => simp only [combineRow_fire hv hl a hr hle hkind]

/-- What is pending after a step was pending before, or its call is running. -/
theorem Queues.pending_of_fire (hv : c.Sound) (hl : c.Launches w) (hq : c.Queues w)
    (hen : c.enabled w a) {m r : ℕ} {q : Request} (hp : c.Pending (c.fire w a) m r q) :
    c.Pending w m r q ∨ m = w.call r := by
  cases (sent_fire hen m r q).mp ((hq.fire hv hl hen).sent_of_pending hp) with
  | inl hsent =>
    left
    by_contra hnot
    exact ((hq.landed_fire hv hl hen m r q).mpr (.inl ⟨hsent, hnot⟩)).2 hp
  | inr hreq => exact .inr hreq.2

/-- Only staging writes to the send buffers. -/
theorem send_fire_of_not_staging (hstage : a.staging = none) : (c.fire w a).send = w.send := by
  cases a with
  | dispatch r a =>
    cases a with
    | stage t warp => cases hstage
    | send t warp => simp only [fire, dispatchEffect, transfer_eq]
    | signal e => simp only [fire, dispatchEffect, signal_eq]
    | _ => rfl
  | combine r a =>
    cases a with
    | stageRow e k => cases hstage
    | sendRow e k => simp only [fire, combineEffect, transfer_eq]
    | signal e => simp only [fire, combineEffect, signal_eq]
    | _ => rfl
  | deliver r ctx =>
    cases hq : w.nic (r, ctx) with
    | nil => simp only [fire, hq]
    | cons x rest =>
      rw [fire_deliver_cons hq]
      cases x <;> rfl
  | advance r => rfl

/-- Only staging makes a word staged. -/
theorem staged_of_fire (hv : c.Sound) (hl : c.Launches w) (hen : c.enabled w a) {m r : ℕ}
    {key : ℕ × ℕ} {j : ℕ} (hr : r < c.numRanks) (hle : m ≤ w.call r)
    (hstage : m = w.call r → a.staging ≠ some r) (hst : c.Staged (c.fire w a) m r key j) :
    c.Staged w m r key j := by
  -- Without a staging step of this rank, only what was staged is staged.
  unfold Staged at hst ⊢
  cases hkind : (c.calls m).kind with
  | dispatch =>
    simp only [hkind] at hst ⊢
    cases hthread : c.shape.stagingThread j with
    | none => simpa only [hthread] using hst
    | some thread =>
      simp only [hthread] at hst ⊢
      -- A step of this kernel may move the warp on, but not out of the idle state.
      by_cases hrun : ∃ b, a = .dispatch r b ∧ m = w.call r
      · obtain ⟨b, rfl, rfl⟩ := hrun
        rw [disp_fire_self] at hst
        exact Dispatch.token_ne_idle_of_fire hen.2.2.1
          (fun t warp hb => hstage rfl (by rw [hb]; rfl)) hst
      · rwa [(disp_pc_fire a fun b hb hm => hrun ⟨b, hb, hm⟩).1] at hst
  | combine =>
    simp only [hkind] at hst ⊢
    rw [combineLaunch_fire hv a hr ((hl.hasCall r hr).of_le hle) hle hkind] at hst
    refine ⟨?_, hst.2⟩
    by_cases hrun : ∃ b, a = .combine r b ∧ m = w.call r
    · obtain ⟨b, rfl, rfl⟩ := hrun
      have hrow := hst.1
      rw [comb_fire_self] at hrow
      exact Combine.row_ne_idle_of_fire hen.2.2.1 hst.2
        (fun e k hb => hstage rfl (by rw [hb]; rfl)) hrow
    · rw [(comb_pc_fire a fun b hb hm => hrun ⟨b, hb, hm⟩).1] at hst
      exact hst.1

/-! ### The invariant -/

/-- A word of a row of `dispatch` after its warp has staged the row of a token. -/
theorem send_fire_stage {r t warp j : ℕ} {key : ℕ × ℕ}
    (hkind : (c.calls (w.call r)).kind = .dispatch) (hj : j < c.dataBytes (w.call r) / 4) :
    (c.fire w (.dispatch r (.stage t warp))).send (c.calls (w.call r)).buf
        ((c.dataSrc w (w.call r) r key).add (4 * j)) =
      if key.1 = t ∧ (c.shape.stagingThread j).map (· / 32) = some warp then
        if j = 0 then BitVec.ofInt 32 t else ((c.calls (w.call r)).input r).packed t j
      else w.send (c.calls (w.call r)).buf ((c.dataSrc w (w.call r) r key).add (4 * j)) := by
  simp only [dataBytes, hkind] at hj
  simp only [fire, dispatchEffect, Function.update_self, dataSrc, hkind]
  by_cases ht : key.1 = t
  · rw [ht, wordIndex_eq_some.mpr ⟨hj, rfl⟩]
    simp only [true_and]
  · have hnone :
        wordIndex (c.fabric.sendData (c.calls (w.call r)).buf r (t * c.shape.numBytesPerMsg))
          (c.shape.numBytesPerMsg / 4) ((c.fabric.sendData (c.calls (w.call r)).buf r
          (key.1 * c.shape.numBytesPerMsg)).add (4 * j)) = none := by
      cases hindex : wordIndex _ _ _ with
      | none => rfl
      | some i =>
        obtain ⟨hi, heq⟩ := wordIndex_eq_some.mp hindex
        exact absurd heq (Fabric.sendData_ne hj hi fun h => ht (by exact_mod_cast h.2))
    simp only [hnone, ht, false_and, if_false]

/-- Staging a row of `combine` writes the words of the row. -/
theorem send_stageRow (r e k : ℕ) :
    (c.fire w (.combine r (.stageRow e k))).send (c.calls (w.call r)).buf =
      writeWords (w.send (c.calls (w.call r)).buf) (c.fabric.sendData (c.calls (w.call r)).buf r
        (c.combineRow w (w.call r) r (e, k) * c.shape.numBytesPerSlot))
        (c.shape.numBytesPerSlot / 4)
        (((c.calls (w.call r)).input r).x (c.combineRow w (w.call r) r (e, k))) :=
  Function.update_self ..

/-- A word of a row of `combine` after a row was staged. -/
theorem send_fire_stageRow {r e k j : ℕ} {key : ℕ × ℕ}
    (hkind : (c.calls (w.call r)).kind = .combine) (hj : j < c.dataBytes (w.call r) / 4) :
    (c.fire w (.combine r (.stageRow e k))).send (c.calls (w.call r)).buf
        ((c.dataSrc w (w.call r) r key).add (4 * j)) =
      if c.combineRow w (w.call r) r key = c.combineRow w (w.call r) r (e, k) then
        ((c.calls (w.call r)).input r).x (c.combineRow w (w.call r) r key) j
      else w.send (c.calls (w.call r)).buf ((c.dataSrc w (w.call r) r key).add (4 * j)) := by
  simp only [dataBytes, hkind] at hj
  simp only [dataSrc, hkind]
  rw [send_stageRow]
  by_cases hrow : c.combineRow w (w.call r) r key = c.combineRow w (w.call r) r (e, k)
  · rw [if_pos hrow, hrow]
    exact writeWords_self _ _ _ hj
  · rw [if_neg hrow]
    exact writeWords_of_ne _ _ fun i hi => Fabric.sendData_ne hj hi fun h => hrow h.2

/-- Staging does not touch the send buffers of other ranks, nor those of other calls. -/
theorem send_fire_of_ne {r₀ b : ℕ} {p : Ptr} (hstage : a.staging = some r₀)
    (hne : p.rank ≠ r₀ ∨ b ≠ (c.calls (w.call r₀)).buf) : (c.fire w a).send b p = w.send b p := by
  -- The two staging actions write to the row of their own rank, in the buffer of their call.
  cases a with
  | dispatch r a =>
    cases a with
    | stage t warp =>
      cases hstage
      simp only [fire, dispatchEffect]
      by_cases hb : b = (c.calls (w.call r₀)).buf
      · subst hb
        have hr := hne.resolve_right (not_not_intro rfl)
        rw [Function.update_self, wordIndex_of_rank_ne (show p.rank ≠ _ from hr)]
      · rw [Function.update_of_ne hb]
    | _ => cases hstage
  | combine r a =>
    cases a with
    | stageRow e k =>
      cases hstage
      simp only [fire, combineEffect]
      by_cases hb : b = (c.calls (w.call r₀)).buf
      · subst hb
        have hr := hne.resolve_right (not_not_intro rfl)
        rw [Function.update_self, writeWords, wordIndex_of_rank_ne (show p.rank ≠ _ from hr)]
      · rw [Function.update_of_ne hb]
    | _ => cases hstage
  | deliver r ctx => cases hstage
  | advance r => cases hstage

/-- A rank that stages runs. -/
theorem of_staging {r : ℕ} (hstage : a.staging = some r) :
    (∃ t warp, a = .dispatch r (.stage t warp)) ∨ ∃ e k, a = .combine r (.stageRow e k) := by
  cases a with
  | dispatch r' a =>
    cases a with
    | stage t warp =>
      cases hstage
      exact .inl ⟨t, warp, rfl⟩
    | _ => cases hstage
  | combine r' a =>
    cases a with
    | stageRow e k =>
      cases hstage
      exact .inr ⟨e, k, rfl⟩
    | _ => cases hstage
  | deliver r' ctx => cases hstage
  | advance r' => cases hstage

/-- A launch that has not begun has staged nothing. -/
theorem not_staged_of_fresh {m r : ℕ} {key : ℕ × ℕ} {j : ℕ} (hm : m ≠ 0)
    (hdisp : (w.disp (r, m)).Fresh) (hcomb : (w.comb (r, m)).Fresh) : ¬c.Staged w m r key j := by
  intro hst
  unfold Staged at hst
  cases hkind : (c.calls m).kind with
  | dispatch =>
    simp only [hkind] at hst
    cases hthread : c.shape.stagingThread j with
    | none => exact hm (by simpa only [hthread] using hst)
    | some thread =>
      simp only [hthread] at hst
      exact hst (hdisp.token _)
  | combine =>
    simp only [hkind] at hst
    exact hst.1 (hcomb.row key)

/-- Staging in the call that runs. -/
theorem source_stage (hv : c.Sound) (hl : c.Launches w) (hen : c.enabled w a) {r : ℕ}
    (hstage : a.staging = some r) {key : ℕ × ℕ} {j : ℕ} (hr : r < c.numRanks)
    (hj : j < c.dataBytes (w.call r) / 4)
    (hold : c.Staged w (w.call r) r key j →
      w.send (c.calls (w.call r)).buf ((c.dataSrc w (w.call r) r key).add (4 * j)) =
        c.messageWord w₀ w (w.call r) r key j)
    (hst : c.Staged (c.fire w a) (w.call r) r key j) :
    (c.fire w a).send (c.calls (w.call r)).buf ((c.dataSrc w (w.call r) r key).add (4 * j)) =
      c.messageWord w₀ w (w.call r) r key j := by
  cases of_staging hstage with
  | inl ha =>
    obtain ⟨t, warp, rfl⟩ := ha
    obtain ⟨-, hkind, hen, -⟩ := hen
    rw [send_fire_stage hkind hj]
    split
    · rename_i hword
      obtain ⟨ht, hthread⟩ := hword
      obtain ⟨thread, hthread, -⟩ := Option.map_eq_some_iff.mp hthread
      simp only [messageWord, hkind, hthread, ht]
    · rename_i hword
      refine hold ?_
      -- Another warp or another token.
      simp only [Staged, hkind] at hst ⊢
      cases hthread : c.shape.stagingThread j with
      | none => simpa only [hthread] using hst
      | some thread =>
        simp only [hthread, Option.map_some, Option.some.injEq] at hst hword ⊢
        have hne : (key.1, thread / 32) ≠ (t, warp) := fun heq => hword (Prod.mk.inj heq)
        rw [disp_fire_self] at hst
        simpa only [Dispatch.fire, Function.update_of_ne hne] using hst
  | inr ha =>
    obtain ⟨e, k, rfl⟩ := ha
    obtain ⟨-, hkind, hen, -⟩ := id hen
    rw [send_fire_stageRow hkind hj]
    split
    · simp only [messageWord, hkind]
    · rename_i hrow
      refine hold ?_
      have hne : key ≠ (e, k) := by
        rintro rfl
        exact hrow rfl
      have hlaunch := combineLaunch_fire hv (.combine r (.stageRow e k)) hr (hl.hasCall r hr) le_rfl
        hkind
      simp only [Staged, hkind] at hst ⊢
      rw [comb_fire_self, hlaunch] at hst
      simpa only [Combine.fire, Function.update_of_ne hne] using hst

/-- In runs whose staging steps find their rows free, what was staged stays. -/
theorem source_of_run {C : World A → Action → Prop} (hfree : ∀ w a, C w a → c.StagesFree w a)
    (hv : c.Sound) (hw₀ : c.Init w₀)
    (h : ((c.system.restrict C).startingAt w₀).Reachable w) : c.Source w₀ w := by
  refine h.invariant ?_ ?_
  · -- Only words that no one stages count as staged.
    rintro q rfl r hr m key hcase j hj hst
    have hm : m = 0 := by
      cases hcase with
      | inl hm => rw [hm, hw₀.call]
      | inr hp =>
        obtain ⟨x, hx, -⟩ := hp
        rw [hw₀.nic] at hx
        cases hx
    unfold Staged at hst
    unfold messageWord
    cases hkind : (c.calls m).kind with
    | dispatch =>
      simp only [hkind] at hst
      cases hthread : c.shape.stagingThread j with
      | none => rfl
      | some thread =>
        simp only [hthread] at hst
        exact absurd ((hw₀.disp _).token _) hst
    | combine =>
      simp only [hkind] at hst
      exact absurd ((hw₀.comb _).row _) hst.1
  · rintro q a q' hreach hold ⟨hstep, hen, rfl⟩ r hr m key hcase j hj hst
    have hreach := (hreach.of_startingAt hw₀).of_restrict
    have hl := launches_of_reachable hv hreach
    have hq := queues_of_reachable hv hreach
    replace hst : c.Staged (c.fire q a) m r key j := hst
    replace hcase : m = (c.fire q a).call r ∨ c.Pending (c.fire q a) m r (.data key) := hcase
    show (c.fire q a).send _ ((c.dataSrc (c.fire q a) m r key).add _) =
      c.messageWord w₀ (c.fire q a) m r key j
    by_cases hle : m ≤ q.call r
    · have hbefore : m = q.call r ∨ c.Pending q m r (.data key) := by
        cases hcase with
        | inl hm =>
          have := call_le_fire c q a r
          exact .inl (by omega)
        | inr hp => exact (hq.pending_of_fire hv hl hen hp).symm
      rw [dataSrc_fire hv hl a hr hle, messageWord_fire hv hl a hr hle]
      by_cases hstage : a.staging = some r
      · by_cases hm : m = q.call r
        · subst hm
          exact source_stage hv hl hen hstage hr hj (hold r hr _ key hbefore j hj) hst
        · have hp := hbefore.resolve_left hm
          have hbuf := hfree q a hstep r hstage m key hp hm
          rw [send_fire_of_ne hstage (.inr hbuf)]
          exact hold r hr m key hbefore j hj
            (staged_of_fire hv hl hen hr hle (fun heq => absurd heq hm) hst)
      · have hst := staged_of_fire hv hl hen hr hle (fun _ => hstage) hst
        have hsend : ∀ p : Ptr, p.rank = r → (c.fire q a).send (c.calls m).buf p =
            q.send (c.calls m).buf p := by
          intro p hp
          cases hwho : a.staging with
          | none => rw [send_fire_of_not_staging hwho]
          | some r₀ =>
            refine send_fire_of_ne hwho (.inl ?_)
            rintro rfl
            exact hstage (hp ▸ hwho)
        rw [hsend _ ?_]
        · exact hold r hr m key hbefore j hj hst
        · unfold dataSrc
          cases (c.calls m).kind <;> rfl
    · -- The call starts in this step.
      have hm : q.call r < m := by omega
      obtain ⟨hdisp, hcomb⟩ := hl.future r hr m hm
      obtain ⟨ws, act, hdeq⟩ :=
        disp_fire_of_ne (c := c) (w := q) a (r := r) (m := m) fun _ _ => hm.ne'
      obtain ⟨ws', act', hceq⟩ :=
        comb_fire_of_ne (c := c) (w := q) a (r := r) (m := m) fun _ _ => hm.ne'
      refine absurd hst (not_staged_of_fresh (by omega) ?_ ?_)
      · rw [hdeq]
        exact { hdisp with }
      · rw [hceq]
        exact { hcomb with }

/-! ### What lands -/

/-- A message that was issued belongs to its launch. -/
theorem Launches.task_of_sent (hv : c.Sound) (hl : c.Launches w) {m r : ℕ} {key : ℕ × ℕ}
    (hr : r < c.numRanks) (hsent : c.DataSent w m r key) : c.Task w m r key := by
  have hle : m ≤ w.call r := hl.le_of_sent (q := .data key) hr hsent
  have hcall := (hl.hasCall r hr).of_le hle
  unfold Task
  cases hkind : (c.calls m).kind with
  | dispatch =>
    have hrun := hl.disp r hr m hle hkind
    have hslot := hasSlot_of_sent hkind hsent
    have hdst := (Dispatch.accounting_of_runs (hv.fits hcall hr) hrun).inRange key.1 key.2 hslot
    obtain ⟨ht, hw⟩ := (Dispatch.order_of_runs hrun).tokens key.1 key.2 (by
      intro hidle
      rw [show (w.disp (r, m)).token key = .idle from hidle] at hslot
      cases hslot)
    simp only [dataExpert, hkind]
    exact (Dispatch.mem_tasks_iff ht hw hdst).mpr rfl
  | combine =>
    simp only [DataSent, hkind] at hsent
    exact (Combine.order_of_runs (hl.comb r hr m hle hkind)).rows key.1 key.2 (by
      rw [show (w.comb (r, m)).row key = .sent from hsent]
      decide)

/-- The rows of a message of `dispatch` with a slot are staged by all warps. -/
theorem Launches.staged_of_hasSlot (hl : c.Launches w) {m r : ℕ} {key : ℕ × ℕ}
    {j : ℕ} (hr : r < c.numRanks) (hle : m ≤ w.call r) (hkind : (c.calls m).kind = .dispatch)
    (hslot : ((w.disp (r, m)).token key).hasSlot = true) (hdef : c.Defined m j) :
    c.Staged w m r key j := by
  have hbarrier := (Dispatch.order_of_runs (hl.disp r hr m hle hkind)).barrier key.1 key.2 hslot
  simp only [Staged, hkind]
  cases hthread : c.shape.stagingThread j with
  | none => exact hdef hkind hthread
  | some thread => exact hbarrier _ (Shape.stagingThread_lt hthread)

/-- A message lands with the words that were staged for it. -/
theorem Landing.content_eq (hl : c.Launches w) (hq : c.Queues w)
    (hsrc : c.Source w₀ w) (hen : c.enabled w a) {m r : ℕ} {key : ℕ × ℕ}
    {content : ℕ → Word} (hland : c.Landing w a m r key content)
    (hcopy : (c.calls m).kind = .combine → ((c.calls m).input r).zeroCopy = false) {j : ℕ}
    (hj : j < c.dataBytes m / 4) (hdef : c.Defined m j) :
    content j = c.messageWord w₀ w m r key j := by
  have hr := hland.rank
  -- The message lands at once, or it waited in the queue.
  cases hland.how with
  | inl hstore =>
    -- A store reads the send buffer in dispatch, and the input itself in combine.
    obtain ⟨hreq, rfl, rfl⟩ := hstore
    cases Action.request_data_iff.mp hreq with
    | inl ha =>
      subst ha
      obtain ⟨-, hkind, ⟨-, -, hpc⟩, -⟩ := hen
      have hslot : ((w.disp (r, w.call r)).token key).hasSlot = true := by
        rw [show (w.disp (r, w.call r)).token key = .reserved from hpc]
        rfl
      have hst := hl.staged_of_hasSlot hr le_rfl hkind hslot hdef
      rw [← hsrc r hr _ key (.inl rfl) j hj hst]
      simp only [dataContent, hkind]
    | inr ha =>
      subst ha
      simp only [dataContent, messageWord, hen.2.1]
  | inr hdeliver =>
    -- An element in the queue has kept its words in the send buffer.
    obtain ⟨-, hp, rfl⟩ := hdeliver
    have hsent : c.DataSent w m r key := hq.sent_of_pending hp
    refine hsrc r hr m key (.inr hp) j hj ?_
    cases hkind : (c.calls m).kind with
    | dispatch =>
      exact hl.staged_of_hasSlot hr hland.call_le hkind (hasSlot_of_sent hkind hsent) hdef
    | combine =>
      -- Over RDMA a combine row is staged, unless it is sent from the input.
      have hpath := hq.path_of_pending hp
      simp only [DataSent, hkind] at hsent
      simp only [requestExpert, dataExpert, hkind] at hpath
      have hcopy := hcopy hkind
      simp only [Staged, hkind, hsent]
      refine ⟨by decide, ?_⟩
      show (!(c.fabric.path r (key.1 / c.numLocalExperts) != .rdma) &&
        !((c.calls m).input r).zeroCopy) = true
      rw [hpath, hcopy]
      rfl

end

end EpDemo.System.Config
