import EpDemo.Proofs.Kernel.DispatchSend
import Mathlib.Algebra.Order.BigOperators.Group.Finset

/-!
# `EpDemo.Proofs.Kernel.DispatchRun`: what holds in the runs of one launch of `dispatch`

`runs` are the interleavings of one launch that starts with a zero workspace. Whatever the
signal waits read, and whether or not they time out, in these runs

* the slots handed out for an expert are the numbers below the slot counter, each once
  (`Slots`),
* a warp that has a slot is past the barrier of its token (`Order.barrier`),
* the RECV phase starts when every signal is sent and every counter is back at zero
  (`ws_of_recving`), and
* the row ranges that the receiving groups claim follow each other (`Claims`).
-/

set_option autoImplicit false

namespace EpDemo.Kernel.Dispatch

open EpDemo.Library

/-- A launch starts: nothing has happened, and the workspace is zero. -/
structure State.Starts (s : State) : Prop where
  fresh : s.Fresh
  ws : ∀ i, s.ws i = 0

/-- The interleavings of one launch. -/
def runs (l : Launch) : TransitionSystem State Action := (machine l).system State.Starts

section

variable {l : Launch} {s : State} {a : Action}

/-- A slot stays with its warp, and only `reserve` hands one out. -/
theorem hasSlot_fire (ha : enabled l s a) {x : ℕ × ℕ} (hne : a ≠ .reserve x.1 x.2) :
    ((fire l s a).token x).hasSlot = (s.token x).hasSlot ∧ (fire l s a).slot x = s.slot x := by
  -- No step but `reserve` changes whether a send has a slot.
  cases a with
  | stage t w =>
    refine ⟨?_, rfl⟩
    by_cases hx : x = (t, w)
    · simp only [fire, hx, Function.update_self, ha.2.2.1]
      rfl
    · simp only [fire, Function.update_of_ne hx]
  | reserve t w =>
    have hx : x ≠ (t, w) := by
      rintro rfl
      exact hne rfl
    simp only [fire, Function.update_of_ne hx, and_self]
  | send t w =>
    refine ⟨?_, rfl⟩
    by_cases hx : x = (t, w)
    · simp only [fire, hx, Function.update_self, ha.2.2]
      rfl
    · simp only [fire, Function.update_of_ne hx]
  | finish t w =>
    refine ⟨?_, rfl⟩
    by_cases hx : x = (t, w)
    · simp only [fire, hx, Function.update_self, ha.2.2]
      rfl
    · simp only [fire, Function.update_of_ne hx]
  | _ => exact ⟨rfl, rfl⟩

/-- A warp keeps its slot. -/
theorem hasSlot_mono (ha : enabled l s a) {x : ℕ × ℕ} (hx : (s.token x).hasSlot = true) :
    ((fire l s a).token x).hasSlot = true ∧ (fire l s a).slot x = s.slot x := by
  have hne : a ≠ .reserve x.1 x.2 := by
    rintro rfl
    rw [show s.token x = .staged from ha.2.2.1] at hx
    exact absurd hx (by decide)
  obtain ⟨hslot, hsame⟩ := hasSlot_fire ha hne
  exact ⟨hslot.trans hx, hsame⟩

/-- Only `send` sends, and what is sent stays sent. -/
theorem isSent_fire (ha : enabled l s a) (x : ℕ × ℕ) :
    ((fire l s a).token x).isSent = true ↔ (s.token x).isSent = true ∨ a = .send x.1 x.2 := by
  cases a with
  | stage t w =>
    by_cases hx : x = (t, w)
    · simp [fire, hx, ha.2.2.1, TokenPc.isSent]
    · simp [fire, Function.update_of_ne hx]
  | reserve t w =>
    by_cases hx : x = (t, w)
    · simp [fire, hx, ha.2.2.1, TokenPc.isSent]
    · simp [fire, Function.update_of_ne hx]
  | send t w =>
    by_cases hx : x = (t, w)
    · simp [fire, hx, TokenPc.isSent]
    · have hne : ¬(t = x.1 ∧ w = x.2) := fun h => hx (Prod.ext h.1.symm h.2.symm)
      simp [fire, Function.update_of_ne hx, hne]
  | finish t w =>
    by_cases hx : x = (t, w)
    · simp [fire, hx, ha.2.2, TokenPc.isSent]
    · simp [fire, Function.update_of_ne hx]
  | _ => simp [fire]

/-- Only `signal` signals, and what is signalled stays so. -/
theorem signal_isSent_fire (ha : enabled l s a) (e : ℕ) :
    ((fire l s a).signal e).isSent = true ↔ (s.signal e).isSent = true ∨ a = .signal e := by
  have key : ∀ (i : ℕ) (pc : SignalPc), pc.isSent = (s.signal i).isSent →
      ((Function.update s.signal i pc e).isSent = true ↔ (s.signal e).isSent = true) := by
    intro i pc hpc
    by_cases he : e = i
    · rw [he, Function.update_self, hpc]
    · rw [Function.update_of_ne he]
  cases a with
  | poll i => simpa [fire] using key i .polled (by rw [ha.2.1]; rfl)
  | signal i =>
    by_cases he : e = i
    · simp [fire, he, SignalPc.isSent]
    · simp [fire, Function.update_of_ne he, Ne.symm he]
  | resetCounter i => simpa [fire] using key i .counterReset (by rw [ha.2]; rfl)
  | resetFinish i => simpa [fire] using key i .finishReset (by rw [ha.2]; rfl)
  | resetCount i => simpa [fire] using key i .done (by rw [ha.2]; rfl)
  | _ => simp [fire]

/-- Only `clean` cleans, and what is clean stays so. -/
theorem cleaned_fire (i : ℕ) :
    (fire l s a).cleaned i = true ↔ s.cleaned i = true ∨ a = .clean i := by
  cases a with
  | clean j =>
    by_cases hi : i = j
    · simp [fire, hi]
    · simp [fire, Function.update_of_ne hi, Ne.symm hi]
  | _ => simp [fire]

/-! ### The SEND phase -/

/-- The counters hold what they should in every run. -/
theorem accounting_of_runs (hfit : Fits l) (h : (runs l).Reachable s) : Accounting l s := by
  refine h.invariant (fun q hq => .fresh hq.fresh hq.ws) ?_
  rintro q b q' - hacc ⟨hen, rfl⟩
  exact hacc.fire hfit hen

/-- Slots are numbers below the slot counter, and no two warps have the same. -/
structure Slots (l : Launch) (s : State) : Prop where
  nonneg : ∀ e, ∀ x ∈ l.tasks e, (s.token x).hasSlot = true → 0 ≤ s.slot x
  lt : ∀ e, ∀ x ∈ l.tasks e, (s.token x).hasSlot = true →
    s.slot x < taskCount l TokenPc.hasSlot s.token e
  injOn : ∀ e, ∀ x ∈ l.tasks e, ∀ y ∈ l.tasks e, (s.token x).hasSlot = true →
    (s.token y).hasSlot = true → s.slot x = s.slot y → x = y

/-- Handing out a slot keeps the numbering. -/
theorem Slots.reserve (hfit : Fits l) (hacc : Accounting l s) (h : Slots l s) {t w : ℕ}
    (ha : enabled l s (.reserve t w)) : Slots l (fire l s (.reserve t w)) := by
  obtain ⟨ht, hw, hpc, hdst, -⟩ := id ha
  have he₀ := hfit.dst_lt ht hdst
  have hmem := (mem_tasks_iff ht hw hdst).mpr rfl
  have hwait := hacc.waiting_of_not_finished he₀ hmem (by rw [hpc]; decide)
  have hcount : ∀ e, (t, w) ∉ l.tasks e →
      taskCount l TokenPc.hasSlot (fire l s (.reserve t w)).token e =
        taskCount l TokenPc.hasSlot s.token e := fun e hx => taskCount_update_of_notMem hx
  have hsucc : taskCount l TokenPc.hasSlot (fire l s (.reserve t w)).token
      (l.dstExpertIdx t w).toNat =
        taskCount l TokenPc.hasSlot s.token (l.dstExpertIdx t w).toNat + 1 :=
    taskCount_update_succ hmem (by rw [hpc]; rfl) rfl
  -- The new slot is the number of slots handed out before.
  have hslot : (fire l s (.reserve t w)).slot (t, w) =
      taskCount l TokenPc.hasSlot s.token (l.dstExpertIdx t w).toNat := by
    simp only [fire, Function.update_self]
    rw [hacc.counter _ he₀ (by rw [hwait]; rfl)]
    exact toInt32_natCast ((taskCount_le ..).trans_lt (hfit.card_tasks_lt _))
  have hexpert : ∀ e, (t, w) ∈ l.tasks e → e = (l.dstExpertIdx t w).toNat := fun e hx =>
    (mem_tasks_iff ht hw hdst).mp hx
  have hold : ∀ x, x ≠ (t, w) → ((fire l s (.reserve t w)).token x).hasSlot = (s.token x).hasSlot ∧
      (fire l s (.reserve t w)).slot x = s.slot x := fun x hx =>
    hasSlot_fire ha fun heq => hx (by cases heq; rfl)
  have hle : ∀ e, taskCount l TokenPc.hasSlot s.token e ≤
      taskCount l TokenPc.hasSlot (fire l s (.reserve t w)).token e := by
    intro e
    by_cases hx : (t, w) ∈ l.tasks e
    · rw [hexpert e hx, hsucc]
      exact Nat.le_succ _
    · exact (hcount e hx).ge
  refine ⟨?_, ?_, ?_⟩
  · intro e x hx hs
    by_cases hxe : x = (t, w)
    · rw [hxe, hslot]
      exact Int.natCast_nonneg _
    · rw [(hold x hxe).1] at hs
      rw [(hold x hxe).2]
      exact h.nonneg e x hx hs
  · intro e x hx hs
    by_cases hxe : x = (t, w)
    · subst hxe
      rw [hexpert e hx, hslot, hsucc]
      omega
    · rw [(hold x hxe).1] at hs
      rw [(hold x hxe).2]
      have hlt := h.lt e x hx hs
      have := hle e
      omega
  · -- A slot that was handed out before is below the new one.
    have hfresh : ∀ e, ∀ x ∈ l.tasks e, x ≠ (t, w) → (t, w) ∈ l.tasks e →
        ((fire l s (.reserve t w)).token x).hasSlot = true →
        (fire l s (.reserve t w)).slot x < (fire l s (.reserve t w)).slot (t, w) := by
      intro e x hx hne htw hs
      rw [(hold x hne).1] at hs
      rw [(hold x hne).2, hslot, ← hexpert e htw]
      exact h.lt e x hx hs
    intro e x hx y hy hsx hsy heq
    by_cases hxe : x = (t, w)
    · by_cases hye : y = (t, w)
      · rw [hxe, hye]
      · have hlt := hfresh e y hy hye (hxe ▸ hx) hsy
        rw [hxe] at heq
        omega
    · by_cases hye : y = (t, w)
      · have hlt := hfresh e x hx hxe (hye ▸ hy) hsx
        rw [hye] at heq
        omega
      · rw [(hold x hxe).1] at hsx
        rw [(hold y hye).1] at hsy
        rw [(hold x hxe).2, (hold y hye).2] at heq
        exact h.injOn e x hx y hy hsx hsy heq

/-- Every step keeps the slots of an expert apart. Only a reservation hands one out. -/
theorem Slots.fire (hfit : Fits l) (hacc : Accounting l s) (h : Slots l s) (ha : enabled l s a) :
    Slots l (Dispatch.fire l s a) := by
  -- Only a reservation hands out a slot.
  by_cases hres : ∃ t w, a = .reserve t w
  · obtain ⟨t, w, rfl⟩ := hres
    exact h.reserve hfit hacc ha
  · -- For all other steps nothing has changed.
    have hold : ∀ x, ((Dispatch.fire l s a).token x).hasSlot = (s.token x).hasSlot ∧
        (Dispatch.fire l s a).slot x = s.slot x := fun x =>
      hasSlot_fire ha fun heq => hres ⟨x.1, x.2, heq⟩
    have hcount : ∀ e, taskCount l TokenPc.hasSlot (Dispatch.fire l s a).token e =
        taskCount l TokenPc.hasSlot s.token e := fun e => by
      simp only [taskCount, (hold _).1]
    constructor
    · intro e x hx hs
      rw [(hold x).1] at hs
      rw [(hold x).2]
      exact h.nonneg e x hx hs
    · intro e x hx hs
      rw [(hold x).1] at hs
      rw [(hold x).2, hcount]
      exact h.lt e x hx hs
    · intro e x hx y hy hsx hsy heq
      rw [(hold x).1] at hsx
      rw [(hold y).1] at hsy
      rw [(hold x).2, (hold y).2] at heq
      exact h.injOn e x hx y hy hsx hsy heq

/-- The slots are numbered in every run. -/
theorem slots_of_runs (hfit : Fits l) (h : (runs l).Reachable s) : Slots l s := by
  refine h.invariant ?_ ?_
  · intro q hq
    have hnone : ∀ x, (q.token x).hasSlot = false := fun x => by rw [hq.fresh.token]; rfl
    constructor <;> simp [hnone]
  · rintro q b q' hq hslots ⟨hen, rfl⟩
    exact hslots.fire hfit (accounting_of_runs hfit hq) hen

/-- When every send to `e` has a slot, the slots are the numbers below their count. -/
theorem Slots.exists_slot (h : Slots l s) {e : ℕ}
    (hall : ∀ x ∈ l.tasks e, (s.token x).hasSlot = true)
    {i : ℕ} (hi : i < (l.tasks e).card) : ∃ x ∈ l.tasks e, s.slot x = i := by
  have hcount : taskCount l TokenPc.hasSlot s.token e = (l.tasks e).card := by
    rw [taskCount, Finset.filter_true_of_mem hall]
  have hsurj := Finset.surj_on_of_inj_on_of_card_le (s := l.tasks e)
    (t := Finset.range (l.tasks e).card) (fun x _ => (s.slot x).toNat) ?_ ?_ (by simp)
    i (Finset.mem_range.mpr hi)
  · obtain ⟨x, hx, hslot⟩ := hsurj
    have hnonneg := h.nonneg e x hx (hall x hx)
    exact ⟨x, hx, by omega⟩
  · intro x hx
    have hlt := h.lt e x hx (hall x hx)
    have hnonneg := h.nonneg e x hx (hall x hx)
    rw [hcount] at hlt
    exact Finset.mem_range.mpr (by omega)
  · intro x y hx hy heq
    have hnonneg := h.nonneg e x hx (hall x hx)
    have hnonneg' := h.nonneg e y hy (hall y hy)
    exact h.injOn e x hx y hy (hall x hx) (hall y hy) (by omega)

/-! ### The barriers -/

/-- The group has the count for its expert and source. -/
def RecvPc.hasCount : RecvPc → Bool
  | .got | .claimed | .ready => true
  | _ => false

/-- The group has claimed its rows. -/
def RecvPc.isClaimed : RecvPc → Bool
  | .claimed | .ready => true
  | _ => false

/-- Rows are claimed for a count. -/
theorem RecvPc.hasCount_of_isClaimed {pc : RecvPc} (h : pc.isClaimed = true) :
    pc.hasCount = true := by
  cases pc with
  | claimed => rfl
  | ready => rfl
  | _ => cases h

/-- What the barriers order. -/
structure Order (l : Launch) (s : State) : Prop where
  tokens : ∀ t w, s.token (t, w) ≠ .idle → t < l.numTokens ∧ w < numTokenWarps
  barrier : ∀ t w, (s.token (t, w)).hasSlot = true → s.BarrierPassed t
  signals : s.recving = true → ∀ e < l.numExperts, s.signal e = .done
  waits : s.recving = false → ∀ e, s.recv e = .waiting
  reset : s.recving = false → ∀ e < l.numExperts, s.signal e = .done →
    e / l.numLocalExperts = 0 → s.packedRecvCount (e % l.numLocalExperts) = 0

/-- A warp that has reached a token stays past its start. -/
theorem token_ne_idle_mono {x : ℕ × ℕ} (hx : s.token x ≠ .idle) : (fire l s a).token x ≠ .idle := by
  have key : ∀ (p : ℕ × ℕ) (pc : TokenPc), pc ≠ .idle → Function.update s.token p pc x ≠ .idle := by
    intro p pc hpc
    by_cases hxp : x = p
    · rwa [hxp, Function.update_self]
    · rwa [Function.update_of_ne hxp]
  cases a with
  | stage t w => exact key _ _ (by decide)
  | reserve t w => exact key _ _ (by decide)
  | send t w => exact key _ _ (by decide)
  | finish t w => exact key _ _ (by decide)
  | _ => exact hx

/-- Only `stage` brings a warp to a token. -/
theorem token_ne_idle_of_fire (ha : enabled l s a) (hstage : ∀ t w, a ≠ .stage t w) {x : ℕ × ℕ}
    (hx : (fire l s a).token x ≠ .idle) : s.token x ≠ .idle := by
  have key : ∀ (p : ℕ × ℕ) (pc : TokenPc), s.token p ≠ .idle →
      Function.update s.token p pc x ≠ .idle → s.token x ≠ .idle := by
    intro p pc hp hx
    by_cases hxp : x = p
    · rwa [hxp]
    · rwa [Function.update_of_ne hxp] at hx
  cases a with
  | stage t w => exact absurd rfl (hstage t w)
  | reserve t w => exact key _ _ (by rw [ha.2.2.1]; decide) hx
  | send t w => exact key _ _ (by rw [ha.2.2]; decide) hx
  | finish t w => exact key _ _ (by rw [ha.2.2]; decide) hx
  | _ => exact hx

/-- A done thread does not move. -/
theorem signal_done_mono (ha : enabled l s a) {e : ℕ} (he : s.signal e = .done) :
    (fire l s a).signal e = .done := by
  have key : ∀ (i : ℕ) (pc : SignalPc), s.signal i ≠ .done →
      Function.update s.signal i pc e = .done := by
    intro i pc hi
    have hei : e ≠ i := by
      rintro rfl
      exact hi he
    rwa [Function.update_of_ne hei]
  cases a with
  | poll i => exact key i _ (by rw [ha.2.1]; decide)
  | signal i => exact key i _ (by rw [ha.2]; decide)
  | resetCounter i => exact key i _ (by rw [ha.2]; decide)
  | resetFinish i => exact key i _ (by rw [ha.2]; decide)
  | resetCount i => exact key i _ (by rw [ha.2]; decide)
  | _ => exact he

/-- Without timeouts every rank stays active. -/
theorem activeRanks_fire (htime : l.timeoutTicks = -1) (hactive : ∀ q, s.activeRanks q = 1)
    (ha : enabled l s a) (q : ℕ) : (fire l s a).activeRanks q = 1 := by
  cases a with
  | expire e => exact absurd htime ha.2.2
  | _ => exact hactive q

/-- A rank that is not active stays so. -/
theorem inactive_fire {q : ℕ} (h : s.activeRanks q = 0) : (fire l s a).activeRanks q = 0 := by
  cases a with
  | expire e =>
    show Function.update s.activeRanks (e / l.numLocalExperts) 0 q = 0
    by_cases hq : q = e / l.numLocalExperts
    · rw [hq, Function.update_self]
    · rw [Function.update_of_ne hq, h]
  | _ => exact h

/-- Every step keeps the order. -/
theorem Order.fire (h : Order l s) (ha : enabled l s a) : Order l (Dispatch.fire l s a) where
  tokens t w hs := by
    -- A send that has begun is one of the launch, and so is one that begins now.
    have key : ∀ (i j : ℕ) (pc : TokenPc), i < l.numTokens ∧ j < numTokenWarps →
        Function.update s.token (i, j) pc (t, w) ≠ .idle → t < l.numTokens ∧ w < numTokenWarps := by
      intro i j pc hij hs
      by_cases hp : (t, w) = (i, j)
      · cases hp
        exact hij
      · rw [Function.update_of_ne hp] at hs
        exact h.tokens t w hs
    cases a with
    | stage i j => exact key i j _ ⟨ha.1, ha.2.1⟩ hs
    | reserve i j => exact key i j _ ⟨ha.1, ha.2.1⟩ hs
    | send i j => exact key i j _ ⟨ha.1, ha.2.1⟩ hs
    | finish i j => exact key i j _ ⟨ha.1, ha.2.1⟩ hs
    | _ => exact h.tokens t w hs
  barrier t w hs := by
    -- A slot is reserved behind the barrier of the block.
    have hold : s.BarrierPassed t := by
      by_cases hres : a = .reserve t w
      · subst hres
        exact ha.2.2.2.2
      · rw [(hasSlot_fire (x := (t, w)) ha hres).1] at hs
        exact h.barrier t w hs
    exact fun w' hw' => token_ne_idle_mono (hold w' hw')
  signals hrec e he := by
    -- The grid barrier waits for all signals.
    by_cases hsync : a = .gridSync
    · subst hsync
      exact ha.2.2 e he
    · have hrec' : s.recving = true := by
        cases a with
        | gridSync => exact absurd rfl hsync
        | _ => exact hrec
      exact signal_done_mono ha (h.signals hrec' e he)
  waits hrec e := by
    cases a with
    -- A wait ends behind the grid barrier only.
    | gridSync => cases hrec
    | acquire i v => exact absurd (ha.1.symm.trans hrec) (by decide)
    | miss i => exact absurd (ha.1.symm.trans hrec) (by decide)
    | retry i =>
      exact absurd ((h.waits hrec i).symm.trans ha.2.1) (by decide)
    | giveUp i => exact absurd ((h.waits hrec i).symm.trans ha.2.1) (by decide)
    | claim i => exact absurd ((h.waits hrec i).symm.trans ha.2) (by decide)
    | publish i => exact absurd ((h.waits hrec i).symm.trans ha.2) (by decide)
    | _ => exact h.waits hrec e
  reset hrec e he hdone hzero := by
    have hsend : s.recving = false := by
      cases a with
      | gridSync => cases hrec
      | _ => exact hrec
    -- A thread that is not done changes nothing about those that are.
    have hother : ∀ i pc, pc ≠ .done → (Function.update s.signal i pc e = .done) →
        s.packedRecvCount (e % l.numLocalExperts) = 0 := by
      intro i pc hpc hd
      have hei : e ≠ i := by
        rintro rfl
        rw [Function.update_self] at hd
        exact hpc hd
      rw [Function.update_of_ne hei] at hd
      exact h.reset hsend e he hd hzero
    cases a with
    | gridSync => cases hrec
    | poll i => exact hother i _ (by decide) hdone
    | signal i => exact hother i _ (by decide) hdone
    | resetCounter i => exact hother i _ (by decide) hdone
    | resetFinish i => exact hother i _ (by decide) hdone
    | resetCount i =>
      simp only [Dispatch.fire]
      -- The thread of the first rank resets the count of its local expert, and others may share
      -- it.
      by_cases hei : e = i
      · subst hei
        rw [if_pos hzero, Function.update_self]
      · simp only [Dispatch.fire, Function.update_of_ne hei] at hdone
        have hold := h.reset hsend e he hdone hzero
        split
        · by_cases hcell : e % l.numLocalExperts = i % l.numLocalExperts
          · rw [hcell, Function.update_self]
          · rwa [Function.update_of_ne hcell]
        · exact hold
    -- Rows are claimed behind the grid barrier only.
    | claim i => exact absurd ((h.waits hsend i).symm.trans ha.2) (by decide)
    | _ => exact h.reset hsend e he hdone hzero

/-- The barriers hold in every run. -/
theorem order_of_runs (h : (runs l).Reachable s) : Order l s := by
  refine h.invariant ?_ ?_
  · intro q hq
    refine ⟨fun t w hs => absurd (hq.fresh.token _) hs, ?_, ?_,
      fun _ => hq.fresh.recv, ?_⟩
    · intro t w hs
      rw [hq.fresh.token] at hs
      exact absurd hs (by decide)
    · intro hrec
      rw [hq.fresh.recving] at hrec
      cases hrec
    · intro _ e _ hd
      rw [hq.fresh.signal] at hd
      cases hd
  · rintro q b q' - hq ⟨hen, rfl⟩
    exact hq.fire hen

/-- The workspace is zero when the RECV phase starts, and stays so. -/
theorem ws_of_recving (hfit : Fits l) (h : (runs l).Reachable s) (hrec : s.recving = true) (i : ℕ) :
    s.ws i = 0 :=
  (accounting_of_runs hfit h).ws_of_done ((order_of_runs h).signals hrec) i

/-! ### The RECV phase -/

/-- A group that has its count keeps it. -/
theorem hasCount_mono (ha : enabled l s a) {e : ℕ} (h : (s.recv e).hasCount = true) :
    ((fire l s a).recv e).hasCount = true ∧ (fire l s a).numRecv e = s.numRecv e := by
  -- A group that has its count keeps it when it moves on.
  have key : ∀ (i : ℕ) (pc : RecvPc), (s.recv i).hasCount = false ∨ pc.hasCount = true →
      (Function.update s.recv i pc e).hasCount = true := by
    intro i pc hpc
    by_cases hei : e = i
    · subst hei
      rw [Function.update_self]
      exact hpc.resolve_left (by rw [h]; decide)
    · rwa [Function.update_of_ne hei]
  -- The number changes for groups that have none yet.
  have hkeep : ∀ (i : ℕ) (n : ℤ), (s.recv i).hasCount = false →
      Function.update s.numRecv i n e = s.numRecv e := by
    intro i n hi
    have hei : e ≠ i := by
      rintro rfl
      rw [h] at hi
      cases hi
    exact Function.update_of_ne hei ..
  -- Only `acquire` and `giveUp` write a number.
  cases a with
  | acquire i v => exact ⟨key i _ (.inr rfl), hkeep i _ (by rw [ha.2.2.1]; rfl)⟩
  | miss i => exact ⟨key i _ (.inl (by rw [ha.2.2]; rfl)), rfl⟩
  | retry i => exact ⟨key i _ (.inl (by rw [ha.2.1]; rfl)), rfl⟩
  | giveUp i => exact ⟨key i _ (.inr rfl), hkeep i _ (by rw [ha.2.1]; rfl)⟩
  | claim i => exact ⟨key i _ (.inr rfl), rfl⟩
  | publish i => exact ⟨key i _ (.inr rfl), rfl⟩
  | _ => exact ⟨h, rfl⟩

/-- The number of messages that the group for `e` takes, and zero as long as it has no count. -/
def State.decodedCount (s : State) (e : ℕ) : ℕ :=
  if (s.recv e).hasCount = true then (s.numRecv e).toNat else 0

/-- With a count, the number of messages is the one that was decoded. -/
theorem State.decodedCount_of_hasCount {e : ℕ} (h : (s.recv e).hasCount = true) :
    s.decodedCount e = (s.numRecv e).toNat :=
  if_pos h

/-- A count that was decoded stays. -/
theorem decodedCount_fire (ha : enabled l s a) {e : ℕ} (h : (s.recv e).hasCount = true) :
    (fire l s a).decodedCount e = s.decodedCount e := by
  obtain ⟨hcount, hnum⟩ := hasCount_mono ha h
  rw [State.decodedCount_of_hasCount hcount, hnum, State.decodedCount_of_hasCount h]

/-- A group gets its count when it acquires the signal, or gives the source up and takes none. -/
theorem hasCount_cases (ha : enabled l s a) {e : ℕ} (h : ((fire l s a).recv e).hasCount = true) :
    (s.recv e).hasCount = true ∨
      (∃ v, a = .acquire e v ∧ (fire l s a).numRecv e = toInt32 (-v - 1)) ∨
      a = .giveUp e ∧ (fire l s a).numRecv e = 0 := by
  -- A step that leaves the group without a count is not the one.
  have key : ∀ (i : ℕ) (pc : RecvPc), (Function.update s.recv i pc e).hasCount = true →
      pc.hasCount = (s.recv i).hasCount → (s.recv e).hasCount = true := by
    intro i pc hpc hi
    by_cases hei : e = i
    · subst hei
      rw [Function.update_self] at hpc
      exact hi.symm.trans hpc
    · rwa [Function.update_of_ne hei] at hpc
  cases a with
  | acquire i v =>
    by_cases hei : e = i
    · subst hei
      exact .inr (.inl ⟨v, rfl, Function.update_self ..⟩)
    · simp only [fire, Function.update_of_ne hei] at h
      exact .inl h
  | giveUp i =>
    by_cases hei : e = i
    · subst hei
      exact .inr (.inr ⟨rfl, Function.update_self ..⟩)
    · simp only [fire, Function.update_of_ne hei] at h
      exact .inl h
  | miss i => exact .inl (key i _ h (by rw [ha.2.2]; rfl))
  | retry i => exact .inl (key i _ h (by rw [ha.2.1]; rfl))
  | claim i => exact .inl (key i _ h (by rw [ha.2]; rfl))
  | publish i => exact .inl (key i _ h (by rw [ha.2]; rfl))
  | _ => exact .inl h

/-- A group gets its count when it acquires the signal, in a launch without timeouts. -/
theorem recv_hasCount_fire (hactive : ∀ q, s.activeRanks q = 1) (ha : enabled l s a) (e : ℕ) :
    ((fire l s a).recv e).hasCount = true ↔
      (s.recv e).hasCount = true ∨ ∃ v, a = .acquire e v := by
  have key : ∀ (i : ℕ) (pc : RecvPc), pc.hasCount = (s.recv i).hasCount →
      ((Function.update s.recv i pc e).hasCount = true ↔ (s.recv e).hasCount = true) := by
    intro i pc hpc
    by_cases he : e = i
    · rw [he, Function.update_self, hpc]
    · rw [Function.update_of_ne he]
  cases a with
  | acquire i v =>
    by_cases he : e = i
    · simp [fire, he, RecvPc.hasCount]
    · simp [fire, Function.update_of_ne he, Ne.symm he]
  | miss i => simpa [fire] using key i .missed (by rw [ha.2.2]; rfl)
  | retry i => simpa [fire] using key i .waiting (by rw [ha.2.1]; rfl)
  | giveUp i => exact absurd ((hactive _).symm.trans ha.2.2) (by decide)
  | claim i => simpa [fire] using key i .claimed (by rw [ha.2]; rfl)
  | publish i => simpa [fire] using key i .ready (by rw [ha.2]; rfl)
  | _ => simp [fire]

/-- A group that is ready keeps its range. -/
theorem recvBegin_fire (ha : enabled l s a) {e : ℕ} (he : s.recv e = .ready) :
    (fire l s a).recvBegin e = s.recvBegin e := by
  cases a with
  | claim i =>
    have hei : e ≠ i := by
      rintro rfl
      exact absurd (he.symm.trans ha.2) (by decide)
    simp only [fire, Function.update_of_ne hei]
  | _ => rfl

/-- Only `copyRow` copies, and what is copied stays so. -/
theorem copied_fire (x : ℕ × ℕ) :
    (fire l s a).copied x = true ↔ s.copied x = true ∨ a = .copyRow x.1 x.2 := by
  cases a with
  | copyRow e i =>
    by_cases hx : x = (e, i)
    · simp [fire, hx]
    · have hne : ¬(e = x.1 ∧ i = x.2) := fun h => hx (Prod.ext h.1.symm h.2.symm)
      simp [fire, Function.update_of_ne hx, hne]
  | _ => simp [fire]

/-- The rows that groups have claimed for a local expert. -/
def claimedRows (l : Launch) (n : ℕ → ℕ) (recv : ℕ → RecvPc) (le : ℕ) : ℕ :=
  ∑ e ∈ Finset.range l.numExperts with e % l.numLocalExperts = le ∧ (recv e).isClaimed = true, n e

/-- The ranges that the groups have claimed, when group `e` receives `n e` messages. -/
structure Claims (l : Launch) (n : ℕ → ℕ) (s : State) : Prop where
  numRecv : ∀ e, (s.recv e).hasCount = true → s.numRecv e = n e
  total : s.recving = true → ∀ le < l.numLocalExperts,
    s.packedRecvCount le = claimedRows l n s.recv le
  nonneg : ∀ e < l.numExperts, (s.recv e).isClaimed = true → 0 ≤ s.recvBegin e
  le_total : ∀ e < l.numExperts, (s.recv e).isClaimed = true →
    s.recvBegin e + n e ≤ s.packedRecvCount (e % l.numLocalExperts)
  disjoint : ∀ e < l.numExperts, ∀ e' < l.numExperts, (s.recv e).isClaimed = true →
    (s.recv e').isClaimed = true → e % l.numLocalExperts = e' % l.numLocalExperts → e ≠ e' →
    s.recvBegin e + n e ≤ s.recvBegin e' ∨ s.recvBegin e' + n e' ≤ s.recvBegin e
  cover : s.recving = true → ∀ le < l.numLocalExperts, ∀ i, 0 ≤ i → i < s.packedRecvCount le →
    ∃ e < l.numExperts, e % l.numLocalExperts = le ∧ (s.recv e).isClaimed = true ∧
      s.recvBegin e ≤ i ∧ i < s.recvBegin e + n e
  layout : ∀ e < l.numExperts, s.recv e = .ready →
    s.layoutRange (e % l.numLocalExperts * l.numRanks + e / l.numLocalExperts) =
      pack2 (n e) (s.recvBegin e)
  copied : ∀ e i, s.copied (e, i) = true → s.recv e = .ready ∧ i < n e

namespace Claims

variable {n n' : ℕ → ℕ} {s' : State}

/-- Nothing is claimed at the start. -/
theorem fresh (hs : s.Fresh) : Claims l n s := by
  have hwait : ∀ e, s.recv e = .waiting := hs.recv
  have hsend := hs.recving
  constructor <;> simp [hwait, hsend, hs.copied, RecvPc.hasCount, RecvPc.isClaimed]

/-- The invariant speaks about the groups and what they share only, and about a group only
whether it has a count, has claimed and is ready. -/
theorem congr (h : Claims l n s) (hrecving : s'.recving = s.recving)
    (hnum : ∀ e, (s'.recv e).hasCount = true → s'.numRecv e = n e)
    (hclaimed : ∀ e, (s'.recv e).isClaimed = (s.recv e).isClaimed)
    (hready : ∀ e, s'.recv e = .ready ↔ s.recv e = .ready)
    (hbegin : s'.recvBegin = s.recvBegin) (hcount : s'.packedRecvCount = s.packedRecvCount)
    (hlayout : s'.layoutRange = s.layoutRange) (hcopied : s'.copied = s.copied) :
    Claims l n s' := by
  have hrows : claimedRows l n s'.recv = claimedRows l n s.recv := by
    funext le
    simp only [claimedRows, hclaimed]
  constructor
  · exact hnum
  · simpa only [hrecving, hcount, hrows] using h.total
  · simpa only [hclaimed, hbegin] using h.nonneg
  · simpa only [hclaimed, hbegin, hcount] using h.le_total
  · simpa only [hclaimed, hbegin] using h.disjoint
  · simpa only [hrecving, hclaimed, hbegin, hcount] using h.cover
  · simpa only [hready, hbegin, hlayout] using h.layout
  · simpa only [hready, hcopied] using h.copied

/-- Nothing that the invariant speaks about changes. -/
theorem congr_same (h : Claims l n s) (hrecving : s'.recving = s.recving)
    (hrecv : s'.recv = s.recv) (hnum : s'.numRecv = s.numRecv) (hbegin : s'.recvBegin = s.recvBegin)
    (hcount : s'.packedRecvCount = s.packedRecvCount) (hlayout : s'.layoutRange = s.layoutRange)
    (hcopied : s'.copied = s.copied) : Claims l n s' :=
  h.congr hrecving (by simpa only [hrecv, hnum] using h.numRecv) (fun e => by rw [hrecv])
    (fun e => by rw [hrecv]) hbegin hcount hlayout hcopied

/-- Only the counts of the groups that have one matter. -/
theorem congr_count (h : Claims l n s) (heq : ∀ e, (s.recv e).hasCount = true → n e = n' e) :
    Claims l n' s := by
  -- A group that has claimed its rows has its count.
  have hclaimed : ∀ e, (s.recv e).isClaimed = true → n e = n' e :=
    fun e hc => heq e (RecvPc.hasCount_of_isClaimed hc)
  have hready : ∀ e, s.recv e = .ready → n e = n' e := fun e hr => heq e (by rw [hr]; rfl)
  have hrows : ∀ le, claimedRows l n' s.recv le = claimedRows l n s.recv le :=
    fun le => Finset.sum_congr rfl fun e he => (hclaimed e (Finset.mem_filter.mp he).2.2).symm
  constructor
  · intro e hc
    rw [← heq e hc]
    exact h.numRecv e hc
  · intro hrec le hle
    rw [hrows]
    exact h.total hrec le hle
  · exact h.nonneg
  · intro e he hc
    rw [← hclaimed e hc]
    exact h.le_total e he hc
  · intro e he e' he' hc hc'
    rw [← hclaimed e hc, ← hclaimed e' hc']
    exact h.disjoint e he e' he' hc hc'
  · intro hrec le hle i hi hlt
    obtain ⟨e, he, hmod, hc, hlo, hhi⟩ := h.cover hrec le hle i hi hlt
    exact ⟨e, he, hmod, hc, hlo, hclaimed e hc ▸ hhi⟩
  · intro e he hr
    rw [← hready e hr]
    exact h.layout e he hr
  · intro e i hcop
    obtain ⟨hr, hlt⟩ := h.copied e i hcop
    exact ⟨hr, hready e hr ▸ hlt⟩

/-- A group moves on without a claim. -/
theorem move (h : Claims l n s) (e₀ : ℕ) (pc : RecvPc) (hold : (s.recv e₀).isClaimed = false)
    (hclaimed : pc.isClaimed = false)
    (hnum : pc.hasCount = true → s'.numRecv e₀ = n e₀)
    (hsame : ∀ e, e ≠ e₀ → s'.numRecv e = s.numRecv e)
    (hrecving : s'.recving = s.recving) (hrecv : s'.recv = Function.update s.recv e₀ pc)
    (hbegin : s'.recvBegin = s.recvBegin)
    (hcount : s'.packedRecvCount = s.packedRecvCount) (hlayout : s'.layoutRange = s.layoutRange)
    (hcopied : s'.copied = s.copied) : Claims l n s' := by
  -- The group that moves has its count, if it has one now.
  refine h.congr hrecving ?_ ?_ ?_ hbegin hcount hlayout hcopied
  · intro e hc
    rw [hrecv] at hc
    by_cases hee : e = e₀
    · subst hee
      rw [Function.update_self] at hc
      exact hnum hc
    · rw [Function.update_of_ne hee] at hc
      rw [hsame e hee]
      exact h.numRecv e hc
  · -- It has claimed nothing before, and nothing now.
    intro e
    by_cases hee : e = e₀
    · rw [hrecv, hee, Function.update_self, hold, hclaimed]
    · rw [hrecv, Function.update_of_ne hee]
  · intro e
    by_cases hee : e = e₀
    · rw [hrecv, hee, Function.update_self]
      constructor
      · rintro rfl
        exact absurd hclaimed (by decide)
      · intro hr
        rw [hr] at hold
        exact absurd hold (by decide)
    · rw [hrecv, Function.update_of_ne hee]

/-- The RECV phase starts with no rows claimed. -/
theorem gridSync (hE : l.numLocalExperts ≤ l.numExperts) (hord : Order l s) (h : Claims l n s)
    (ha : enabled l s .gridSync) : Claims l n (fire l s .gridSync) := by
  obtain ⟨hsend, -, hdone⟩ := ha
  have hwait := hord.waits hsend
  have hzero : ∀ le < l.numLocalExperts, s.packedRecvCount le = 0 := by
    intro le hle
    have hreset := hord.reset hsend le (hle.trans_le hE) (hdone le (hle.trans_le hE))
      (Nat.div_eq_of_lt hle)
    rwa [Nat.mod_eq_of_lt hle] at hreset
  refine { h with total := fun _ le hle => ?_, cover := fun _ le hle i hi hlt => ?_ }
  · show s.packedRecvCount le = claimedRows l n s.recv le
    rw [hzero le hle, claimedRows, Finset.filter_false_of_mem, Finset.sum_empty]
    · rfl
    · intro e _ hclaimed
      rw [hwait e] at hclaimed
      exact absurd hclaimed.2 (by decide)
  · have hlt' : i < s.packedRecvCount le := hlt
    rw [hzero le hle] at hlt'
    omega

/-- A group claims the rows after those that were claimed before. -/
theorem claim (hL : 0 < l.numLocalExperts)
    (hn : ∀ le < l.numLocalExperts,
      ∑ e ∈ Finset.range l.numExperts with e % l.numLocalExperts = le, n e < 2 ^ 31)
    (hord : Order l s) (h : Claims l n s) {e₀ : ℕ} (ha : enabled l s (.claim e₀)) :
    Claims l n (fire l s (.claim e₀)) := by
  obtain ⟨he₀, hgot⟩ := ha
  have hrec : s.recving = true := by
    by_contra hsend
    rw [hord.waits (by simpa using hsend) e₀] at hgot
    cases hgot
  have hle₀ := Nat.mod_lt e₀ hL
  have hnum := h.numRecv e₀ (by rw [hgot]; rfl)
  have hclaimed : ∀ e, e ≠ e₀ → (Function.update s.recv e₀ .claimed e).isClaimed =
      (s.recv e).isClaimed := fun e hee => by rw [Function.update_of_ne hee]
  have hsum : claimedRows l n (Function.update s.recv e₀ .claimed) (e₀ % l.numLocalExperts) =
      claimedRows l n s.recv (e₀ % l.numLocalExperts) + n e₀ := by
    refine sum_filter_succ n (Finset.mem_range.mpr he₀) ?_ ?_ ?_
    · rw [hgot]
      exact fun hc => absurd hc.2 (by decide)
    · rw [Function.update_self]
      exact ⟨rfl, rfl⟩
    · intro e hee
      rw [hclaimed e hee]
  -- The counter does not wrap, since all messages for the expert are fewer than `2 ^ 31`.
  have hcount : (fire l s (.claim e₀)).packedRecvCount (e₀ % l.numLocalExperts) =
      s.packedRecvCount (e₀ % l.numLocalExperts) + n e₀ := by
    have hle : claimedRows l n (Function.update s.recv e₀ .claimed) (e₀ % l.numLocalExperts) ≤
        ∑ e ∈ Finset.range l.numExperts with e % l.numLocalExperts = e₀ % l.numLocalExperts, n e :=
      Finset.sum_le_sum_of_subset (Finset.monotone_filter_right _ fun e _ he => he.1)
    have hlt := hn _ hle₀
    simp only [fire, atomicAdd_self, hnum, h.total hrec _ hle₀]
    exact toInt32_of_range (by omega) (by omega)
  have hother : ∀ le, le ≠ e₀ % l.numLocalExperts →
      (fire l s (.claim e₀)).packedRecvCount le = s.packedRecvCount le := fun le hle => by
    simp only [fire, atomicAdd_of_ne hle]
  have hmono : ∀ le, s.packedRecvCount le ≤ (fire l s (.claim e₀)).packedRecvCount le := by
    intro le
    by_cases hle : le = e₀ % l.numLocalExperts
    · rw [hle, hcount]
      omega
    · exact (hother le hle).ge
  have hbegin : ∀ e, e ≠ e₀ → (fire l s (.claim e₀)).recvBegin e = s.recvBegin e := fun e hee => by
    simp only [fire, Function.update_of_ne hee]
  have hbegin₀ : (fire l s (.claim e₀)).recvBegin e₀ =
      s.packedRecvCount (e₀ % l.numLocalExperts) := by
    simp only [fire, Function.update_self]
  have hready : ∀ e, (fire l s (.claim e₀)).recv e = .ready → e ≠ e₀ ∧ s.recv e = .ready := by
    intro e hr
    by_cases hee : e = e₀
    · simp only [fire, hee, Function.update_self] at hr
      cases hr
    · simp only [fire, Function.update_of_ne hee] at hr
      exact ⟨hee, hr⟩
  constructor
  · intro e hc
    show s.numRecv e = n e
    by_cases hee : e = e₀
    · rw [hee, hnum]
    · simp only [fire, Function.update_of_ne hee] at hc
      exact h.numRecv e hc
  · intro _ le hle
    show _ = ((claimedRows l n (Function.update s.recv e₀ .claimed) le : ℕ) : ℤ)
    by_cases hlee : le = e₀ % l.numLocalExperts
    · rw [hlee, hcount, hsum, h.total hrec _ hle₀, Nat.cast_add]
    · rw [hother le hlee, h.total hrec le hle]
      congr 1
      refine Finset.sum_congr (Finset.filter_congr fun e _ => ?_) fun _ _ => rfl
      by_cases hee : e = e₀
      · simp only [hee, Ne.symm hlee, false_and]
      · rw [hclaimed e hee]
  · intro e he hc
    by_cases hee : e = e₀
    · rw [hee, hbegin₀, h.total hrec _ hle₀]
      exact Int.natCast_nonneg _
    · rw [hbegin e hee]
      exact h.nonneg e he ((hclaimed e hee) ▸ hc)
  · intro e he hc
    by_cases hee : e = e₀
    · rw [hee, hbegin₀, hcount]
    · rw [hbegin e hee]
      exact (h.le_total e he ((hclaimed e hee) ▸ hc)).trans (hmono _)
  · -- A new range starts where the claimed rows end.
    have hafter : ∀ e < l.numExperts, e ≠ e₀ → (s.recv e).isClaimed = true →
        e % l.numLocalExperts = e₀ % l.numLocalExperts →
        (fire l s (.claim e₀)).recvBegin e + n e ≤ (fire l s (.claim e₀)).recvBegin e₀ := by
      intro e he hee hc hmod
      rw [hbegin e hee, hbegin₀, ← hmod]
      exact h.le_total e he hc
    intro e he e' he' hc hc' hmod hne
    by_cases hee : e = e₀
    · subst hee
      exact .inr (hafter e' he' hne.symm (hclaimed e' hne.symm ▸ hc') hmod.symm)
    · by_cases hee' : e' = e₀
      · subst hee'
        exact .inl (hafter e he hne (hclaimed e hne ▸ hc) hmod)
      · rw [hbegin e hee, hbegin e' hee']
        exact h.disjoint e he e' he' (hclaimed e hee ▸ hc) (hclaimed e' hee' ▸ hc') hmod hne
  · intro _ le hle i hi hlt
    by_cases hold : i < s.packedRecvCount le
    · obtain ⟨e, he, hmod, hc, hlo, hhi⟩ := h.cover hrec le hle i hi hold
      have hee : e ≠ e₀ := by
        rintro rfl
        rw [hgot] at hc
        exact absurd hc (by decide)
      refine ⟨e, he, hmod, (hclaimed e hee).trans hc, ?_, ?_⟩
      · rwa [hbegin e hee]
      · rwa [hbegin e hee]
    · have hlee : le = e₀ % l.numLocalExperts := by
        by_contra hlee
        rw [hother le hlee] at hlt
        exact hold hlt
      rw [hlee] at hlt hold
      rw [hcount] at hlt
      refine ⟨e₀, he₀, hlee.symm, ?_, ?_, ?_⟩
      · simp only [fire, Function.update_self]
        rfl
      · rw [hbegin₀]
        omega
      · rw [hbegin₀]
        omega
  · intro e he hr
    obtain ⟨hee, hr⟩ := hready e hr
    rw [hbegin e hee]
    exact h.layout e he hr
  · intro e i hcop
    obtain ⟨hr, hlt⟩ := h.copied e i hcop
    have hee : e ≠ e₀ := by
      rintro rfl
      rw [hgot] at hr
      cases hr
    exact ⟨by simpa only [fire, Function.update_of_ne hee] using hr, hlt⟩

/-- A group publishes its range. -/
theorem publish (hR : ∀ e < l.numExperts, e / l.numLocalExperts < l.numRanks) (h : Claims l n s)
    {e₀ : ℕ} (ha : enabled l s (.publish e₀)) : Claims l n (fire l s (.publish e₀)) := by
  obtain ⟨he₀, hclaimed₀⟩ := ha
  have hnum := h.numRecv e₀ (by rw [hclaimed₀]; rfl)
  -- Publishing claims no rows and gives none back.
  have hclaimed : ∀ e, ((fire l s (.publish e₀)).recv e).isClaimed = (s.recv e).isClaimed := by
    intro e
    by_cases hee : e = e₀
    · simp only [fire, hee, Function.update_self, hclaimed₀]
      rfl
    · simp only [fire, Function.update_of_ne hee]
  have hrows : claimedRows l n (fire l s (.publish e₀)).recv = claimedRows l n s.recv := by
    funext le
    simp only [claimedRows, hclaimed]
  constructor
  · intro e hc
    by_cases hee : e = e₀
    · rw [hee]
      exact hnum
    · simp only [fire, Function.update_of_ne hee] at hc
      exact h.numRecv e hc
  · intro hrec le hle
    rw [hrows]
    exact h.total hrec le hle
  · exact fun e he hc => h.nonneg e he (hclaimed e ▸ hc)
  · exact fun e he hc => h.le_total e he (hclaimed e ▸ hc)
  · exact fun e he e' he' hc hc' =>
      h.disjoint e he e' he' (hclaimed e ▸ hc) (hclaimed e' ▸ hc')
  · intro hrec le hle i hi hlt
    obtain ⟨e, he, hmod, hc, hlo, hhi⟩ := h.cover hrec le hle i hi hlt
    exact ⟨e, he, hmod, (hclaimed e).trans hc, hlo, hhi⟩
  · intro e he hr
    -- The group that publishes writes its own cell.
    by_cases hee : e = e₀
    · simp only [fire, hee, Function.update_self, hnum]
    · -- Different groups have different cells.
      have hcell : e % l.numLocalExperts * l.numRanks + e / l.numLocalExperts ≠
          e₀ % l.numLocalExperts * l.numRanks + e₀ / l.numLocalExperts := by
        intro heq
        have hmod := congrArg (· / l.numRanks) heq
        have hdiv := congrArg (· % l.numRanks) heq
        have hpos := (Nat.zero_le _).trans_lt (hR e he)
        simp only [Nat.mul_add_mod', Nat.mod_eq_of_lt (hR e he),
          Nat.mod_eq_of_lt (hR e₀ he₀)] at hdiv
        simp only [Nat.mul_comm _ l.numRanks, Nat.mul_add_div hpos, Nat.div_eq_of_lt (hR e he),
          Nat.div_eq_of_lt (hR e₀ he₀), Nat.add_zero] at hmod
        rw [← Nat.div_add_mod e l.numLocalExperts, ← Nat.div_add_mod e₀ l.numLocalExperts, hdiv,
          hmod] at hee
        exact hee rfl
      simp only [fire, Function.update_of_ne hcell]
      simp only [fire, Function.update_of_ne hee] at hr
      exact h.layout e he hr
  · intro e i hcop
    obtain ⟨hr, hlt⟩ := h.copied e i hcop
    -- The group that publishes has copied nothing yet.
    have hee : e ≠ e₀ := by
      rintro rfl
      rw [hclaimed₀] at hr
      cases hr
    exact ⟨by simpa only [fire, Function.update_of_ne hee] using hr, hlt⟩

/-- Every step keeps the claims, as long as the signal waits read the counts, and a group that
gives its source up counts zero. -/
theorem fire (hL : 0 < l.numLocalExperts) (hE : l.numLocalExperts ≤ l.numExperts)
    (hR : ∀ e < l.numExperts, e / l.numLocalExperts < l.numRanks)
    (hn : ∀ le < l.numLocalExperts,
      ∑ e ∈ Finset.range l.numExperts with e % l.numLocalExperts = le, n e < 2 ^ 31)
    (hord : Order l s) (h : Claims l n s) (ha : enabled l s a)
    (hacq : ∀ e v, a = .acquire e v → toInt32 (-v - 1) = n e)
    (hgive : ∀ e, a = .giveUp e → n e = 0) : Claims l n (Dispatch.fire l s a) := by
  cases a with
  | gridSync => exact h.gridSync hE hord ha
  | acquire e v =>
    refine h.move e .got (by rw [ha.2.2.1]; rfl) rfl (fun _ => ?_) (fun i hi => ?_)
      rfl rfl rfl rfl rfl rfl
    · simp only [Dispatch.fire, Function.update_self]
      exact hacq e v rfl
    · simp only [Dispatch.fire, Function.update_of_ne hi]
  | miss e =>
    exact h.move e .missed (by rw [ha.2.2]; rfl) rfl (fun hc => by cases hc)
      (fun _ _ => rfl) rfl rfl rfl rfl rfl rfl
  | retry e =>
    exact h.move e .waiting (by rw [ha.2.1]; rfl) rfl (fun hc => by cases hc)
      (fun _ _ => rfl) rfl rfl rfl rfl rfl rfl
  | giveUp e =>
    refine h.move e .got (by rw [ha.2.1]; rfl) rfl (fun _ => ?_) (fun i hi => ?_)
      rfl rfl rfl rfl rfl rfl
    · show Function.update s.numRecv e _ e = n e
      rw [Function.update_self, hgive e rfl]
      rfl
    · exact Function.update_of_ne hi ..
  | claim e => exact h.claim hL hn hord ha
  | publish e => exact h.publish hR ha
  | copyRow e i =>
    refine { h with copied := fun e' i' hcop => ?_ }
    by_cases hpe : (e', i') = (e, i)
    · obtain ⟨rfl, rfl⟩ := Prod.mk.inj hpe
      have hnum := h.numRecv e' (by rw [ha.2.1]; rfl)
      have hlt := ha.2.2.1
      rw [hnum] at hlt
      exact ⟨ha.2.1, by omega⟩
    · simp only [Dispatch.fire, Function.update_of_ne hpe] at hcop
      exact h.copied e' i' hcop
  | resetCount e =>
    -- Nothing is claimed before the RECV phase.
    have hsend : s.recving = false := by
      by_contra hrec
      have hdone := hord.signals (by simpa using hrec) e ha.1
      rw [ha.2] at hdone
      cases hdone
    have hwait := hord.waits hsend
    have hcopied : ∀ e' i, s.copied (e', i) = true → s.recv e' = .ready ∧ i < n e' := h.copied
    constructor <;>
      simp_all [Dispatch.fire, RecvPc.hasCount, RecvPc.isClaimed]
  | _ => exact h.congr_same rfl rfl rfl rfl rfl rfl rfl

/-- The rows that a group has claimed are below the number of all rows that can be claimed. -/
theorem begin_le (hL : 0 < l.numLocalExperts) (hord : Order l s) (h : Claims l n s) {e : ℕ}
    (he : e < l.numExperts) (hc : (s.recv e).isClaimed = true) :
    0 ≤ s.recvBegin e ∧ s.recvBegin e + n e ≤
      (∑ e' ∈ Finset.range l.numExperts with e' % l.numLocalExperts = e % l.numLocalExperts, n e' :
        ℕ) := by
  have hrec : s.recving = true := by
    by_contra hsend
    rw [hord.waits (by simpa using hsend) e] at hc
    cases hc
  have htotal := h.le_total e he hc
  rw [h.total hrec _ (Nat.mod_lt e hL)] at htotal
  have hsum : claimedRows l n s.recv (e % l.numLocalExperts) ≤
      ∑ e' ∈ Finset.range l.numExperts with e' % l.numLocalExperts = e % l.numLocalExperts, n e' :=
    Finset.sum_le_sum_of_subset (Finset.monotone_filter_right _ fun _ _ hx => hx.1)
  exact ⟨h.nonneg e he hc, by omega⟩

/-- No two messages have the same row. -/
theorem row_inj (h : Claims l n s) {e e' i i' : ℕ} (he : e < l.numExperts) (he' : e' < l.numExperts)
    (hc : (s.recv e).isClaimed = true) (hc' : (s.recv e').isClaimed = true) (hi : i < n e)
    (hi' : i' < n e') (hle : e % l.numLocalExperts = e' % l.numLocalExperts)
    (hrow : s.recvBegin e + i = s.recvBegin e' + i') : e = e' ∧ i = i' := by
  have hee : e = e' := by
    by_contra hne
    cases h.disjoint e he e' he' hc hc' hle hne with
    | inl hlt => omega
    | inr hlt => omega
  subst hee
  exact ⟨rfl, by omega⟩

end Claims

end

end EpDemo.Kernel.Dispatch
