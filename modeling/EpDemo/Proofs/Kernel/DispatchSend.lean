import EpDemo.Kernel.Dispatch
import EpDemo.Library.Counting
import EpDemo.Proofs.Kernel.SentCount
import EpDemo.Proofs.Kernel.Words
import Mathlib.Tactic.Ring

/-!
# `EpDemo.Proofs.Kernel.DispatchSend`: the finish counter of `dispatch` is an exact barrier

For each expert the slot counter holds the number of slots handed out, and the finish counter
holds one tag from the cleaning warp, `tag - n` from the counting warp and one from every
finished send. `Accounting` states both sums, as exact integers under the wrap of `int`,
together with what the tag, the count and a successful poll imply. `Accounting.fire` is the
step lemma, by cases on the action.

A poll that succeeds sees `2 * tag` after `__syncthreads`, so the count of its own block is
in. A missing tag could then only be made up by more than `n` finished sends, and there are
exactly `n` sends (`numTokensSent_eq_card_tasks`). That holds for every `n`, also from the
tag on.
-/

set_option autoImplicit false

namespace EpDemo.Kernel.Dispatch

open EpDemo.Library

/-! ### Counting program counters -/

/-- The slot counter of the expert has not been reset. -/
def SignalPc.counterLive : SignalPc → Bool
  | .waiting | .polled | .signalled => true
  | _ => false

/-- The finish counter of the expert has not been reset. -/
def SignalPc.finishLive : SignalPc → Bool
  | .waiting | .polled | .signalled | .counterReset => true
  | _ => false

/-- The sends to `e` whose program counter has a property. -/
def taskCount (l : Launch) (f : TokenPc → Bool) (token : ℕ × ℕ → TokenPc) (e : ℕ) : ℕ :=
  ((l.tasks e).filter fun p => f (token p) = true).card

/-- The send is finished. -/
def TokenPc.isFinished : TokenPc → Bool
  | .finished => true
  | _ => false

section

variable {l : Launch} {f : TokenPc → Bool} {token : ℕ × ℕ → TokenPc} {pc : TokenPc}

/-- A send to `e` that gains the property is counted. -/
theorem taskCount_update_succ {p : ℕ × ℕ} {e : ℕ} (hp : p ∈ l.tasks e) (hold : f (token p) = false)
    (hnew : f pc = true) :
    taskCount l f (Function.update token p pc) e = taskCount l f token e + 1 :=
  card_filter_update_succ (p := fun x => f x = true) hp (by simp [hold]) hnew

/-- A step of a send to another expert is not counted. -/
theorem taskCount_update_of_notMem {p : ℕ × ℕ} {e : ℕ} (hp : p ∉ l.tasks e) :
    taskCount l f (Function.update token p pc) e = taskCount l f token e :=
  card_filter_update_of_notMem (p := fun x => f x = true) hp

/-- A step that does not change the property is not counted. -/
theorem taskCount_update_of_eq {p : ℕ × ℕ} (e : ℕ) (h : f pc = f (token p)) :
    taskCount l f (Function.update token p pc) e = taskCount l f token e :=
  card_filter_update_of_iff (p := fun x => f x = true) (by rw [h])

/-- No more sends are counted than an expert has. -/
theorem taskCount_le (l : Launch) (f : TokenPc → Bool) (token : ℕ × ℕ → TokenPc) (e : ℕ) :
    taskCount l f token e ≤ (l.tasks e).card :=
  Finset.card_filter_le _ _

/-- Nothing is counted when every send is idle. -/
theorem taskCount_idle (h : ∀ p, token p = .idle) (hf : f .idle = false) (e : ℕ) :
    taskCount l f token e = 0 := by
  simp [taskCount, h, hf]

end

/-! ### The invariant -/

/-- The exact value of the finish counter of `e`. -/
def finishSum (l : Launch) (s : State) (e : ℕ) : ℤ :=
  (bif s.tagged e then finishedSumTag else 0) +
    (bif s.counted e then finishedSumTag - l.numTokensSent e else 0) +
    taskCount l TokenPc.isFinished s.token e

/-- What the counters of a launch hold. -/
structure Accounting (l : Launch) (s : State) : Prop where
  counter : ∀ e < l.numExperts, (s.signal e).counterLive = true →
    s.ws e = toInt32 (taskCount l TokenPc.hasSlot s.token e)
  finish : ∀ e < l.numExperts, (s.signal e).finishLive = true →
    s.ws (l.numExperts + e) = toInt32 (finishSum l s e)
  counterZero : ∀ e < l.numExperts, (s.signal e).counterLive = false → s.ws e = 0
  finishZero : ∀ e < l.numExperts, (s.signal e).finishLive = false →
    s.ws (l.numExperts + e) = 0
  rest : ∀ i, 2 * l.numExperts ≤ i → s.ws i = 0
  tagged : ∀ e < l.numExperts, s.tagged e = true → ∀ i < l.numExperts, s.cleaned i = true
  counted : ∀ e < l.numExperts, s.counted e = true → s.count e = l.numTokensSent e
  polled : ∀ e < l.numExperts, s.signal e ≠ .waiting →
    s.tagged e = true ∧ s.counted e = true ∧ ∀ p ∈ l.tasks e, s.token p = .finished
  inRange : ∀ t w, (s.token (t, w)).hasSlot = true → 0 ≤ l.dstExpertIdx t w

/-- The host and device assertions on the top-k table that the counters rest on: at most
`kNumMaxTopK` entries a row, `num_tokens * num_topk` an `int`, entries below `num_experts`. -/
structure Fits (l : Launch) : Prop where
  numTopk : l.numTopk ≤ kNumMaxTopK
  table : l.numTokens * l.numTopk < 2 ^ 31
  entries : ∀ i < l.numTokens * l.numTopk, l.topk i < l.numExperts

section

variable {l : Launch}

/-- There is a token warp for each of the `num_topk` choices. -/
theorem Fits.numTopk_le (h : Fits l) : l.numTopk ≤ numTokenWarps :=
  h.numTopk.trans (by decide)

/-- The sends of a launch are counted by an `int`. -/
theorem Fits.card_tasks_lt (h : Fits l) (e : ℕ) : (l.tasks e).card < 2 ^ 31 := by
  rw [← l.numTokensSent_eq_card_tasks h.numTopk_le, l.numTokensSent_eq_flat]
  exact ((Finset.card_filter_le _ _).trans_eq (Finset.card_range _)).trans_lt h.table

/-- A warp with a destination sends to an existing expert. -/
theorem Fits.dst_lt (h : Fits l) {t w : ℕ} (ht : t < l.numTokens) (hdst : 0 ≤ l.dstExpertIdx t w) :
    (l.dstExpertIdx t w).toNat < l.numExperts := by
  have hw := l.lt_numTopk_of_dst hdst
  have hlt : t * l.numTopk + w < l.numTokens * l.numTopk := by
    have := Nat.mul_le_mul_right l.numTopk ht
    rw [Nat.succ_mul] at this
    omega
  have := h.entries _ hlt
  rw [← l.dstExpertIdx_of_lt hw] at this
  omega

/-- A send belongs to the tasks of its destination and of no other expert. -/
theorem mem_tasks_iff {t w e : ℕ} (ht : t < l.numTokens) (hw : w < numTokenWarps)
    (hdst : 0 ≤ l.dstExpertIdx t w) : (t, w) ∈ l.tasks e ↔ e = (l.dstExpertIdx t w).toNat := by
  rw [Launch.mem_tasks]
  omega

/-- The test for a finished send, as an equation. -/
theorem TokenPc.eq_finished {pc : TokenPc} (h : pc.isFinished = true) : pc = .finished := by
  cases pc <;> simp_all [TokenPc.isFinished]

namespace Accounting

variable {s s' : State}

/-- The invariant at the start of a launch. -/
theorem fresh (hs : s.Fresh) (hws : ∀ i, s.ws i = 0) : Accounting l s where
  counter e _ _ := by rw [hws, taskCount_idle hs.token rfl]; rfl
  finish e _ _ := by
    rw [hws, finishSum, hs.tagged, hs.counted, taskCount_idle hs.token rfl]
    rfl
  counterZero e _ _ := hws e
  finishZero e _ _ := hws _
  rest i _ := hws i
  tagged e _ h := by simp [hs.tagged] at h
  counted e _ h := by simp [hs.counted] at h
  polled e _ h := absurd (hs.signal e) h
  inRange t w h := by simp [hs.token, TokenPc.hasSlot] at h

/-- The invariant speaks about the counters, the sends and the two counting warps only. -/
theorem congr (h : Accounting l s) (hws : s'.ws = s.ws) (htoken : s'.token = s.token)
    (hcleaned : s'.cleaned = s.cleaned) (htagged : s'.tagged = s.tagged)
    (hcounted : s'.counted = s.counted) (hcount : s'.count = s.count)
    (hsignal : s'.signal = s.signal) : Accounting l s' := by
  have hsum : finishSum l s' = finishSum l s := by
    funext e
    simp only [finishSum, htoken, htagged, hcounted]
  constructor
  · simpa only [hws, htoken, hsignal] using h.counter
  · simpa only [hws, hsum, hsignal] using h.finish
  · simpa only [hws, hsignal] using h.counterZero
  · simpa only [hws, hsignal] using h.finishZero
  · simpa only [hws] using h.rest
  · simpa only [htagged, hcleaned] using h.tagged
  · simpa only [hcounted, hcount] using h.counted
  · simpa only [hsignal, htagged, hcounted, htoken] using h.polled
  · simpa only [htoken] using h.inRange

/-- A send that is not finished belongs to an expert that was not polled. -/
theorem waiting_of_not_finished (h : Accounting l s) {e : ℕ} (he : e < l.numExperts) {p : ℕ × ℕ}
    (hp : p ∈ l.tasks e) (hpc : s.token p ≠ .finished) : s.signal e = .waiting := by
  by_contra hne
  exact hpc ((h.polled e he hne).2.2 p hp)

/-- A send moves on without taking a slot or finishing. -/
theorem advance (h : Accounting l s) {t w : ℕ} {pc : TokenPc}
    (hslot : pc.hasSlot = (s.token (t, w)).hasSlot)
    (hfin : pc.isFinished = (s.token (t, w)).isFinished) :
    Accounting l { s with token := Function.update s.token (t, w) pc } := by
  -- No finish counter sees the step.
  have hsum : finishSum l { s with token := Function.update s.token (t, w) pc } =
      finishSum l s := by
    funext e
    simp only [finishSum, taskCount_update_of_eq e hfin]
  constructor
  · intro e he hlive
    rw [taskCount_update_of_eq e hslot]
    exact h.counter e he hlive
  · rw [hsum]
    exact h.finish
  · exact h.counterZero
  · exact h.finishZero
  · exact h.rest
  · exact h.tagged
  · exact h.counted
  · intro e he hne
    obtain ⟨htag, hcnt, hall⟩ := h.polled e he hne
    refine ⟨htag, hcnt, fun p hp => ?_⟩
    -- A send that is finished stays finished.
    by_cases hpe : p = (t, w)
    · subst hpe
      simp only [Function.update_self]
      refine TokenPc.eq_finished ?_
      rw [hfin, hall _ hp]
      rfl
    · simp only [Function.update_of_ne hpe]
      exact hall p hp
  · intro t' w' hs
    by_cases hpe : (t', w') = (t, w)
    · obtain ⟨rfl, rfl⟩ := Prod.mk.inj hpe
      simp only [Function.update_self, hslot] at hs
      exact h.inRange t' w' hs
    · simp only [Function.update_of_ne hpe] at hs
      exact h.inRange t' w' hs

/-- A slot is handed out. -/
theorem reserve (hfit : Fits l) (h : Accounting l s) {t w : ℕ}
    (ha : enabled l s (.reserve t w)) : Accounting l (fire l s (.reserve t w)) := by
  obtain ⟨ht, hw, hpc, hdst, -⟩ := ha
  have he₀ := hfit.dst_lt ht hdst
  -- The thread of the expert has not polled, since this send is not finished.
  have hwait := h.waiting_of_not_finished he₀ ((mem_tasks_iff ht hw hdst).mpr rfl)
    (by rw [hpc]; decide)
  -- A reservation is no finish.
  have hfin (e : ℕ) : taskCount l TokenPc.isFinished (Function.update s.token (t, w) .reserved) e =
      taskCount l TokenPc.isFinished s.token e := taskCount_update_of_eq e (by rw [hpc]; rfl)
  constructor
  · intro e he hlive
    -- The counter of the expert goes up, and so does the number of sends with a slot.
    by_cases hee : e = (l.dstExpertIdx t w).toNat
    · subst hee
      have hsucc : taskCount l TokenPc.hasSlot (Function.update s.token (t, w) .reserved)
          (l.dstExpertIdx t w).toNat = _ :=
        taskCount_update_succ ((mem_tasks_iff ht hw hdst).mpr rfl) (by rw [hpc]; rfl) rfl
      simp only [fire, atomicAdd_self, h.counter _ he hlive, toInt32_add, hsucc, Nat.cast_succ]
    · have hother : taskCount l TokenPc.hasSlot (Function.update s.token (t, w) .reserved) e = _ :=
        taskCount_update_of_notMem (mt (mem_tasks_iff ht hw hdst).mp hee)
      simp only [fire, atomicAdd_of_ne hee, hother]
      exact h.counter e he hlive
  · intro e he hlive
    -- The finish counters are other words.
    have hne : l.numExperts + e ≠ (l.dstExpertIdx t w).toNat := by omega
    simp only [fire, atomicAdd_of_ne hne, finishSum, hfin]
    exact h.finish e he hlive
  · intro e he hlive
    have hne : e ≠ (l.dstExpertIdx t w).toNat := by
      rintro rfl
      simp only [fire, hwait, SignalPc.counterLive] at hlive
      exact absurd hlive (by decide)
    simp only [fire, atomicAdd_of_ne hne]
    exact h.counterZero e he hlive
  · intro e he hlive
    have hne : l.numExperts + e ≠ (l.dstExpertIdx t w).toNat := by omega
    simp only [fire, atomicAdd_of_ne hne]
    exact h.finishZero e he hlive
  · intro i hi
    have hne : i ≠ (l.dstExpertIdx t w).toNat := by omega
    simp only [fire, atomicAdd_of_ne hne]
    exact h.rest i hi
  · exact h.tagged
  · exact h.counted
  · intro e he hne
    obtain ⟨htag, hcnt, hall⟩ := h.polled e he hne
    refine ⟨htag, hcnt, fun p hp => ?_⟩
    -- An expert that was polled has no send that is still to reserve.
    have hpe : p ≠ (t, w) := by
      rintro rfl
      exact absurd (hall _ hp) (by rw [hpc]; decide)
    simp only [fire, Function.update_of_ne hpe]
    exact hall p hp
  · intro t' w' hs
    by_cases hpe : (t', w') = (t, w)
    · obtain ⟨rfl, rfl⟩ := Prod.mk.inj hpe
      exact hdst
    · simp only [fire, Function.update_of_ne hpe] at hs
      exact h.inRange t' w' hs

/-- A send finishes. -/
theorem finishSend (hfit : Fits l) (h : Accounting l s) {t w : ℕ}
    (ha : enabled l s (.finish t w)) : Accounting l (fire l s (.finish t w)) := by
  obtain ⟨ht, hw, hpc⟩ := ha
  have hdst : 0 ≤ l.dstExpertIdx t w := h.inRange t w (by rw [hpc]; rfl)
  have he₀ := hfit.dst_lt ht hdst
  -- The thread of the expert has not polled, since this send is not finished.
  have hwait := h.waiting_of_not_finished he₀ ((mem_tasks_iff ht hw hdst).mpr rfl)
    (by rw [hpc]; decide)
  -- A finish reserves nothing.
  have hslot (e : ℕ) : taskCount l TokenPc.hasSlot (Function.update s.token (t, w) .finished) e =
      taskCount l TokenPc.hasSlot s.token e := taskCount_update_of_eq e (by rw [hpc]; rfl)
  constructor
  · intro e he hlive
    -- The slot counters are other words.
    have hne : e ≠ l.numExperts + (l.dstExpertIdx t w).toNat := by omega
    simp only [fire, atomicAdd_of_ne hne, hslot]
    exact h.counter e he hlive
  · intro e he hlive
    -- The finish counter of the expert goes up, and so does the number of finished sends.
    by_cases hee : e = (l.dstExpertIdx t w).toNat
    · subst hee
      have hsucc : taskCount l TokenPc.isFinished (Function.update s.token (t, w) .finished)
          (l.dstExpertIdx t w).toNat = _ :=
        taskCount_update_succ ((mem_tasks_iff ht hw hdst).mpr rfl) (by rw [hpc]; rfl) rfl
      simp only [fire, atomicAdd_self, h.finish _ he hlive, toInt32_add, finishSum, hsucc,
        Nat.cast_succ, add_assoc]
    · have hother : taskCount l TokenPc.isFinished (Function.update s.token (t, w) .finished) e =
          _ := taskCount_update_of_notMem (mt (mem_tasks_iff ht hw hdst).mp hee)
      have hne : l.numExperts + e ≠ l.numExperts + (l.dstExpertIdx t w).toNat := by omega
      simp only [fire, atomicAdd_of_ne hne, finishSum, hother]
      exact h.finish e he hlive
  · intro e he hlive
    have hne : e ≠ l.numExperts + (l.dstExpertIdx t w).toNat := by omega
    simp only [fire, atomicAdd_of_ne hne]
    exact h.counterZero e he hlive
  · intro e he hlive
    -- A counter that was reset is not that of this expert.
    have hee : e ≠ (l.dstExpertIdx t w).toNat := by
      rintro rfl
      simp only [fire, hwait, SignalPc.finishLive] at hlive
      exact absurd hlive (by decide)
    have hne : l.numExperts + e ≠ l.numExperts + (l.dstExpertIdx t w).toNat := by omega
    simp only [fire, atomicAdd_of_ne hne]
    exact h.finishZero e he hlive
  · intro i hi
    have hne : i ≠ l.numExperts + (l.dstExpertIdx t w).toNat := by omega
    simp only [fire, atomicAdd_of_ne hne]
    exact h.rest i hi
  · exact h.tagged
  · exact h.counted
  · intro e he hne
    obtain ⟨htag, hcnt, hall⟩ := h.polled e he hne
    refine ⟨htag, hcnt, fun p hp => ?_⟩
    by_cases hpe : p = (t, w)
    · simp only [fire, hpe, Function.update_self]
    · simp only [fire, Function.update_of_ne hpe]
      exact hall p hp
  · intro t' w' hs
    by_cases hpe : (t', w') = (t, w)
    · obtain ⟨rfl, rfl⟩ := Prod.mk.inj hpe
      exact hdst
    · simp only [fire, Function.update_of_ne hpe] at hs
      exact h.inRange t' w' hs

/-- The cleaning warp adds the tag of an expert. -/
theorem tag (h : Accounting l s) {i : ℕ} (ha : enabled l s (.tag i)) :
    Accounting l (fire l s (.tag i)) := by
  obtain ⟨-, hi, hnot, hclean, -⟩ := ha
  -- The thread has not polled without the tag.
  have hwait : s.signal i = .waiting := by
    by_contra hne
    have := (h.polled i hi hne).1
    simp [hnot] at this
  constructor
  · intro e he hlive
    -- The slot counters are other words.
    have hne : e ≠ l.numExperts + i := by omega
    simp only [fire, atomicAdd_of_ne hne]
    exact h.counter e he hlive
  · intro e he hlive
    -- The tag is added to the finish counter of its own expert.
    by_cases hee : e = i
    · subst hee
      simp only [fire, atomicAdd_self, h.finish e he hlive, toInt32_add, finishSum,
        Function.update_self, hnot, cond_true, cond_false]
      congr 1
      ring
    · have hne : l.numExperts + e ≠ l.numExperts + i := by omega
      simp only [fire, atomicAdd_of_ne hne, finishSum, Function.update_of_ne hee]
      exact h.finish e he hlive
  · intro e he hlive
    have hne : e ≠ l.numExperts + i := by omega
    simp only [fire, atomicAdd_of_ne hne]
    exact h.counterZero e he hlive
  · intro e he hlive
    have hee : e ≠ i := by
      rintro rfl
      simp only [fire, hwait, SignalPc.finishLive] at hlive
      exact absurd hlive (by decide)
    have hne : l.numExperts + e ≠ l.numExperts + i := by omega
    simp only [fire, atomicAdd_of_ne hne]
    exact h.finishZero e he hlive
  · intro j hj
    have hne : j ≠ l.numExperts + i := by omega
    simp only [fire, atomicAdd_of_ne hne]
    exact h.rest j hj
  · exact fun _ _ _ => hclean
  · exact h.counted
  · intro e he hne
    obtain ⟨htag, hrest⟩ := h.polled e he hne
    refine ⟨?_, hrest⟩
    -- An expert that was polled has its tag already.
    have hei : e ≠ i := by
      rintro rfl
      exact hne hwait
    simpa only [fire, Function.update_of_ne hei] using htag
  · exact h.inRange

/-- The counting warp publishes the count of an expert. -/
theorem count (h : Accounting l s) {i : ℕ} (ha : enabled l s (.count i)) :
    Accounting l (fire l s (.count i)) := by
  obtain ⟨-, hi, hnot, -, -⟩ := ha
  -- The thread has not polled without the count.
  have hwait : s.signal i = .waiting := by
    by_contra hne
    have := (h.polled i hi hne).2.1
    simp [hnot] at this
  constructor
  · intro e he hlive
    have hne : e ≠ l.numExperts + i := by omega
    simp only [fire, atomicAdd_of_ne hne]
    exact h.counter e he hlive
  · intro e he hlive
    -- The complement of the count is added to the finish counter of its own expert.
    by_cases hee : e = i
    · subst hee
      simp only [fire, atomicAdd_self, h.finish e he hlive, toInt32_add, finishSum,
        Function.update_self, hnot, cond_true, cond_false]
      congr 1
      ring
    · have hne : l.numExperts + e ≠ l.numExperts + i := by omega
      simp only [fire, atomicAdd_of_ne hne, finishSum, Function.update_of_ne hee]
      exact h.finish e he hlive
  · intro e he hlive
    have hne : e ≠ l.numExperts + i := by omega
    simp only [fire, atomicAdd_of_ne hne]
    exact h.counterZero e he hlive
  · intro e he hlive
    have hee : e ≠ i := by
      rintro rfl
      simp only [fire, hwait, SignalPc.finishLive] at hlive
      exact absurd hlive (by decide)
    have hne : l.numExperts + e ≠ l.numExperts + i := by omega
    simp only [fire, atomicAdd_of_ne hne]
    exact h.finishZero e he hlive
  · intro j hj
    have hne : j ≠ l.numExperts + i := by omega
    simp only [fire, atomicAdd_of_ne hne]
    exact h.rest j hj
  · exact h.tagged
  · intro e he hcnt
    by_cases hee : e = i
    · simp only [fire, hee, Function.update_self]
    · simp only [fire, Function.update_of_ne hee] at hcnt ⊢
      exact h.counted e he hcnt
  · intro e he hne
    obtain ⟨htag, hcnt, hall⟩ := h.polled e he hne
    refine ⟨htag, ?_, hall⟩
    -- An expert that was polled has its count already.
    have hei : e ≠ i := by
      rintro rfl
      exact hne hwait
    simpa only [fire, Function.update_of_ne hei] using hcnt
  · exact h.inRange

/-- A poll succeeds only when the tag, the count and every send are in. -/
theorem of_poll (hfit : Fits l) (h : Accounting l s) {e : ℕ} (ha : enabled l s (.poll e)) :
    s.tagged e = true ∧ s.counted e = true ∧ ∀ p ∈ l.tasks e, s.token p = .finished := by
  obtain ⟨he, hwait, hsync, hpoll⟩ := ha
  have hcnt := hsync.counted e he rfl
  have hsum := h.finish e he (by rw [hwait]; rfl)
  have hle := taskCount_le l TokenPc.isFinished s.token e
  have hlt := hfit.card_tasks_lt e
  have hn := l.numTokensSent_eq_card_tasks hfit.numTopk_le e
  rw [hpoll] at hsum
  simp only [finishSum, hcnt, cond_true, finishedSumTag] at hsum
  cases htag : s.tagged e with
  | false =>
    -- Without the tag, `n` sends cannot make up for it.
    simp only [htag, cond_false] at hsum
    have := eq_of_toInt32_eq hsum.symm (by omega) (by omega)
    omega
  | true =>
    simp only [htag, cond_true] at hsum
    have := eq_of_toInt32_eq hsum.symm (by omega) (by omega)
    have hall := forall_of_card_filter_eq (S := l.tasks e)
      (p := fun p => (s.token p).isFinished = true) (by rw [taskCount] at this; omega)
    exact ⟨rfl, hcnt, fun p hp => TokenPc.eq_finished (hall p hp)⟩

/-- The signalling thread of an expert moves on without resetting a counter. -/
theorem setSignal (h : Accounting l s) {e₀ : ℕ} {pc : SignalPc}
    (hcounter : pc.counterLive = (s.signal e₀).counterLive)
    (hfinish : pc.finishLive = (s.signal e₀).finishLive)
    (hpolled : s.tagged e₀ = true ∧ s.counted e₀ = true ∧ ∀ p ∈ l.tasks e₀, s.token p = .finished) :
    Accounting l { s with signal := Function.update s.signal e₀ pc } := by
  -- The counters are in use exactly as long as before.
  have hlive : ∀ e, (Function.update s.signal e₀ pc e).counterLive = (s.signal e).counterLive ∧
      (Function.update s.signal e₀ pc e).finishLive = (s.signal e).finishLive := by
    intro e
    by_cases hee : e = e₀
    · subst hee
      simpa only [Function.update_self] using ⟨hcounter, hfinish⟩
    · simp only [Function.update_of_ne hee, and_self]
  constructor
  · exact fun e he hl => h.counter e he ((hlive e).1 ▸ hl)
  · exact fun e he hl => h.finish e he ((hlive e).2 ▸ hl)
  · exact fun e he hl => h.counterZero e he ((hlive e).1 ▸ hl)
  · exact fun e he hl => h.finishZero e he ((hlive e).2 ▸ hl)
  · exact h.rest
  · exact h.tagged
  · exact h.counted
  · intro e he hne
    by_cases hee : e = e₀
    · exact hee ▸ hpolled
    · simp only [Function.update_of_ne hee] at hne
      exact h.polled e he hne
  · exact h.inRange

/-- The slot counter of an expert is reset. -/
theorem resetCounter (h : Accounting l s) {i : ℕ} (ha : enabled l s (.resetCounter i)) :
    Accounting l (fire l s (.resetCounter i)) := by
  obtain ⟨hi, hpc⟩ := ha
  constructor
  · intro e he hlive
    -- The counter of this expert is not in use any more.
    have hee : e ≠ i := by
      rintro rfl
      simp only [fire, Function.update_self] at hlive
      exact absurd hlive (by decide)
    simp only [fire, Function.update_of_ne hee] at hlive ⊢
    exact h.counter e he hlive
  · intro e he hlive
    -- The finish counters are other words.
    have hne : l.numExperts + e ≠ i := by omega
    simp only [fire, Function.update_of_ne hne]
    refine h.finish e he ?_
    by_cases hee : e = i
    · rw [hee, hpc]
      rfl
    · simpa only [fire, Function.update_of_ne hee] using hlive
  · intro e he hlive
    -- It is zero now.
    by_cases hee : e = i
    · simp only [fire, hee, Function.update_self]
    · simp only [fire, Function.update_of_ne hee] at hlive ⊢
      exact h.counterZero e he hlive
  · intro e he hlive
    have hne : l.numExperts + e ≠ i := by omega
    have hee : e ≠ i := by
      rintro rfl
      simp only [fire, Function.update_self] at hlive
      exact absurd hlive (by decide)
    simp only [fire, Function.update_of_ne hee] at hlive
    simp only [fire, Function.update_of_ne hne]
    exact h.finishZero e he hlive
  · intro j hj
    simp only [fire, Function.update_of_ne (show j ≠ i by omega)]
    exact h.rest j hj
  · exact h.tagged
  · exact h.counted
  · intro e he hne
    refine h.polled e he fun hw => hne ?_
    -- The thread has polled long ago.
    have hee : e ≠ i := by
      rintro rfl
      rw [hpc] at hw
      exact absurd hw (by decide)
    simp only [fire, Function.update_of_ne hee, hw]
  · exact h.inRange

/-- The finish counter of an expert is reset. -/
theorem resetFinish (h : Accounting l s) {i : ℕ} (ha : enabled l s (.resetFinish i)) :
    Accounting l (fire l s (.resetFinish i)) := by
  obtain ⟨hi, hpc⟩ := ha
  constructor
  · intro e he hlive
    -- The finish counter of this expert is not in use any more.
    have hee : e ≠ i := by
      rintro rfl
      simp only [fire, Function.update_self] at hlive
      exact absurd hlive (by decide)
    -- The slot counters are other words.
    have hne : e ≠ l.numExperts + i := by omega
    simp only [fire, Function.update_of_ne hee] at hlive
    simp only [fire, Function.update_of_ne hne]
    exact h.counter e he hlive
  · intro e he hlive
    have hee : e ≠ i := by
      rintro rfl
      simp only [fire, Function.update_self] at hlive
      exact absurd hlive (by decide)
    have hne : l.numExperts + e ≠ l.numExperts + i := by omega
    simp only [fire, Function.update_of_ne hee] at hlive
    simp only [fire, Function.update_of_ne hne]
    exact h.finish e he hlive
  · intro e he hlive
    have hne : e ≠ l.numExperts + i := by omega
    simp only [fire, Function.update_of_ne hne]
    refine h.counterZero e he ?_
    by_cases hee : e = i
    · rw [hee, hpc]
      rfl
    · simpa only [fire, Function.update_of_ne hee] using hlive
  · intro e he hlive
    -- It is zero now.
    by_cases hee : e = i
    · simp only [fire, hee, Function.update_self]
    · have hne : l.numExperts + e ≠ l.numExperts + i := by omega
      simp only [fire, Function.update_of_ne hee] at hlive
      simp only [fire, Function.update_of_ne hne]
      exact h.finishZero e he hlive
  · intro j hj
    simp only [fire, Function.update_of_ne (show j ≠ l.numExperts + i by omega)]
    exact h.rest j hj
  · exact h.tagged
  · exact h.counted
  · intro e he hne
    refine h.polled e he fun hw => hne ?_
    -- The thread has polled long ago.
    have hee : e ≠ i := by
      rintro rfl
      rw [hpc] at hw
      exact absurd hw (by decide)
    simp only [fire, Function.update_of_ne hee, hw]
  · exact h.inRange

/-- Every step keeps the invariant. -/
theorem fire (hfit : Fits l) (h : Accounting l s) {a : Action} (ha : enabled l s a) :
    Accounting l (Dispatch.fire l s a) := by
  -- The steps of the SEND phase one by one. The others do not touch the workspace.
  cases a with
  | stage t w => exact h.advance (by rw [ha.2.2.1]; rfl) (by rw [ha.2.2.1]; rfl)
  | reserve t w => exact h.reserve hfit ha
  | send t w => exact h.advance (by rw [ha.2.2]; rfl) (by rw [ha.2.2]; rfl)
  | finish t w => exact h.finishSend hfit ha
  | clean i =>
    -- Cleaning does not undo what was cleaned.
    refine { h with tagged := fun e he htag j hj => ?_ }
    by_cases hji : j = i
    · simp only [Dispatch.fire, hji, Function.update_self]
    · simp only [Dispatch.fire, Function.update_of_ne hji]
      exact h.tagged e he htag j hj
  | tag i => exact h.tag ha
  | count e => exact h.count ha
  | poll e => exact h.setSignal (by rw [ha.2.1]; rfl) (by rw [ha.2.1]; rfl) (h.of_poll hfit ha)
  | signal e =>
    exact h.setSignal (by rw [ha.2]; rfl) (by rw [ha.2]; rfl)
      (h.polled e ha.1 (by rw [ha.2]; decide))
  | resetCounter e => exact h.resetCounter ha
  | resetFinish e => exact h.resetFinish ha
  | resetCount e =>
    have hset : Accounting l { s with signal := Function.update s.signal e .done } :=
      h.setSignal (by rw [ha.2]; rfl) (by rw [ha.2]; rfl) (h.polled e ha.1 (by rw [ha.2]; decide))
    exact hset.congr rfl rfl rfl rfl rfl rfl rfl
  | gridSync => exact h.congr rfl rfl rfl rfl rfl rfl rfl
  | acquire e v => exact h.congr rfl rfl rfl rfl rfl rfl rfl
  | miss e => exact h.congr rfl rfl rfl rfl rfl rfl rfl
  | expire e => exact h.congr rfl rfl rfl rfl rfl rfl rfl
  | giveUp e => exact h.congr rfl rfl rfl rfl rfl rfl rfl
  | retry e => exact h.congr rfl rfl rfl rfl rfl rfl rfl
  | claim e => exact h.congr rfl rfl rfl rfl rfl rfl rfl
  | publish e => exact h.congr rfl rfl rfl rfl rfl rfl rfl
  | copyRow e i => exact h.congr rfl rfl rfl rfl rfl rfl rfl

/-- The workspace is zero when every expert has been signalled and reset. -/
theorem ws_of_done (h : Accounting l s) (hdone : ∀ e < l.numExperts, s.signal e = .done) (i : ℕ) :
    s.ws i = 0 := by
  by_cases hlo : i < l.numExperts
  · exact h.counterZero i hlo (by rw [hdone i hlo]; rfl)
  · by_cases hmid : i < 2 * l.numExperts
    · have hi : l.numExperts + (i - l.numExperts) = i := by omega
      have hlt : i - l.numExperts < l.numExperts := by omega
      rw [← hi]
      exact h.finishZero _ hlt (by rw [hdone _ hlt]; rfl)
    · exact h.rest i (by omega)

end Accounting

/-! ### Runs of one launch -/

/-- The counters hold what they should, and what was cleaned is zero, in every run. -/
theorem accounting_of_reachable (hfit : Fits l) {p : Alone} (h : (alone l).Reachable p) :
    Accounting l p.kernel ∧ ∀ i, p.kernel.cleaned i = true → p.nextCleanBuffer i = 0 := by
  refine h.invariant (I := fun p => Accounting l p.kernel ∧
    ∀ i, p.kernel.cleaned i = true → p.nextCleanBuffer i = 0) ?_ ?_
  · rintro q ⟨hfresh, hws⟩
    exact ⟨.fresh hfresh hws, fun i hi => by simp [hfresh.cleaned] at hi⟩
  · rintro q a q' - ⟨hacc, hzero⟩ ⟨hen, rfl⟩
    refine ⟨hacc.fire hfit hen, ?_⟩
    cases a with
    | clean i =>
      intro j hj
      by_cases hji : j = i
      · simp only [aloneMachine, hji, Function.update_self]
      · simp only [aloneMachine, Dispatch.fire, Function.update_of_ne hji] at hj ⊢
        exact hzero j hj
    | _ => exact hzero

end

/-- The poll of `dispatch` on `2 * FINISHED_SUM_TAG` is exact, for every launch whose table
passes the assertions and every interleaving: when it succeeds, and from then on, every send
to the expert is finished, the count in the signal is the number of slots handed out, and the
cleaned array is zero. When all contributions are in, the counter has the polled value. -/
theorem poll_exact (l : Launch) (hfit : Fits l) (p : Alone) (hp : (alone l).Reachable p) (e : ℕ)
    (he : e < l.numExperts) :
    ((enabled l p.kernel (.poll e) ∨ p.kernel.signal e ≠ .waiting) →
      (∀ x ∈ l.tasks e, p.kernel.token x = .finished) ∧
      p.kernel.signalValue e =
        -(((l.tasks e).filter fun x => (p.kernel.token x).hasSlot = true).card : ℤ) - 1 ∧
      ∀ i < l.numExperts, p.nextCleanBuffer i = 0) ∧
    (p.kernel.tagged e = true → p.kernel.counted e = true →
      (∀ x ∈ l.tasks e, p.kernel.token x = .finished) → (p.kernel.signal e).finishLive = true →
      p.kernel.ws (l.numExperts + e) = finishedSumTag * 2) := by
  obtain ⟨hacc, hzero⟩ := accounting_of_reachable hfit hp
  have hn := l.numTokensSent_eq_card_tasks hfit.numTopk_le e
  have hlt := hfit.card_tasks_lt e
  constructor
  · intro hpoll
    -- A thread that polls has seen the full sum, and one that is past it had seen it.
    have hin : p.kernel.tagged e = true ∧ p.kernel.counted e = true ∧
        ∀ x ∈ l.tasks e, p.kernel.token x = .finished := by
      rcases hpoll with hpoll | hpoll
      · exact hacc.of_poll hfit hpoll
      · exact hacc.polled e he hpoll
    obtain ⟨htag, hcnt, hall⟩ := hin
    -- All sends are finished, so all of them have slots.
    have hslots : (l.tasks e).filter (fun x => (p.kernel.token x).hasSlot = true) = l.tasks e :=
      Finset.filter_true_of_mem fun x hx => by rw [hall x hx]; rfl
    refine ⟨hall, ?_, fun i hi => hzero i (hacc.tagged e he htag i hi)⟩
    rw [hslots, State.signalValue, hacc.counted e he hcnt, hn]
    exact toInt32_of_range (by omega) (by omega)
  · intro htag hcnt hall hlive
    -- Tag, complement and finished sends make the sum that is waited for.
    have hfin : taskCount l TokenPc.isFinished p.kernel.token e = (l.tasks e).card := by
      rw [taskCount, Finset.filter_true_of_mem fun x hx => by rw [hall x hx]; rfl]
    rw [hacc.finish e he hlive, finishSum, htag, hcnt, hfin, hn]
    simp only [cond_true, finishedSumTag]
    rw [show (1024 + (1024 - ((l.tasks e).card : ℤ)) + (l.tasks e).card) = 2048 by ring]
    rfl

/-- A launch for one token of rank 0 and nine experts on nine ranks: expert 3 gets the token. -/
def oneToken : Launch where
  numExperts := 9
  numRanks := 9
  numMaxDispatchTokensPerRank := 1
  rank := 0
  numTokens := 1
  numTopk := 1
  topkIdx _ := 3
  timeoutTicks := -1

/-- A state at the start of a launch. -/
def start : State where
  ws _ := 0
  token _ := .idle
  slot _ := 0
  cleaned _ := false
  tagged _ := false
  counted _ := false
  count _ := 0
  signal _ := .waiting
  recving := false
  activeRanks _ := 1
  recv _ := .waiting
  numRecv _ := 0
  recvBegin _ := 0
  copied _ := false
  packedRecvCount _ := 0
  layoutRange _ := 0

/-- The start state of the examples is fresh. -/
theorem start_fresh : start.Fresh := by constructor <;> intros <;> rfl

/-- A schedule of the SEND phase of `oneToken` up to the poll for expert 3. -/
def oneTokenSend : List Action :=
  (List.range 31).map (.stage 0) ++ [.reserve 0 0, .send 0 0, .finish 0 0] ++
    (List.range 9).map .clean ++ (List.range 9).map .tag ++ (List.range 9).map .count

/-- The poll for expert 3 is enabled at the end of the schedule: the signal will be -2. -/
theorem poll_exact_oneToken :
    let p := (aloneMachine oneToken).exec ⟨start, fun _ => 7⟩ oneTokenSend
    ((enabled oneToken p.kernel (.poll 3) ∨ p.kernel.signal 3 ≠ .waiting) →
      (∀ x ∈ oneToken.tasks 3, p.kernel.token x = .finished) ∧
      p.kernel.signalValue 3 =
        -(((oneToken.tasks 3).filter fun x => (p.kernel.token x).hasSlot = true).card : ℤ) - 1 ∧
      ∀ i < 9, p.nextCleanBuffer i = 0) ∧
    (p.kernel.tagged 3 = true → p.kernel.counted 3 = true →
      (∀ x ∈ oneToken.tasks 3, p.kernel.token x = .finished) →
      (p.kernel.signal 3).finishLive = true →
      p.kernel.ws (9 + 3) = finishedSumTag * 2) :=
  poll_exact oneToken ⟨by decide, by decide, by decide⟩ _
    (Machine.reachable_exec _ (.init ⟨start_fresh, fun _ => rfl⟩) (by decide +kernel)) 3 (by decide)

end EpDemo.Kernel.Dispatch
