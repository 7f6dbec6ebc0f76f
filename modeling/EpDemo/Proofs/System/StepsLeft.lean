import EpDemo.Proofs.Kernel.CombineProgress
import EpDemo.Proofs.Kernel.DispatchProgress
import EpDemo.Proofs.System.Waits
import Mathlib.Data.Prod.Lex

/-!
# `EpDemo.Proofs.System.StepsLeft`: what the system has left until all ranks have ended a call

A poll of a signal wait that reads zero leads nowhere, and neither does the return to the wait as
long as the signal has not landed. These steps are `Idle`. Every other step makes `measure` fall
(`measure_fire_lt`): a rank goes to its next call, or a kernel comes closer to its end and posts at
most one work request, or the network card executes one, or a wait that missed its signal looks
again.

`enabled_of_idle` says that an idle step does not stand in the way of any other.
-/

set_option autoImplicit false

namespace EpDemo.System.Config

open EpDemo.Kernel EpDemo.Library

variable {A : Type}

/-- The signal that group `e` of rank `r` waits for in its current call has landed. -/
def SignalLanded (c : Config A) (w : World A) (r e : ℕ) : Prop :=
  c.Landed w (w.call r) (e / c.numLocalExperts)
    (.signal (r * c.numLocalExperts + e % c.numLocalExperts))

/-- The step leads nowhere. -/
def Idle (c : Config A) (w : World A) : Action → Prop
  | .dispatch _ (.miss _) | .combine _ (.miss _) => True
  | .dispatch r (.retry e) | .combine r (.retry e) => ¬c.SignalLanded w r e
  | _ => False

/-- The rank and the group whose signal wait is polled. -/
def polled : Action → Option (ℕ × ℕ)
  | .dispatch r (.miss e) | .dispatch r (.retry e) => some (r, e)
  | .combine r (.miss e) | .combine r (.retry e) => some (r, e)
  | _ => none

/-! ### The measure -/

/-- The calls that the ranks may start before the last of them has ended call `m`. -/
def callsLeft (c : Config A) (m : ℕ) (w : World A) : ℕ :=
  ∑ r ∈ Finset.range c.numRanks, (m + 2 - w.call r)

/-- The steps that the current kernel of a rank has left. -/
def kernelLeft (c : Config A) (w : World A) (r : ℕ) : ℕ :=
  match (c.calls (w.call r)).kind with
  | .dispatch => Dispatch.stepsLeft (c.launch r (w.call r)) (w.disp (r, w.call r))
  | .combine => Combine.stepsLeft (c.combineLaunch w r (w.call r)) (w.comb (r, w.call r))

/-- The queue pairs of all ranks that are in use. -/
def queues (c : Config A) : Finset (ℕ × ℕ) :=
  Finset.range c.numRanks ×ˢ (Finset.range c.numExperts).image c.ctx

/-- The steps of kernels and network cards that are left. A step of a kernel counts twice, since it
may post a work request. -/
def workLeft (c : Config A) (w : World A) : ℕ :=
  2 * ∑ r ∈ Finset.range c.numRanks, c.kernelLeft w r + ∑ q ∈ c.queues, (w.nic q).length

/-- The signal wait of group `e` of rank `r` has read zero. -/
def Missed (c : Config A) (w : World A) (r e : ℕ) : Prop :=
  match (c.calls (w.call r)).kind with
  | .dispatch => (w.disp (r, w.call r)).recv e = .missed
  | .combine => (w.comb (r, w.call r)).recv e = .missed

open Classical in
/-- The signal waits that have read zero although their signal has landed by now. -/
noncomputable def missedWaits (c : Config A) (w : World A) : Finset (ℕ × ℕ) :=
  (Finset.range c.numRanks ×ˢ Finset.range c.numExperts).filter fun p =>
    c.Missed w p.1 p.2 ∧ c.SignalLanded w p.1 p.2

/-- What falls with every step that leads on, until all ranks have ended call `m`. -/
noncomputable def measure (c : Config A) (m : ℕ) (w : World A) : ℕ ×ₗ ℕ ×ₗ ℕ :=
  toLex (c.callsLeft m w, toLex (c.workLeft w, (c.missedWaits w).card))

section

variable {c : Config A} {w w' : World A} {a : Action} {m : ℕ}

/-- The waits that are counted. -/
theorem mem_missedWaits {x : ℕ × ℕ} : x ∈ c.missedWaits w ↔
    (x.1 < c.numRanks ∧ x.2 < c.numExperts) ∧ c.Missed w x.1 x.2 ∧ c.SignalLanded w x.1 x.2 := by
  simp only [missedWaits, Finset.mem_filter, Finset.mem_product, Finset.mem_range]

/-- A rank that goes on to its next call leaves less. -/
theorem measure_lt_of_call (h : c.callsLeft m w' < c.callsLeft m w) :
    c.measure m w' < c.measure m w := Prod.Lex.toLex_lt_toLex.mpr (.inl h)

/-- A step that does some of the work leaves less. -/
theorem measure_lt_of_work (hcall : w'.call = w.call) (h : c.workLeft w' < c.workLeft w) :
    c.measure m w' < c.measure m w := by
  refine Prod.Lex.toLex_lt_toLex.mpr (.inr ⟨?_, Prod.Lex.toLex_lt_toLex.mpr (.inl h)⟩)
  simp only [callsLeft, hcall]

/-- A wait that looks again leaves less. -/
theorem measure_lt_of_missed (hcall : w'.call = w.call) (hwork : c.workLeft w' = c.workLeft w)
    (h : (c.missedWaits w').card < (c.missedWaits w).card) : c.measure m w' < c.measure m w := by
  refine Prod.Lex.toLex_lt_toLex.mpr (.inr ⟨?_, Prod.Lex.toLex_lt_toLex.mpr (.inr ⟨hwork, h⟩)⟩)
  simp only [callsLeft, hcall]

/-- A step that does none of this leaves as much. -/
theorem measure_eq (hcall : w'.call = w.call) (hwork : c.workLeft w' = c.workLeft w)
    (hmissed : c.missedWaits w' = c.missedWaits w) : c.measure m w' = c.measure m w := by
  simp only [measure, callsLeft, hcall, hwork, hmissed]

/-! ### Kernels -/

/-- A rank that takes no step keeps the state of its kernel. -/
theorem kernel_fire_of_ne {r : ℕ} (hdisp : ∀ b, a ≠ .dispatch r b) (hcomb : ∀ b, a ≠ .combine r b)
    (hadv : ∀ q, a ≠ .advance q) :
    (c.fire w a).call r = w.call r ∧ (c.fire w a).disp (r, w.call r) = w.disp (r, w.call r) ∧
      (c.fire w a).comb (r, w.call r) = w.comb (r, w.call r) := by
  rw [call_fire, disp_fire, comb_fire]
  cases a with
  | dispatch q b =>
    have hne : (r, w.call r) ≠ (q, w.call q) := fun heq => hdisp b (by rw [(Prod.mk.inj heq).1])
    exact ⟨rfl, Function.update_of_ne hne .., rfl⟩
  | combine q b =>
    have hne : (r, w.call r) ≠ (q, w.call q) := fun heq => hcomb b (by rw [(Prod.mk.inj heq).1])
    exact ⟨rfl, rfl, Function.update_of_ne hne ..⟩
  | deliver q ctx => exact ⟨rfl, rfl, rfl⟩
  | advance q => exact absurd rfl (hadv q)

/-- Then it has as much left. -/
theorem kernelLeft_fire_of_ne (hv : c.Sound) (hl : c.Launches w) {r : ℕ} (hr : r < c.numRanks)
    (hdisp : ∀ b, a ≠ .dispatch r b) (hcomb : ∀ b, a ≠ .combine r b) (hadv : ∀ q, a ≠ .advance q) :
    c.kernelLeft (c.fire w a) r = c.kernelLeft w r := by
  obtain ⟨hcall, hd, hc⟩ := kernel_fire_of_ne (c := c) (w := w) hdisp hcomb hadv
  cases hkind : (c.calls (w.call r)).kind with
  | dispatch => simp only [kernelLeft, hcall, hkind, hd]
  | combine =>
    simp only [kernelLeft, hcall, hkind, hc,
      combineLaunch_fire hv a hr (hl.hasCall r hr) le_rfl hkind]

/-- A step of `dispatch` leaves what its kernel has left. -/
theorem kernelLeft_fire_dispatch {r : ℕ} (hkind : (c.calls (w.call r)).kind = .dispatch)
    (b : Dispatch.Action) :
    c.kernelLeft (c.fire w (.dispatch r b)) r =
      Dispatch.stepsLeft (c.launch r (w.call r))
        (Dispatch.fire (c.launch r (w.call r)) (w.disp (r, w.call r)) b) := by
  have hcall : (c.fire w (.dispatch r b)).call = w.call := call_fire ..
  simp only [kernelLeft, hcall, hkind, disp_fire_self]

/-- A step of `combine` leaves what its kernel has left. -/
theorem kernelLeft_fire_combine (hv : c.Sound) (hl : c.Launches w) {r : ℕ} (hr : r < c.numRanks)
    (hkind : (c.calls (w.call r)).kind = .combine) (b : Combine.Action) :
    c.kernelLeft (c.fire w (.combine r b)) r =
      Combine.stepsLeft (c.combineLaunch w r (w.call r))
        (Combine.fire (c.combineLaunch w r (w.call r)) (w.comb (r, w.call r)) b) := by
  have hcall : (c.fire w (.combine r b)).call = w.call := call_fire ..
  simp only [kernelLeft, hcall, hkind, comb_fire_self,
    combineLaunch_fire hv _ hr (hl.hasCall r hr) le_rfl hkind]

/-- The other ranks have as much left. -/
theorem kernelLeft_fire_other (hv : c.Sound) (hl : c.Launches w) {r q : ℕ} (hq : q < c.numRanks)
    (hne : q ≠ r) (ha : (∃ b, a = .dispatch r b) ∨ ∃ b, a = .combine r b) :
    c.kernelLeft (c.fire w a) q = c.kernelLeft w q := by
  refine kernelLeft_fire_of_ne hv hl hq ?_ ?_ ?_
  · rintro b rfl
    rcases ha with ⟨b', heq⟩ | ⟨b', heq⟩ <;> cases heq
    exact hne rfl
  · rintro b rfl
    rcases ha with ⟨b', heq⟩ | ⟨b', heq⟩ <;> cases heq
    exact hne rfl
  · rintro p rfl
    rcases ha with ⟨b', heq⟩ | ⟨b', heq⟩ <;> cases heq

/-- The ranks together have less left when one of them has. -/
theorem sum_kernelLeft_lt (hv : c.Sound) (hl : c.Launches w) {r : ℕ} (hr : r < c.numRanks)
    (ha : (∃ b, a = .dispatch r b) ∨ ∃ b, a = .combine r b)
    (hlt : c.kernelLeft (c.fire w a) r < c.kernelLeft w r) :
    ∑ q ∈ Finset.range c.numRanks, c.kernelLeft (c.fire w a) q <
      ∑ q ∈ Finset.range c.numRanks, c.kernelLeft w q := by
  refine Finset.sum_lt_sum (fun q hq => ?_) ⟨r, Finset.mem_range.mpr hr, hlt⟩
  by_cases hqr : q = r
  · rw [hqr]
    exact hlt.le
  · exact (kernelLeft_fire_other hv hl (Finset.mem_range.mp hq) hqr ha).le

/-- They have as much left when it has. -/
theorem sum_kernelLeft_eq (hv : c.Sound) (hl : c.Launches w) {r : ℕ}
    (ha : (∃ b, a = .dispatch r b) ∨ ∃ b, a = .combine r b)
    (heq : c.kernelLeft (c.fire w a) r = c.kernelLeft w r) :
    ∑ q ∈ Finset.range c.numRanks, c.kernelLeft (c.fire w a) q =
      ∑ q ∈ Finset.range c.numRanks, c.kernelLeft w q := by
  refine Finset.sum_congr rfl fun q hq => ?_
  by_cases hqr : q = r
  · rw [hqr, heq]
  · exact kernelLeft_fire_other hv hl (Finset.mem_range.mp hq) hqr ha

/-! ### Queues -/

/-- The queue pairs that the kernels post to are counted. -/
theorem mem_queues {r e : ℕ} (hr : r < c.numRanks) (he : e < c.numExperts) :
    (r, c.ctx e) ∈ c.queues :=
  Finset.mem_product.mpr ⟨Finset.mem_range.mpr hr,
    Finset.mem_image_of_mem _ (Finset.mem_range.mpr he)⟩

/-- A step of a kernel posts at most one work request. -/
theorem queued_fire_le (hv : c.Sound) (hl : c.Launches w) (hen : c.enabled w a)
    (hdeliver : ∀ r ctx, a ≠ .deliver r ctx) :
    ∑ q ∈ c.queues, ((c.fire w a).nic q).length ≤ ∑ q ∈ c.queues, (w.nic q).length + 1 := by
  cases hreq : a.request with
  | none =>
    rw [nic_fire_none hreq hdeliver]
    exact Nat.le_succ _
  | some y =>
    obtain ⟨r, q⟩ := y
    obtain ⟨hr, he, -⟩ := hl.of_request hv hen hreq
    rw [nic_fire_request hv hl hen hreq]
    split
    · -- One queue gets longer by one.
      have hmem := mem_queues hr he
      rw [← Finset.add_sum_erase _ _ hmem, ← Finset.add_sum_erase _ _ hmem, Function.update_self,
        List.length_append, List.length_singleton]
      have hrest : ∀ q' ∈ c.queues.erase (r, c.ctx (c.requestExpert (w.call r) r q)),
          (Function.update w.nic (r, c.ctx (c.requestExpert (w.call r) r q))
            (w.nic (r, c.ctx (c.requestExpert (w.call r) r q)) ++
              [c.requestWqe w (w.call r) r q]) q').length = (w.nic q').length := by
        intro q' hq'
        rw [Function.update_of_ne (Finset.ne_of_mem_erase hq')]
      rw [Finset.sum_congr rfl hrest]
      omega
    · exact Nat.le_succ _

/-- The network card takes one out. -/
theorem queued_deliver_lt (hq : c.Queues w) {r ctx : ℕ} (hen : c.enabled w (.deliver r ctx)) :
    ∑ q ∈ c.queues, ((c.fire w (.deliver r ctx)).nic q).length <
      ∑ q ∈ c.queues, (w.nic q).length := by
  obtain ⟨x, rest, hnic⟩ := List.exists_cons_of_ne_nil hen
  have hx : x ∈ w.nic (r, ctx) := by
    rw [hnic]
    exact List.mem_cons_self ..
  have hmem := mem_queues (hq.rank r ctx x hx) (hq.expert r ctx x hx)
  rw [← hq.ctx_eq r ctx x hx] at hmem
  rw [nic_fire_deliver hnic]
  refine sum_update_lt List.length hmem ?_
  rw [hnic]
  exact Nat.lt_succ_self _

/-! ### Signals that have landed -/

/-- Only a request that is issued or executed lands anything. -/
theorem signalLanded_fire_quiet (hv : c.Sound) (hl : c.Launches w) (hq : c.Queues w)
    (hen : c.enabled w a) (hcall : (c.fire w a).call = w.call) (hreq : a.request = none)
    (hdeliver : ∀ r ctx, a ≠ .deliver r ctx) (r e : ℕ) :
    c.SignalLanded (c.fire w a) r e ↔ c.SignalLanded w r e := by
  unfold SignalLanded
  rw [hcall]
  exact hq.landed_fire_quiet hv hl hen hreq hdeliver _ _ _

/-- No signal is zero: `dispatch` sends the number of its tokens plus one, negated, and `combine`
sends one. -/
theorem signalValue_ne_zero (hv : c.Valid) {k r : ℕ} (hcall : c.HasCall k) (hr : r < c.numRanks)
    (e : ℕ) : c.signalValue k r e ≠ 0 := by
  unfold signalValue
  cases (c.calls k).kind with
  | dispatch =>
    have hle := (numTokensSent_le hv.sound hcall hr e).trans (hv.sound.numTokens_le hcall hr)
    have hrows := hv.rows_lt
    have hM := Nat.le_mul_of_pos_left c.numMaxDispatchTokensPerRank hv.numExperts_pos
    simp only
    rw [toInt32_of_range (by omega) (by omega)]
    omega
  | combine => exact one_ne_zero

/-- A signal word that is waited for is not zero exactly when its signal has landed. -/
theorem sig_ne_zero_iff (hv : c.Valid) (halt : c.Alternates) (h : c.system.Reachable w) {r e : ℕ}
    (hr : r < c.numRanks) (he : e < c.numExperts) :
    w.sig (c.calls (w.call r)).buf
        (c.fabric.recvSignal (c.calls (w.call r)).buf r (c.waitCell (w.call r) e)) ≠ 0 ↔
      c.SignalLanded w r e := by
  have hl := launches_of_reachable hv.sound h
  have hs := signals_of_reachable hv.sound h
  have hi := waitCell_lt hv.sound he (m := w.call r)
  obtain ⟨hsender, hexpert⟩ := cell_of_waitCell hv.sound he (m := w.call r) (r := r)
  -- The handshake knows what is in the word.
  have hcurrent : (w.sigFrom (c.calls (w.call r)).buf
      (c.fabric.recvSignal (c.calls (w.call r)).buf r (c.waitCell (w.call r) e))).map Prod.fst =
        (c.view w).arrived (w.call r) ⟨r, hr⟩ ⟨_, hi⟩ :=
    (handshake_of_reachable hv halt h).current ⟨r, hr⟩ ⟨_, hi⟩
  have hlanded : c.SignalLanded w r e ↔
      (w.call r, (⟨r, hr⟩ : Fin c.numRanks), (⟨_, hi⟩ : Fin c.numExperts)) ∈ (c.view w).landed := by
    simp only [SignalLanded, view, Set.mem_ofPred_eq, hsender, hexpert]
  -- The word is the sum of what has arrived.
  rw [hlanded, hs.word _ (hl.hasCall r hr) r hr _ hi]
  constructor
  · -- Nothing has arrived, and the sum is zero.
    intro hne
    by_contra hnot
    rw [Handshake.State.arrived_of_notMem hnot, List.map_eq_nil_iff] at hcurrent
    rw [hcurrent] at hne
    exact hne rfl
  · -- One signal has arrived, and its value is not zero.
    intro hmem
    rw [Handshake.State.arrived_of_mem hmem] at hcurrent
    obtain ⟨x, hx, hxm⟩ := List.map_eq_singleton_iff.mp hcurrent
    have hvalue := hs.value _ r hr _ hi x (by rw [hx]; exact List.mem_singleton_self _)
    rw [hxm, hsender] at hvalue
    rw [hx, List.map_singleton, List.sum_singleton, hvalue, signalValue_range]
    exact signalValue_ne_zero hv (hl.hasCall r hr) (hv.div_lt he) _

/-! ### Polls -/

/-- A poll changes one program counter. -/
theorem fire_polled (hen : c.enabled w a) {r e : ℕ} (hpoll : polled a = some (r, e)) :
    (∃ b, (b = .miss e ∨ b = .retry e) ∧ a = .dispatch r b ∧
      Dispatch.enabled (c.launch r (w.call r)) (w.disp (r, w.call r)) b ∧
      (c.calls (w.call r)).kind = .dispatch) ∨
    ∃ b, (b = .miss e ∨ b = .retry e) ∧ a = .combine r b ∧
      Combine.enabled (c.combineLaunch w r (w.call r)) (w.comb (r, w.call r)) b ∧
      (c.calls (w.call r)).kind = .combine := by
  -- Only the polling actions qualify.
  cases a with
  | dispatch q b =>
    cases b with
    | miss e' =>
      cases hpoll
      exact .inl ⟨_, .inl rfl, rfl, hen.2.2.1, hen.2.1⟩
    | retry e' =>
      cases hpoll
      exact .inl ⟨_, .inr rfl, rfl, hen.2.2.1, hen.2.1⟩
    | _ => cases hpoll
  | combine q b =>
    cases b with
    | miss e' =>
      cases hpoll
      exact .inr ⟨_, .inl rfl, rfl, hen.2.2.1, hen.2.1⟩
    | retry e' =>
      cases hpoll
      exact .inr ⟨_, .inr rfl, rfl, hen.2.2.1, hen.2.1⟩
    | _ => cases hpoll
  | deliver => cases hpoll
  | advance => cases hpoll

/-- It is a poll of an expert's wait in the current call, and leaves memory and queues alone. -/
theorem quiet_of_polled (hen : c.enabled w a) {r e : ℕ} (hpoll : polled a = some (r, e)) :
    r < c.numRanks ∧ e < c.numExperts ∧ a.request = none ∧ (∀ q ctx, a ≠ .deliver q ctx) ∧
      (c.fire w a).call = w.call ∧ (c.fire w a).nic = w.nic ∧ (c.fire w a).sig = w.sig := by
  obtain ⟨b, hb, rfl, hben, -⟩ | ⟨b, hb, rfl, hben, -⟩ := fire_polled hen hpoll
  · rcases hb with rfl | rfl
    · exact ⟨hen.1, hben.2.1, rfl, by simp, rfl, rfl, rfl⟩
    · exact ⟨hen.1, hben.1, rfl, by simp, rfl, rfl, rfl⟩
  · rcases hb with rfl | rfl
    · exact ⟨hen.1, hben.1, rfl, by simp, rfl, rfl, rfl⟩
    · exact ⟨hen.1, hben.1, rfl, by simp, rfl, rfl, rfl⟩

/-- A poll is no work. -/
theorem workLeft_fire_polled (hv : c.Sound) (hl : c.Launches w) (hen : c.enabled w a) {r e : ℕ}
    (hpoll : polled a = some (r, e)) : c.workLeft (c.fire w a) = c.workLeft w := by
  obtain ⟨hr, -, -, -, -, hnic, -⟩ := quiet_of_polled hen hpoll
  unfold workLeft
  rw [hnic]
  obtain ⟨b, hb, rfl, hben, hkind⟩ | ⟨b, hb, rfl, hben, hkind⟩ := fire_polled hen hpoll
  · have hwait : b.isWait = true := by rcases hb with rfl | rfl <;> rfl
    rw [sum_kernelLeft_eq hv hl (.inl ⟨b, rfl⟩)]
    rw [kernelLeft_fire_dispatch hkind, Dispatch.stepsLeft_fire_wait hben hwait]
    simp only [kernelLeft, hkind]
  · have hwait : b.isWait = true := by rcases hb with rfl | rfl <;> rfl
    rw [sum_kernelLeft_eq hv hl (.inr ⟨b, rfl⟩)]
    rw [kernelLeft_fire_combine hv hl hr hkind, Combine.stepsLeft_fire_wait hben hwait]
    simp only [kernelLeft, hkind]

/-- A poll only touches its own wait. -/
theorem missed_fire_of_ne (hen : c.enabled w a) {r e q e' : ℕ} (hpoll : polled a = some (r, e))
    (hne : (q, e') ≠ (r, e)) : c.Missed (c.fire w a) q e' ↔ c.Missed w q e' := by
  have hcall := (quiet_of_polled hen hpoll).2.2.2.2.1
  unfold Missed
  rw [hcall]
  -- A polling step changes the wait of its own expert only.
  obtain ⟨b, hb, rfl, -, hkind⟩ | ⟨b, hb, rfl, -, hkind⟩ := fire_polled hen hpoll
  · rw [disp_fire, comb_fire]
    by_cases hq : q = r
    · subst hq
      have hee : e' ≠ e := fun heq => hne (by rw [heq])
      simp only [hkind, Function.update_self]
      rcases hb with rfl | rfl <;> simp only [Dispatch.fire, Function.update_of_ne hee]
    · have hpair : (q, w.call q) ≠ (r, w.call r) := fun heq => hq (Prod.mk.inj heq).1
      simp only [Function.update_of_ne hpair]
  · rw [disp_fire, comb_fire]
    by_cases hq : q = r
    · subst hq
      have hee : e' ≠ e := fun heq => hne (by rw [heq])
      simp only [hkind, Function.update_self]
      rcases hb with rfl | rfl <;> simp only [Combine.fire, Function.update_of_ne hee]
    · have hpair : (q, w.call q) ≠ (r, w.call r) := fun heq => hq (Prod.mk.inj heq).1
      simp only [Function.update_of_ne hpair]

/-- Only a poll is idle, and only of a wait whose signal has not landed. -/
theorem polled_of_idle (hv : c.Valid) (halt : c.Alternates) (h : c.system.Reachable w)
    (hen : c.enabled w a) (hidle : c.Idle w a) :
    ∃ r e, polled a = some (r, e) ∧ ¬c.SignalLanded w r e := by
  cases a with
  | dispatch r b =>
    cases b with
    | miss e =>
      -- A word that is read as zero has not been signalled.
      obtain ⟨hr, hkind, ⟨-, he, -⟩, hread⟩ := hen
      refine ⟨r, e, rfl, fun hland => (sig_ne_zero_iff hv halt h hr he).mpr hland ?_⟩
      simp only [waitCell, hkind]
      exact hread _ rfl
    | retry e => exact ⟨r, e, rfl, hidle⟩
    | _ => exact absurd hidle not_false
  | combine r b =>
    cases b with
    | miss e =>
      obtain ⟨hr, hkind, ⟨he, -⟩, hread⟩ := hen
      refine ⟨r, e, rfl, fun hland => (sig_ne_zero_iff hv halt h hr he).mpr hland ?_⟩
      simp only [waitCell, hkind]
      exact hread _ rfl
    | retry e => exact ⟨r, e, rfl, hidle⟩
    | _ => exact absurd hidle not_false
  | deliver => exact absurd hidle not_false
  | advance => exact absurd hidle not_false

/-- The measure stays when a wait is polled whose signal has not landed. -/
theorem measure_fire_idle (hv : c.Valid) (halt : c.Alternates) (h : c.system.Reachable w)
    (hen : c.enabled w a) (hidle : c.Idle w a) : c.measure m (c.fire w a) = c.measure m w := by
  have hl := launches_of_reachable hv.sound h
  have hq := queues_of_reachable hv.sound h
  obtain ⟨r, e, hpoll, hnot⟩ := polled_of_idle hv halt h hen hidle
  obtain ⟨-, -, hreq, hdeliver, hcall, -, -⟩ := quiet_of_polled hen hpoll
  refine measure_eq hcall (workLeft_fire_polled hv.sound hl hen hpoll) ?_
  ext x
  rw [mem_missedWaits, mem_missedWaits,
    signalLanded_fire_quiet hv.sound hl hq hen hcall hreq hdeliver]
  by_cases hx : (x.1, x.2) = (r, e)
  · obtain ⟨hr, he⟩ := Prod.mk.inj hx
    rw [hr, he]
    exact iff_of_false (fun hand => hnot hand.2.2) (fun hand => hnot hand.2.2)
  · rw [missed_fire_of_ne hen hpoll hx]

/-- It falls when a wait that missed its signal looks again. -/
theorem measure_fire_retry (hv : c.Valid) (h : c.system.Reachable w) {r e : ℕ}
    (hen : c.enabled w a) (ha : a = .dispatch r (.retry e) ∨ a = .combine r (.retry e))
    (hland : c.SignalLanded w r e) : c.measure m (c.fire w a) < c.measure m w := by
  have hl := launches_of_reachable hv.sound h
  have hq := queues_of_reachable hv.sound h
  have hpoll : polled a = some (r, e) := by rcases ha with rfl | rfl <;> rfl
  obtain ⟨hr, he, hreq, hdeliver, hcall, -, -⟩ := quiet_of_polled hen hpoll
  -- The wait that is tried again was missed, and is no longer.
  have hmissed : c.Missed w r e ∧ ¬c.Missed (c.fire w a) r e := by
    unfold Missed
    rw [hcall]
    rcases ha with rfl | rfl
    · rw [disp_fire_self]
      simp only [hen.2.1, Dispatch.fire, Function.update_self]
      exact ⟨hen.2.2.1.2.1, by decide⟩
    · rw [comb_fire_self]
      simp only [hen.2.1, Combine.fire, Function.update_self]
      exact ⟨hen.2.2.1.2.1, by decide⟩
  refine measure_lt_of_missed hcall (workLeft_fire_polled hv.sound hl hen hpoll) ?_
  -- The measure counts the missed waits whose signal is there.
  refine Finset.card_lt_card (Finset.ssubset_iff_of_subset ?_ |>.mpr ⟨(r, e), ?_, ?_⟩)
  · intro x hx
    obtain ⟨hmem, hmiss, hx⟩ := mem_missedWaits.mp hx
    rw [signalLanded_fire_quiet hv.sound hl hq hen hcall hreq hdeliver] at hx
    have hne : (x.1, x.2) ≠ (r, e) := by
      intro heq
      obtain ⟨hr, he⟩ := Prod.mk.inj heq
      rw [hr, he] at hmiss
      exact hmissed.2 hmiss
    exact mem_missedWaits.mpr ⟨hmem, (missed_fire_of_ne hen hpoll hne).mp hmiss, hx⟩
  · exact mem_missedWaits.mpr ⟨⟨hr, he⟩, hmissed.1, hland⟩
  · exact fun hx => hmissed.2 (mem_missedWaits.mp hx).2.1

/-- A step of a kernel that is no poll brings it closer to its end. -/
theorem workLeft_fire_lt (hv : c.Sound) (hl : c.Launches w) (hen : c.enabled w a) {r : ℕ}
    (ha : (∃ b : Dispatch.Action, a = .dispatch r b ∧ b.isWait = false) ∨
      ∃ b : Combine.Action, a = .combine r b ∧ b.isWait = false) :
    c.workLeft (c.fire w a) < c.workLeft w := by
  have hkernels : ∑ q ∈ Finset.range c.numRanks, c.kernelLeft (c.fire w a) q <
      ∑ q ∈ Finset.range c.numRanks, c.kernelLeft w q := by
    obtain ⟨b, rfl, hwait⟩ | ⟨b, rfl, hwait⟩ := ha
    · obtain ⟨hr, hkind, hben, -⟩ := hen
      refine sum_kernelLeft_lt hv hl hr (.inl ⟨b, rfl⟩) ?_
      rw [kernelLeft_fire_dispatch hkind]
      simp only [kernelLeft, hkind]
      exact Dispatch.stepsLeft_fire_lt (hl.disp r hr _ le_rfl hkind) hben hwait
    · obtain ⟨hr, hkind, hben, -⟩ := hen
      refine sum_kernelLeft_lt hv hl hr (.inr ⟨b, rfl⟩) ?_
      rw [kernelLeft_fire_combine hv hl hr hkind]
      simp only [kernelLeft, hkind]
      exact Combine.stepsLeft_fire_lt hben hwait
  have hqueues := queued_fire_le hv hl hen fun q ctx heq => by
    rcases ha with ⟨b, rfl, -⟩ | ⟨b, rfl, -⟩ <;> cases heq
  unfold workLeft
  omega

/-- The network card takes work out of a queue. -/
theorem workLeft_fire_deliver (hv : c.Sound) (hl : c.Launches w) (hq : c.Queues w) {r ctx : ℕ}
    (hen : c.enabled w (.deliver r ctx)) :
    c.workLeft (c.fire w (.deliver r ctx)) < c.workLeft w := by
  have hkernels : ∑ q ∈ Finset.range c.numRanks, c.kernelLeft (c.fire w (.deliver r ctx)) q =
      ∑ q ∈ Finset.range c.numRanks, c.kernelLeft w q :=
    Finset.sum_congr rfl fun q hq =>
      kernelLeft_fire_of_ne hv hl (Finset.mem_range.mp hq) (by simp) (by simp) (by simp)
  have hqueues := queued_deliver_lt hq hen
  unfold workLeft
  omega

/-- Every step that leads on makes the measure fall, as long as no rank goes on after call `m + 1`.
-/
theorem measure_fire_lt (hv : c.Valid) (h : c.system.Reachable w)
    (hen : c.enabled w a) (hidle : ¬c.Idle w a) (hadv : ∀ r, a = .advance r → w.call r ≤ m + 1) :
    c.measure m (c.fire w a) < c.measure m w := by
  have hl := launches_of_reachable hv.sound h
  -- Work inside a kernel makes the kernel's measure smaller.
  cases a with
  | dispatch r b =>
    cases hwait : b.isWait with
    | false =>
      exact measure_lt_of_work (call_fire ..)
        (workLeft_fire_lt hv.sound hl hen (.inl ⟨b, rfl, hwait⟩))
    | true =>
      -- Among the waits, a timeout is impossible, and a retry counts as progress here.
      cases b with
      | miss e => exact absurd trivial hidle
      | expire e =>
        exact absurd (hv.input _ (hl.hasCall r hen.1) r hen.1).timeoutTicks hen.2.2.1.2.2
      | retry e => exact measure_fire_retry hv h hen (.inl rfl) (not_not.mp hidle)
      | _ => cases hwait
  | combine r b =>
    cases hwait : b.isWait with
    | false =>
      exact measure_lt_of_work (call_fire ..)
        (workLeft_fire_lt hv.sound hl hen (.inr ⟨b, rfl, hwait⟩))
    | true =>
      cases b with
      | miss e => exact absurd trivial hidle
      | expire e =>
        exact absurd (hv.input _ (hl.hasCall r hen.1) r hen.1).timeoutTicks hen.2.2.1.2.2
      | retry e => exact measure_fire_retry hv h hen (.inr rfl) (not_not.mp hidle)
      | _ => cases hwait
  | deliver r ctx =>
    -- A delivery shortens its queue.
    exact measure_lt_of_work (call_fire ..)
      (workLeft_fire_deliver hv.sound hl (queues_of_reachable hv.sound h) hen)
  | advance r =>
    -- At the end of a call one call less is left.
    refine measure_lt_of_call ?_
    unfold callsLeft
    rw [call_fire]
    have hle := hadv r rfl
    exact sum_update_lt (m + 2 - ·) (Finset.mem_range.mpr hen.1) (by omega)

/-! ### What an idle step leaves enabled -/

/-- A wait whose signal has not landed takes only idle steps. -/
theorem waiter_ne_of_dispatch (hv : c.Valid) (halt : c.Alternates)
    (h : c.system.Reachable w) {r e : ℕ}
    {b : Dispatch.Action} (hen : c.enabled w (.dispatch r b)) (hidle : ¬c.Idle w (.dispatch r b))
    (hnot : ¬c.SignalLanded w r e) : b.waiter ≠ some e := by
  have hl := launches_of_reachable hv.sound h
  obtain ⟨hr, hkind, hben, hread⟩ := hen
  intro hwait
  cases b with
  | acquire e' v =>
    cases hwait
    refine hnot ((sig_ne_zero_iff hv halt h hr hben.2.1).mp ?_)
    simp only [waitCell, hkind]
    exact (hread _ rfl).trans_ne hben.2.2.2
  | miss e' => exact hidle trivial
  | expire e' => exact hben.2.2 (hv.input _ (hl.hasCall r hr) r hr).timeoutTicks
  | giveUp e' =>
    have hactive :=
      (hl.active hv r hr _ le_rfl).1 hkind (e' / (c.launch r (w.call r)).numLocalExperts)
    exact one_ne_zero (hactive.symm.trans hben.2.2)
  | retry e' =>
    cases hwait
    exact hidle hnot
  | _ => cases hwait

/-- A step of `combine` that leads on is no wait for a signal that has yet to land. -/
theorem waiter_ne_of_combine (hv : c.Valid) (halt : c.Alternates)
    (h : c.system.Reachable w) {r e : ℕ}
    {b : Combine.Action} (hen : c.enabled w (.combine r b)) (hidle : ¬c.Idle w (.combine r b))
    (hnot : ¬c.SignalLanded w r e) : b.waiter ≠ some e := by
  have hl := launches_of_reachable hv.sound h
  obtain ⟨hr, hkind, hben, hread⟩ := hen
  intro hwait
  cases b with
  | acquire e' v =>
    cases hwait
    refine hnot ((sig_ne_zero_iff hv halt h hr hben.1).mp ?_)
    simp only [waitCell, hkind]
    exact (hread _ rfl).trans_ne hben.2.2.2
  | miss e' => exact hidle trivial
  | expire e' => exact hben.2.2 (hv.input _ (hl.hasCall r hr) r hr).timeoutTicks
  | giveUp e' =>
    have hactive :=
      (hl.active hv r hr _ le_rfl).2 hkind (e' / (c.launch r (w.call r)).numLocalExperts)
    exact one_ne_zero (hactive.symm.trans hben.2.2)
  | retry e' =>
    cases hwait
    exact hidle hnot
  | _ => cases hwait

/-- A kernel that polls a signal wait has not finished. -/
theorem not_done_of_polled (hl : c.Launches w) (hen : c.enabled w a) {r e : ℕ}
    (hpoll : polled a = some (r, e)) : ¬c.KernelDone w r := by
  intro hdone
  obtain ⟨hr, he, -⟩ := quiet_of_polled hen hpoll
  obtain ⟨b, hb, -, hben, hkind⟩ | ⟨b, hb, -, hben, hkind⟩ := fire_polled hen hpoll
  · have hready := (hdone.1 hkind).ready e he
    rcases hb with rfl | rfl
    · rw [hben.2.2] at hready
      cases hready
    · rw [hben.2.1] at hready
      cases hready
  · have hpassed :=
      (Combine.order_of_runs (hl.comb r hr _ le_rfl hkind)).passed (hdone.2 hkind).1 e he
    rcases hb with rfl | rfl
    · rw [hben.2.1] at hpassed
      cases hpassed
    · rw [hben.2.1] at hpassed
      cases hpassed

/-- An action reads the same words when signals and calls are the same. -/
theorem readsSignal_congr (hcall : w'.call = w.call) (hsig : w'.sig = w.sig) {r : ℕ} {b : Action}
    (hread : c.ReadsSignal w r b) : c.ReadsSignal w' r b := by
  unfold ReadsSignal
  rw [hcall, hsig]
  exact hread

/-- A step that leads on stays enabled when a wait is polled whose signal has not landed. -/
theorem enabled_fire_idle (hv : c.Valid) (halt : c.Alternates) (h : c.system.Reachable w)
    (hen : c.enabled w a) (hidle : c.Idle w a) {b : Action} (hb : c.enabled w b)
    (hbi : ¬c.Idle w b) : c.enabled (c.fire w a) b := by
  have hl := launches_of_reachable hv.sound h
  obtain ⟨r, e, hpoll, hnot⟩ := polled_of_idle hv halt h hen hidle
  obtain ⟨hr, -, -, -, hcall, hnic, hsig⟩ := quiet_of_polled hen hpoll
  have hpolled := fire_polled hen hpoll
  have hadv : ∀ q, a ≠ .advance q := by
    rintro q rfl
    cases hpoll
  -- The other ranks keep their kernels.
  have hother : ∀ q, q ≠ r → (c.fire w a).disp (q, w.call q) = w.disp (q, w.call q) ∧
      (c.fire w a).comb (q, w.call q) = w.comb (q, w.call q) := by
    intro q hq
    refine (kernel_fire_of_ne (c := c) (w := w) ?_ ?_ hadv).2
    · rintro d rfl
      rcases hpolled with ⟨d', -, heq, -⟩ | ⟨d', -, heq, -⟩ <;> cases heq
      exact hq rfl
    · rintro d rfl
      rcases hpolled with ⟨d', -, heq, -⟩ | ⟨d', -, heq, -⟩ <;> cases heq
      exact hq rfl
  cases b with
  | dispatch q b =>
    have hne : q = r → b.waiter ≠ some e := by
      rintro rfl
      exact waiter_ne_of_dispatch hv halt h hb hbi hnot
    obtain ⟨hq, hkind, hben, hread⟩ := hb
    refine ⟨hq, by rw [hcall]; exact hkind, ?_, readsSignal_congr hcall hsig hread⟩
    rw [hcall]
    by_cases hqr : q = r
    · subst hqr
      obtain ⟨d, hd, rfl, hden, -⟩ | ⟨d, -, -, -, hk⟩ := hpolled
      · rw [disp_fire_self]
        exact Dispatch.enabled_fire_poll hd hden hben (hne rfl)
      · rw [hkind] at hk
        cases hk
    · rw [(hother q hqr).1]
      exact hben
  | combine q b =>
    have hne : q = r → b.waiter ≠ some e := by
      rintro rfl
      exact waiter_ne_of_combine hv halt h hb hbi hnot
    obtain ⟨hq, hkind, hben, hread⟩ := hb
    refine ⟨hq, by rw [hcall]; exact hkind, ?_, readsSignal_congr hcall hsig hread⟩
    rw [hcall, combineLaunch_fire hv.sound a hq (hl.hasCall q hq) le_rfl hkind]
    by_cases hqr : q = r
    · subst hqr
      obtain ⟨d, -, -, -, hk⟩ | ⟨d, hd, rfl, hden, -⟩ := hpolled
      · rw [hkind] at hk
        cases hk
      · rw [comb_fire_self]
        exact Combine.enabled_fire_poll hd hden hben (hne rfl)
    · rw [(hother q hqr).2]
      exact hben
  | deliver q ctx =>
    show (c.fire w a).nic (q, ctx) ≠ []
    rw [hnic]
    exact hb
  | advance q =>
    obtain ⟨hq, hnext, hdone⟩ := hb
    have hqr : q ≠ r := by
      rintro rfl
      exact not_done_of_polled hl hen hpoll hdone
    refine ⟨hq, by rw [hcall]; exact hnext, ?_⟩
    unfold KernelDone
    rw [hcall, (hother q hqr).1, (hother q hqr).2]
    refine ⟨hdone.1, fun hkind => ?_⟩
    rw [combineLaunch_fire hv.sound a hq (hl.hasCall q hq) le_rfl hkind]
    exact hdone.2 hkind

/-- Nor does it become idle. -/
theorem idle_of_idle_fire (hv : c.Valid) (halt : c.Alternates) (h : c.system.Reachable w)
    (hen : c.enabled w a) (hidle : c.Idle w a) {b : Action} (hb : c.Idle (c.fire w a) b) :
    c.Idle w b := by
  obtain ⟨r, e, hpoll, -⟩ := polled_of_idle hv halt h hen hidle
  obtain ⟨-, -, hreq, hdeliver, hcall, -⟩ := quiet_of_polled hen hpoll
  have hiff := signalLanded_fire_quiet hv.sound (launches_of_reachable hv.sound h)
    (queues_of_reachable hv.sound h) hen hcall hreq hdeliver
  cases b with
  | dispatch q b =>
    cases b with
    | retry e' => exact fun hland => hb ((hiff q e').mpr hland)
    | _ => exact hb
  | combine q b =>
    cases b with
    | retry e' => exact fun hland => hb ((hiff q e').mpr hland)
    | _ => exact hb
  | _ => exact hb

end

end EpDemo.System.Config
