import EpDemo.Proofs.Kernel.CombineRun
import EpDemo.Proofs.Kernel.DispatchRun
import EpDemo.System.World

/-!
# `EpDemo.Proofs.System.Launches`: every launch of a run of the system is a run of its kernel

An action of the system moves the kernel state of one rank and call as the kernel's own
machine does, and a rank that goes to its next call leaves a zero workspace behind. So what
holds in the runs of one launch holds of every launch of the system (`Launches`), and a launch
that has ended does not change any more.
-/

set_option autoImplicit false

namespace EpDemo.System.Config

open EpDemo.Kernel EpDemo.Library

variable {A : Type} {c : Config A} {w : World A}

/-! ### What an effect leaves alone -/

/-- A transfer touches the queue or the data. -/
theorem transfer_eq (c : Config A) (w : World A) (r d ctx : ℕ) (key : ℕ × ℕ) (src dst : Ptr)
    (bytes : ℕ) (content : ℕ → Word) :
    c.transfer w r d ctx key src dst bytes content =
      { w with
        nic :=
          if c.fabric.path r d = .rdma then
            Function.update w.nic (r, ctx) (w.nic (r, ctx) ++
              [.write (w.call r) key (c.calls (w.call r)).buf src (c.fabric.target r d dst) bytes])
          else w.nic
        data :=
          if c.fabric.path r d = .rdma then w.data
          else Function.update w.data (c.calls (w.call r)).buf
            (writeWords (w.data (c.calls (w.call r)).buf) (c.fabric.target r d dst) (bytes / 4)
              content)
        dataFrom :=
          if c.fabric.path r d = .rdma then w.dataFrom
          else Function.update w.dataFrom (c.calls (w.call r)).buf
            (writeWords (w.dataFrom (c.calls (w.call r)).buf) (c.fabric.target r d dst) (bytes / 4)
              fun _ => some (w.call r)) } := by
  unfold transfer
  cases c.fabric.path r d <;> rfl

/-- A signal touches the queue or the signal word. -/
theorem signal_eq (c : Config A) (w : World A) (r d ctx e : ℕ) (dst : Ptr) (value : ℤ) :
    c.signal w r d ctx e dst value =
      { w with
        nic :=
          if c.fabric.path r d = .rdma then
            Function.update w.nic (r, ctx) (w.nic (r, ctx) ++
              [.atomicAdd (w.call r) e (c.calls (w.call r)).buf (c.fabric.target r d dst) value])
          else w.nic
        sig :=
          if c.fabric.path r d = .rdma then w.sig
          else Function.update w.sig (c.calls (w.call r)).buf
            (Function.update (w.sig (c.calls (w.call r)).buf) (c.fabric.target r d dst) value)
        sigFrom :=
          if c.fabric.path r d = .rdma then w.sigFrom
          else Function.update w.sigFrom (c.calls (w.call r)).buf
            (Function.update (w.sigFrom (c.calls (w.call r)).buf) (c.fabric.target r d dst)
              [(w.call r, value)]) } := by
  unfold signal
  cases c.fabric.path r d <;> rfl

/-- What `dispatch` does to the memory does not touch the kernels themselves. -/
theorem dispatchEffect_kernels (c : Config A) (w : World A) (r : ℕ) (a : Dispatch.Action) :
    (c.dispatchEffect w r a).call = w.call ∧ (c.dispatchEffect w r a).disp = w.disp ∧
      (c.dispatchEffect w r a).comb = w.comb := by
  cases a with
  | send t warp => simp only [dispatchEffect, transfer_eq, and_self]
  | signal e => simp only [dispatchEffect, signal_eq, and_self]
  | _ => exact ⟨rfl, rfl, rfl⟩

/-- The same for `combine`. -/
theorem combineEffect_kernels (c : Config A) (w : World A) (r : ℕ) (a : Combine.Action) :
    (c.combineEffect w r a).call = w.call ∧ (c.combineEffect w r a).disp = w.disp ∧
      (c.combineEffect w r a).comb = w.comb := by
  cases a with
  | sendRow e k => simp only [combineEffect, transfer_eq, and_self]
  | signal e => simp only [combineEffect, signal_eq, and_self]
  | _ => exact ⟨rfl, rfl, rfl⟩

/-- A network card executes a work request without a look at the kernels. -/
theorem execute_kernels (w : World A) (x : Wqe) :
    (w.execute x).call = w.call ∧ (w.execute x).disp = w.disp ∧ (w.execute x).comb = w.comb := by
  cases x <;> exact ⟨rfl, rfl, rfl⟩

/-- What `deliver` does. -/
theorem fire_deliver (c : Config A) (w : World A) (r ctx : ℕ) :
    (c.fire w (.deliver r ctx)).call = w.call ∧ (c.fire w (.deliver r ctx)).disp = w.disp ∧
      (c.fire w (.deliver r ctx)).comb = w.comb := by
  cases hq : w.nic (r, ctx) with
  | nil => simp only [fire, hq, and_self]
  | cons x rest =>
    simp only [fire, hq]
    exact execute_kernels w x

/-- Only `advance` moves a rank on. -/
theorem call_fire (c : Config A) (w : World A) (a : Action) :
    (c.fire w a).call =
      match a with
      | .advance r => Function.update w.call r (w.call r + 1)
      | _ => w.call := by
  cases a with
  | dispatch r a => exact (dispatchEffect_kernels c w r a).1
  | combine r a => exact (combineEffect_kernels c w r a).1
  | deliver r ctx => exact (fire_deliver c w r ctx).1
  | advance r => rfl

/-- No rank goes back. -/
theorem call_le_fire (c : Config A) (w : World A) (a : Action) (r : ℕ) :
    w.call r ≤ (c.fire w a).call r := by
  rw [call_fire]
  cases a with
  | advance r' =>
    by_cases hr : r = r'
    · subst hr
      simp
    · simp only [Function.update_of_ne hr, le_refl]
  | _ => exact le_rfl

/-- The kernel states of `dispatch` after an action. -/
theorem disp_fire (c : Config A) (w : World A) (a : Action) :
    (c.fire w a).disp =
      match a with
      | .dispatch r a => Function.update w.disp (r, w.call r)
          (Dispatch.fire (c.launch r (w.call r)) (w.disp (r, w.call r)) a)
      | .advance r => Function.update w.disp (r, w.call r + 1)
          { w.disp (r, w.call r + 1) with
            ws := (c.workspace w r).1, activeRanks := (c.workspace w r).2 }
      | _ => w.disp := by
  cases a with
  | dispatch r a => simp only [fire, (dispatchEffect_kernels c w r a).2.1]
  | combine r a => exact (combineEffect_kernels c w r a).2.1
  | deliver r ctx => exact (fire_deliver c w r ctx).2.1
  | advance r => rfl

/-- The kernel states of `combine` after an action. -/
theorem comb_fire (c : Config A) (w : World A) (a : Action) :
    (c.fire w a).comb =
      match a with
      | .combine r a => Function.update w.comb (r, w.call r)
          (Combine.fire (c.combineLaunch w r (w.call r)) (w.comb (r, w.call r)) a)
      | .advance r => Function.update w.comb (r, w.call r + 1)
          { w.comb (r, w.call r + 1) with
            ws := (c.workspace w r).1, activeRanks := (c.workspace w r).2 }
      | _ => w.comb := by
  cases a with
  | dispatch r a => exact (dispatchEffect_kernels c w r a).2.2
  | combine r a => simp only [fire, (combineEffect_kernels c w r a).2.2]
  | deliver r ctx => exact (fire_deliver c w r ctx).2.2
  | advance r => rfl

/-- A launch that has started changes by its own steps only. -/
theorem disp_fire_of_le (a : Action) {r m : ℕ} (hm : m ≤ w.call r)
    (hne : ∀ b, a = .dispatch r b → m ≠ w.call r) : (c.fire w a).disp (r, m) = w.disp (r, m) := by
  rw [disp_fire]
  cases a with
  | dispatch r' b =>
    refine Function.update_of_ne (fun heq => ?_) ..
    cases heq
    exact hne b rfl rfl
  | advance r' =>
    refine Function.update_of_ne (fun heq => ?_) ..
    cases heq
    omega
  | _ => rfl

/-- A launch that has started changes by its own steps only. -/
theorem comb_fire_of_le (a : Action) {r m : ℕ} (hm : m ≤ w.call r)
    (hne : ∀ b, a = .combine r b → m ≠ w.call r) : (c.fire w a).comb (r, m) = w.comb (r, m) := by
  rw [comb_fire]
  cases a with
  | combine r' b =>
    refine Function.update_of_ne (fun heq => ?_) ..
    cases heq
    exact hne b rfl rfl
  | advance r' =>
    refine Function.update_of_ne (fun heq => ?_) ..
    cases heq
    omega
  | _ => rfl

/-- A launch that has ended does not change. -/
theorem disp_fire_of_lt (a : Action) {r m : ℕ} (hm : m < w.call r) :
    (c.fire w a).disp (r, m) = w.disp (r, m) :=
  disp_fire_of_le a hm.le fun _ _ => hm.ne

/-- A `combine` that has ended does not change. -/
theorem comb_fire_of_lt (a : Action) {r m : ℕ} (hm : m < w.call r) :
    (c.fire w a).comb (r, m) = w.comb (r, m) :=
  comb_fire_of_le a hm.le fun _ _ => hm.ne

/-! ### Sizes -/

/-- The calls before a call are calls too. -/
theorem HasCall.of_le {m n : ℕ} (h : c.HasCall n) (hm : m ≤ n) : c.HasCall m :=
  fun k hk => hm.trans_lt (h k hk)

namespace Valid

/-- The experts are the local experts of all ranks. -/
theorem numExperts_eq (hv : c.Valid) : c.numRanks * c.numLocalExperts = c.numExperts :=
  Nat.mul_div_cancel' hv.dvd

/-- Every rank has an expert. -/
theorem numLocalExperts_pos (hv : c.Valid) : 0 < c.numLocalExperts :=
  Nat.div_pos (Nat.le_of_dvd hv.numExperts_pos hv.dvd) hv.numRanks_pos

/-- The rank of an expert. -/
theorem div_lt (hv : c.Valid) {e : ℕ} (he : e < c.numExperts) :
    e / c.numLocalExperts < c.numRanks := by
  rw [Nat.div_lt_iff_lt_mul hv.numLocalExperts_pos, hv.numExperts_eq]
  exact he

/-- The local index of an expert. -/
theorem mod_lt (hv : c.Valid) (e : ℕ) : e % c.numLocalExperts < c.numLocalExperts :=
  Nat.mod_lt _ hv.numLocalExperts_pos

/-- The expert of a rank and a local expert. -/
theorem expert_lt (hv : c.Valid) {d le : ℕ} (hd : d < c.numRanks) (hle : le < c.numLocalExperts) :
    d * c.numLocalExperts + le < c.numExperts := by
  rw [← hv.numExperts_eq]
  have := Nat.mul_le_mul_right c.numLocalExperts (Nat.succ_le_of_lt hd)
  rw [Nat.succ_mul] at this
  omega

/-- The input of every `dispatch` fits what its kernel assumes. -/
theorem fits (hv : c.Valid) {m r : ℕ} (hm : c.HasCall m) (hr : r < c.numRanks) :
    Dispatch.Fits (c.launch r m) :=
  ⟨(hv.input m hm r hr).numTopk_le, (hv.input m hm r hr).table_lt, (hv.input m hm r hr).entries_lt⟩

/-- With timeouts disabled the calls are sound. -/
theorem sound (hv : c.Valid) : c.Sound where
  hasCall := hv.hasCall
  numRanks_pos := hv.numRanks_pos
  numExperts_pos := hv.numExperts_pos
  dvd := hv.dvd
  numExperts_lt := hv.numExperts_lt
  rows_lt := hv.rows_lt
  mapped := hv.mapped
  input m hm r hr :=
    { hv.input m hm r hr with timeoutTicks := rfl }

instance : CoeOut c.Valid c.Sound := ⟨sound⟩

end Valid

/-! The sizes do not depend on the timeouts. -/

namespace Sound

/-- There is a first call. -/
theorem hasCall (hv : c.Sound) : c.HasCall 0 := Valid.hasCall (c := c.untimed) hv

/-- There is a rank. -/
theorem numRanks_pos (hv : c.Sound) : 0 < c.numRanks := Valid.numRanks_pos (c := c.untimed) hv

/-- The rows of an expert can be counted in an `int`. -/
theorem rows_lt (hv : c.Sound) : c.numExperts * c.numMaxDispatchTokensPerRank < 2 ^ 31 :=
  Valid.rows_lt (c := c.untimed) hv

/-- Every rank has mapped the memory of the others at the same offsets. -/
theorem mapped (hv : c.Sound) : c.fabric.Mapped := Valid.mapped (c := c.untimed) hv

/-- The experts are the local experts of all ranks. -/
theorem numExperts_eq (hv : c.Sound) : c.numRanks * c.numLocalExperts = c.numExperts :=
  Valid.numExperts_eq (c := c.untimed) hv

/-- Every rank has an expert. -/
theorem numLocalExperts_pos (hv : c.Sound) : 0 < c.numLocalExperts :=
  Valid.numLocalExperts_pos (c := c.untimed) hv

/-- The rank of an expert. -/
theorem div_lt (hv : c.Sound) {e : ℕ} (he : e < c.numExperts) :
    e / c.numLocalExperts < c.numRanks :=
  Valid.div_lt (c := c.untimed) hv he

/-- The local index of an expert. -/
theorem mod_lt (hv : c.Sound) (e : ℕ) : e % c.numLocalExperts < c.numLocalExperts :=
  Valid.mod_lt (c := c.untimed) hv e

/-- A rank and a local expert make the number of an expert. -/
theorem expert_lt (hv : c.Sound) {d le : ℕ} (hd : d < c.numRanks) (hle : le < c.numLocalExperts) :
    d * c.numLocalExperts + le < c.numExperts :=
  Valid.expert_lt (c := c.untimed) hv hd hle

/-- The input of every `dispatch` fits what its kernel assumes. -/
theorem fits (hv : c.Sound) {m r : ℕ} (hm : c.HasCall m) (hr : r < c.numRanks) :
    Dispatch.Fits (c.launch r m) :=
  let h := Valid.input (c := c.untimed) hv m hm r hr
  ⟨h.numTopk_le, h.table_lt, h.entries_lt⟩

/-- A rank has at most as many tokens as there are rows for it. -/
theorem numTokens_le (hv : c.Sound) {m r : ℕ} (hm : c.HasCall m) (hr : r < c.numRanks) :
    (c.launch r m).numTokens ≤ c.numMaxDispatchTokensPerRank :=
  (Valid.input (c := c.untimed) hv m hm r hr).numTokens_le

/-- No expert is repeated in the row of a token. -/
theorem distinct (hv : c.Sound) {m r : ℕ} (hm : c.HasCall m) (hr : r < c.numRanks) :
    ∀ t < (c.launch r m).numTokens, ∀ i < (c.launch r m).numTopk, ∀ j < (c.launch r m).numTopk,
      0 ≤ (c.launch r m).topk (t * (c.launch r m).numTopk + i) →
      (c.launch r m).topk (t * (c.launch r m).numTopk + i) =
        (c.launch r m).topk (t * (c.launch r m).numTopk + j) → i = j :=
  (Valid.input (c := c.untimed) hv m hm r hr).distinct

/-- A `combine` takes the results of an earlier `dispatch`. -/
theorem source (hv : c.Sound) {m r : ℕ} (hm : c.HasCall m) (hr : r < c.numRanks)
    (hkind : (c.calls m).kind = .combine) {k : ℕ} (hsrc : ((c.calls m).input r).source = .call k) :
    k < m ∧ (c.calls k).kind = .dispatch :=
  (Valid.input (c := c.untimed) hv m hm r hr).source hkind k hsrc

end Sound

/-! ### The launches of a run -/

/-- Every launch so far is a run of its kernel, those before the current one have ended, and
those after it have not begun. -/
structure Launches (c : Config A) (w : World A) : Prop where
  hasCall : ∀ r < c.numRanks, c.HasCall (w.call r)
  disp : ∀ r < c.numRanks, ∀ m ≤ w.call r, (c.calls m).kind = .dispatch →
    (Dispatch.runs (c.launch r m)).Reachable (w.disp (r, m))
  comb : ∀ r < c.numRanks, ∀ m ≤ w.call r, (c.calls m).kind = .combine →
    (Combine.runs (c.combineLaunch w r m)).Reachable (w.comb (r, m))
  dispDone : ∀ r < c.numRanks, ∀ m < w.call r, (c.calls m).kind = .dispatch →
    (w.disp (r, m)).Done (c.launch r m)
  combDone : ∀ r < c.numRanks, ∀ m < w.call r, (c.calls m).kind = .combine →
    (w.comb (r, m)).Done (c.combineLaunch w r m)
  future : ∀ r < c.numRanks, ∀ m, w.call r < m → (w.disp (r, m)).Fresh ∧ (w.comb (r, m)).Fresh
  /-- Without timeouts every rank is active. -/
  active : c.Valid → ∀ r < c.numRanks, ∀ m ≤ w.call r,
    ((c.calls m).kind = .dispatch → ∀ q, (w.disp (r, m)).activeRanks q = 1) ∧
    ((c.calls m).kind = .combine → ∀ q, (w.comb (r, m)).activeRanks q = 1)

/-- The arguments of a launch do not change while it runs, nor afterwards. -/
theorem combineLaunch_fire (hv : c.Sound) (a : Action) {r m : ℕ} (hr : r < c.numRanks)
    (hcall : c.HasCall m) (hm : m ≤ w.call r) (hkind : (c.calls m).kind = .combine) :
    c.combineLaunch (c.fire w a) r m = c.combineLaunch w r m := by
  have hlayout : c.layoutRange (c.fire w a) r m = c.layoutRange w r m := by
    unfold layoutRange
    cases hsrc : ((c.calls m).input r).source with
    | call k =>
      have hk := (hv.source hcall hr hkind hsrc).1
      simp only [disp_fire_of_lt a (hk.trans_le hm)]
    | given srcInfo layoutRange => rfl
  unfold combineLaunch
  rw [hlayout]

namespace Launches

/-- The workspace that the next launch finds is zero. -/
theorem workspace_zero (hv : c.Sound) (h : c.Launches w) {r : ℕ} (hr : r < c.numRanks)
    (hdone : c.KernelDone w r) (i : ℕ) : (c.workspace w r).1 i = 0 := by
  have hcall := h.hasCall r hr
  unfold workspace
  cases hkind : (c.calls (w.call r)).kind with
  | dispatch =>
    exact Dispatch.ws_of_recving (hv.fits hcall hr) (h.disp r hr _ le_rfl hkind)
      (hdone.1 hkind).recving i
  | combine => exact Combine.ws_of_reducing (h.comb r hr _ le_rfl hkind) (hdone.2 hkind).1 i

/-- Without timeouts the next launch finds every rank active. -/
theorem workspace_active (hv : c.Valid) (h : c.Launches w) {r : ℕ} (hr : r < c.numRanks) (q : ℕ) :
    (c.workspace w r).2 q = 1 := by
  unfold workspace
  cases hkind : (c.calls (w.call r)).kind with
  | dispatch => exact (h.active hv r hr _ le_rfl).1 hkind q
  | combine => exact (h.active hv r hr _ le_rfl).2 hkind q

/-- Before the first call no kernel has begun. -/
theorem of_allocated (hv : c.Sound) (hw : c.Allocated w) : c.Launches w := by
  have hstart : ∀ r, (w.disp (r, 0)).Starts ∧ (w.comb (r, 0)).Starts := fun r =>
    ⟨⟨hw.disp _, fun i => (hw.workspace r i).1⟩, ⟨hw.comb _, fun i => (hw.workspace r i).2⟩⟩
  -- Every rank is in its first call, and no kernel has made a step.
  constructor
  · intro r _
    rw [hw.call]
    exact hv.hasCall
  · intro r _ m hm _
    rw [hw.call, Nat.le_zero] at hm
    subst hm
    exact .init (hstart r).1
  · intro r _ m hm _
    rw [hw.call, Nat.le_zero] at hm
    subst hm
    exact .init (hstart r).2
  · intro r _ m hm
    simp [hw.call] at hm
  · intro r _ m hm
    simp [hw.call] at hm
  · exact fun r _ m _ => ⟨hw.disp _, hw.comb _⟩
  · intro _ r _ m hm
    rw [hw.call, Nat.le_zero] at hm
    subst hm
    -- The ranks that answer are those of the workspace.
    exact ⟨fun _ q => (hw.activeRanks r q).1, fun _ q => (hw.activeRanks r q).2⟩

/-- A rank goes to its next call. -/
theorem advance (hv : c.Sound) (h : c.Launches w) {r : ℕ} (hen : c.enabled w (.advance r)) :
    c.Launches (c.fire w (.advance r)) := by
  obtain ⟨hr, hnext, hdone⟩ := hen
  -- The next kernel starts with the workspace that this one leaves, which is zero.
  have hws := h.workspace_zero hv hr hdone
  have hself : (c.fire w (.advance r)).call r = w.call r + 1 := by
    rw [call_fire]
    exact Function.update_self ..
  have hother : ∀ q, q ≠ r → (c.fire w (.advance r)).call q = w.call q := fun q hq => by
    rw [call_fire]
    exact Function.update_of_ne hq ..
  -- Only the states of the next call are new.
  have hdisp : ∀ q m, (q, m) ≠ (r, w.call r + 1) →
      (c.fire w (.advance r)).disp (q, m) = w.disp (q, m) := fun q m hne => by
    rw [disp_fire]
    exact Function.update_of_ne hne ..
  have hcomb : ∀ q m, (q, m) ≠ (r, w.call r + 1) →
      (c.fire w (.advance r)).comb (q, m) = w.comb (q, m) := fun q m hne => by
    rw [comb_fire]
    exact Function.update_of_ne hne ..
  have hfresh := h.future r hr (w.call r + 1) (Nat.lt_succ_self _)
  -- For every other pair the old facts apply.
  have hle : ∀ q m, m ≤ (c.fire w (.advance r)).call q → (q, m) ≠ (r, w.call r + 1) →
      m ≤ w.call q := by
    intro q m hm hne
    by_cases hq : q = r
    · subst hq
      rw [hself] at hm
      have : m ≠ w.call q + 1 := fun heq => hne (by rw [heq])
      omega
    · rwa [hother q hq] at hm
  have hlt : ∀ q m, m < (c.fire w (.advance r)).call q →
      (q, m) ≠ (r, w.call r + 1) ∧ (m < w.call q ∨ q = r ∧ m = w.call r) := by
    intro q m hm
    by_cases hq : q = r
    · subst hq
      rw [hself] at hm
      refine ⟨fun heq => ?_, ?_⟩
      · cases heq
        omega
      · by_cases hm' : m = w.call q
        · exact .inr ⟨rfl, hm'⟩
        · exact .inl (by omega)
    · rw [hother q hq] at hm
      exact ⟨fun heq => hq (by cases heq; rfl), .inl hm⟩
  -- One by one: the call exists, the dispatch runs, the combine runs, what is done, and the
  -- future.
  refine ⟨?_, ?_, ?_, ?_, ?_, ?_, ?_⟩
  · intro q hq
    by_cases hqr : q = r
    · subst hqr
      rw [hself]
      exact hnext
    · rw [hother q hqr]
      exact h.hasCall q hq
  · intro q hq m hm hkind
    -- The next call is started from a fresh state.
    by_cases hne : (q, m) = (r, w.call r + 1)
    · cases hne
      refine .init ⟨?_, ?_⟩ <;> rw [disp_fire] <;> simp only [Function.update_self]
      · exact { hfresh.1 with }
      · exact hws
    · rw [hdisp q m hne]
      exact h.disp q hq m (hle q m hm hne) hkind
  · intro q hq m hm hkind
    -- The same for a combine call.
    by_cases hne : (q, m) = (r, w.call r + 1)
    · cases hne
      refine .init ⟨?_, ?_⟩ <;> rw [comb_fire] <;> simp only [Function.update_self]
      · exact { hfresh.2 with }
      · exact hws
    · have hm' := hle q m hm hne
      rw [hcomb q m hne, combineLaunch_fire hv _ hq ((h.hasCall q hq).of_le hm') hm' hkind]
      exact h.comb q hq m hm' hkind
  · intro q hq m hm hkind
    -- A call before the current one was done already, or is the one just finished.
    obtain ⟨hne, hcases⟩ := hlt q m hm
    rw [hdisp q m hne]
    cases hcases with
    | inl hm' => exact h.dispDone q hq m hm' hkind
    | inr heq =>
      obtain ⟨rfl, rfl⟩ := heq
      exact hdone.1 hkind
  · intro q hq m hm hkind
    obtain ⟨hne, hcases⟩ := hlt q m hm
    have hm' := hle q m hm.le hne
    rw [hcomb q m hne, combineLaunch_fire hv _ hq ((h.hasCall q hq).of_le hm') hm' hkind]
    cases hcases with
    | inl hm'' => exact h.combDone q hq m hm'' hkind
    | inr heq =>
      obtain ⟨rfl, rfl⟩ := heq
      exact hdone.2 hkind
  · intro q hq m hm
    -- Calls behind the next one are still untouched.
    have hm' : w.call q < m := (call_le_fire c w _ q).trans_lt hm
    have hne : (q, m) ≠ (r, w.call r + 1) := by
      intro heq
      cases heq
      rw [hself] at hm
      exact absurd hm (lt_irrefl _)
    rw [hdisp q m hne, hcomb q m hne]
    exact h.future q hq m hm'
  · intro hvalid q hq m hm
    -- A timeout of this call has not changed which ranks answer.
    by_cases hne : (q, m) = (r, w.call r + 1)
    · cases hne
      rw [disp_fire, comb_fire]
      simp only [Function.update_self]
      exact ⟨fun _ => h.workspace_active hvalid hr, fun _ => h.workspace_active hvalid hr⟩
    · rw [hdisp q m hne, hcomb q m hne]
      exact h.active hvalid q hq m (hle q m hm hne)

/-- Without timeouts no kernel step gives a rank up. -/
theorem active_fire (hv : c.Valid) (h : c.Launches w) {a : Action} (hen : c.enabled w a)
    (hadv : ∀ r, a ≠ .advance r) {r m : ℕ} (hr : r < c.numRanks) (hm : m ≤ w.call r) :
    ((c.calls m).kind = .dispatch → ∀ q, ((c.fire w a).disp (r, m)).activeRanks q = 1) ∧
    ((c.calls m).kind = .combine → ∀ q, ((c.fire w a).comb (r, m)).activeRanks q = 1) := by
  have hold := h.active hv r hr m hm
  rw [disp_fire, comb_fire]
  -- Only the kernel of the rank that moves can change its view of the ranks.
  cases a with
  | dispatch p a =>
    refine ⟨fun hkind => ?_, hold.2⟩
    by_cases hp : (r, m) = (p, w.call p)
    · cases hp
      simp only [Function.update_self]
      exact Dispatch.activeRanks_fire (hv.input _ (h.hasCall r hr) r hr).timeoutTicks (hold.1 hkind)
        hen.2.2.1
    · simp only [Function.update_of_ne hp]
      exact hold.1 hkind
  | combine p a =>
    refine ⟨hold.1, fun hkind => ?_⟩
    by_cases hp : (r, m) = (p, w.call p)
    · cases hp
      simp only [Function.update_self]
      exact Combine.activeRanks_fire (hv.input _ (h.hasCall r hr) r hr).timeoutTicks (hold.2 hkind)
        hen.2.2.1
    · simp only [Function.update_of_ne hp]
      exact hold.2 hkind
  | deliver p ctx => exact hold
  | advance p => exact absurd rfl (hadv p)

/-- Every step keeps the launches runs of their kernels. -/
theorem fire (hv : c.Sound) (h : c.Launches w) {a : Action} (hen : c.enabled w a) :
    c.Launches (c.fire w a) := by
  -- Within a call, the launches before and after the current ones stay what they are.
  have key : (c.fire w a).call = w.call →
      (∀ r < c.numRanks, (c.calls (w.call r)).kind = .dispatch →
        (Dispatch.runs (c.launch r (w.call r))).Reachable ((c.fire w a).disp (r, w.call r))) →
      (∀ r < c.numRanks, (c.calls (w.call r)).kind = .combine →
        (Combine.runs (c.combineLaunch w r (w.call r))).Reachable
          ((c.fire w a).comb (r, w.call r))) →
      (∀ r m, w.call r < m → (c.fire w a).disp (r, m) = w.disp (r, m) ∧
        (c.fire w a).comb (r, m) = w.comb (r, m)) → c.Launches (c.fire w a) := by
    intro hcall hdisp hcomb hfuture
    have hadv : ∀ r, a ≠ .advance r := by
      rintro r rfl
      have hmoved := congrFun hcall r
      rw [call_fire] at hmoved
      simp at hmoved
    refine ⟨by simpa only [hcall] using h.hasCall, ?_, ?_, ?_, ?_, ?_, ?_⟩
    · intro r hr m hm hkind
      rw [hcall] at hm
      cases hm.lt_or_eq with
      | inl hlt =>
        rw [disp_fire_of_lt a hlt]
        exact h.disp r hr m hm hkind
      | inr heq =>
        subst heq
        exact hdisp r hr hkind
    · intro r hr m hm hkind
      rw [hcall] at hm
      rw [combineLaunch_fire hv a hr ((h.hasCall r hr).of_le hm) hm hkind]
      cases hm.lt_or_eq with
      | inl hlt =>
        rw [comb_fire_of_lt a hlt]
        exact h.comb r hr m hm hkind
      | inr heq =>
        subst heq
        exact hcomb r hr hkind
    · intro r hr m hm hkind
      rw [hcall] at hm
      rw [disp_fire_of_lt a hm]
      exact h.dispDone r hr m hm hkind
    · intro r hr m hm hkind
      rw [hcall] at hm
      rw [combineLaunch_fire hv a hr ((h.hasCall r hr).of_le hm.le) hm.le hkind,
        comb_fire_of_lt a hm]
      exact h.combDone r hr m hm hkind
    · intro r hr m hm
      rw [hcall] at hm
      rw [(hfuture r m hm).1, (hfuture r m hm).2]
      exact h.future r hr m hm
    · intro hvalid r hr m hm
      rw [hcall] at hm
      exact h.active_fire hvalid hen hadv hr hm
  cases a with
  | dispatch r a =>
    obtain ⟨hr, hkind, hen, -⟩ := hen
    refine key (call_fire c w _) ?_ ?_ ?_
    · intro q hq hq'
      rw [disp_fire]
      by_cases hqr : q = r
      · subst hqr
        simp only [Function.update_self]
        exact .step (h.disp q hq _ le_rfl hq') ⟨hen, rfl⟩
      · have hne : (q, w.call q) ≠ (r, w.call r) := fun heq => hqr (by cases heq; rfl)
        simp only [Function.update_of_ne hne]
        exact h.disp q hq _ le_rfl hq'
    · intro q hq hq'
      rw [comb_fire]
      exact h.comb q hq _ le_rfl hq'
    · intro q m hm
      have hne : (q, m) ≠ (r, w.call r) := by
        rintro heq
        cases heq
        exact absurd hm (lt_irrefl _)
      rw [disp_fire, comb_fire]
      exact ⟨Function.update_of_ne hne .., rfl⟩
  | combine r a =>
    obtain ⟨hr, hkind, hen, -⟩ := hen
    refine key (call_fire c w _) ?_ ?_ ?_
    · intro q hq hq'
      rw [disp_fire]
      exact h.disp q hq _ le_rfl hq'
    · intro q hq hq'
      rw [comb_fire]
      by_cases hqr : q = r
      · subst hqr
        simp only [Function.update_self]
        exact .step (h.comb q hq _ le_rfl hq') ⟨hen, rfl⟩
      · have hne : (q, w.call q) ≠ (r, w.call r) := fun heq => hqr (by cases heq; rfl)
        simp only [Function.update_of_ne hne]
        exact h.comb q hq _ le_rfl hq'
    · intro q m hm
      have hne : (q, m) ≠ (r, w.call r) := by
        rintro heq
        cases heq
        exact absurd hm (lt_irrefl _)
      rw [disp_fire, comb_fire]
      exact ⟨rfl, Function.update_of_ne hne ..⟩
  | deliver r ctx =>
    obtain ⟨hcall, hdisp, hcomb⟩ := fire_deliver c w r ctx
    refine key hcall ?_ ?_ ?_
    · intro q hq hq'
      rw [hdisp]
      exact h.disp q hq _ le_rfl hq'
    · intro q hq hq'
      rw [hcomb]
      exact h.comb q hq _ le_rfl hq'
    · exact fun q m _ => ⟨by rw [hdisp], by rw [hcomb]⟩
  | advance r => exact h.advance hv hen

/-- A group that has a count belongs to a launch that has started. -/
theorem le_of_hasCount (h : c.Launches w) {d m e : ℕ} (hd : d < c.numRanks)
    (hcount : ((w.disp (d, m)).recv e).hasCount = true) : m ≤ w.call d := by
  by_contra hlt
  rw [(h.future d hd m (by omega)).1.recv] at hcount
  cases hcount

/-- So does a signal wait of a `combine` that has passed. -/
theorem le_of_passed (h : c.Launches w) {d m e : ℕ} (hd : d < c.numRanks)
    (hpassed : (w.comb (d, m)).recv e = .passed) : m ≤ w.call d := by
  by_contra hlt
  rw [(h.future d hd m (by omega)).2.recv] at hpassed
  cases hpassed

end Launches

/-- A state with zeroed receive signals is in particular one after the constructors. -/
theorem Init.allocated (hw : c.Init w) : c.Allocated w := { hw with }

/-- Every launch of a run is a run of its kernel, whatever the buffers hold at first. -/
theorem launches_of_run {init : World A → Prop} (hv : c.Sound) (hinit : ∀ w, init w → c.Allocated w)
    (h : (c.machine.system init).Reachable w) : c.Launches w := by
  refine h.invariant (fun _ hw => .of_allocated hv (hinit _ hw)) ?_
  rintro q a q' - hq ⟨hen, rfl⟩
  exact hq.fire hv hen

/-- Every launch of a run is a run of its kernel. -/
theorem launches_of_reachable (hv : c.Sound) (h : c.system.Reachable w) : c.Launches w :=
  launches_of_run hv (fun _ hw => hw.allocated) h

end EpDemo.System.Config
