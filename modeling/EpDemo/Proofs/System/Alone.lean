import EpDemo.Proofs.System.LateSignals
import EpDemo.Proofs.System.Progress

/-!
# `EpDemo.Proofs.System.Alone`: with a timeout a rank ends its call alone

A rank whose peers send nothing more, because they have crashed or the network has, is not stuck if
its call has a timeout. `ends_alone` gives the steps that end the call, all of them steps of its own
kernel: no other rank and no network card takes part. Nothing is assumed of the buffers, so the call
ends too when it reads signals of another call.
-/

set_option autoImplicit false

namespace EpDemo.System

open EpDemo.Kernel EpDemo.Library

/-- The rank whose kernel takes the step. -/
def Action.kernelOf : Action → Option ℕ
  | .dispatch r _ | .combine r _ => some r
  | _ => none

namespace Config

variable {A : Type} {c : Config A} {w : World A} {a : Action}

/-- What falls with every step that a rank takes towards the end of call `m` alone. -/
def aloneLeft (c : Config A) (r m : ℕ) (w : World A) : ℕ ×ₗ ℕ :=
  match (c.calls m).kind with
  | .dispatch => Dispatch.aloneLeft (c.launch r m) (w.disp (r, m))
  | .combine => Combine.aloneLeft (c.combineLaunch w r m) (w.comb (r, m))

/-- What the group for `e` reads when it polls its signal. -/
def signalWord (c : Config A) (w : World A) (r e : ℕ) : ℤ :=
  w.sig (c.calls (w.call r)).buf
    (c.fabric.recvSignal (c.calls (w.call r)).buf r (c.waitCell (w.call r) e))

/-- A step of `dispatch` that agrees with the signal words is a step of the system. -/
theorem readsSignal_dispatch {r : ℕ} {b : Dispatch.Action}
    (hkind : (c.calls (w.call r)).kind = .dispatch)
    (hacq : ∀ e x, b = .acquire e x → c.signalWord w r e = x)
    (hmiss : ∀ e, b = .miss e → c.signalWord w r e = 0) : c.ReadsSignal w r (.dispatch r b) := by
  simp only [signalWord, waitCell, hkind] at hacq hmiss
  intro x hx
  cases b with
  | acquire e v =>
    cases hx
    exact hacq e v rfl
  | miss e =>
    cases hx
    exact hmiss e rfl
  | _ => cases hx

/-- So is a step of `combine`. -/
theorem readsSignal_combine {r : ℕ} {b : Combine.Action}
    (hkind : (c.calls (w.call r)).kind = .combine)
    (hacq : ∀ e x, b = .acquire e x → c.signalWord w r e = x)
    (hmiss : ∀ e, b = .miss e → c.signalWord w r e = 0) : c.ReadsSignal w r (.combine r b) := by
  simp only [signalWord, waitCell, hkind] at hacq hmiss
  intro x hx
  cases b with
  | acquire e v =>
    cases hx
    exact hacq e v rfl
  | miss e =>
    cases hx
    exact hmiss e rfl
  | _ => cases hx

/-- A rank in a call with a timeout always has a step to the end of the call. -/
theorem exists_step_alone (hv : c.Sound) (hblocks : c.TwoBlocks) (h : c.system.Reachable w) {r : ℕ}
    (hr : r < c.numRanks) (htime : (c.launch r (w.call r)).timeoutTicks ≠ -1)
    (hdone : ¬c.KernelDone w r) :
    ∃ a, Action.kernelOf a = some r ∧ c.enabled w a ∧ (c.fire w a).call = w.call ∧
      c.aloneLeft r (w.call r) (c.fire w a) < c.aloneLeft r (w.call r) w := by
  have hl := launches_of_reachable hv h
  have hcall := hl.hasCall r hr
  -- The kernel of the current call of this rank has a step without the other ranks.
  cases hkind : (c.calls (w.call r)).kind with
  | dispatch =>
    have hnot : ¬(w.disp (r, w.call r)).Done (c.launch r (w.call r)) := by
      refine fun h => hdone ⟨fun _ => h, fun hk => ?_⟩
      rw [hkind] at hk
      cases hk
    -- A wait that the others do not answer is ended by the timeout.
    obtain ⟨b, hben, hacq, hmiss, hlt⟩ := Dispatch.exists_step_alone (hv.fits hcall hr)
      (hblocks _ hcall hkind) htime (hl.disp r hr _ le_rfl hkind) hnot (c.signalWord w r)
    refine ⟨.dispatch r b, rfl, ⟨hr, hkind, hben, readsSignal_dispatch hkind hacq hmiss⟩,
      call_fire .., ?_⟩
    simp only [aloneLeft, hkind, disp_fire_self]
    exact hlt
  | combine =>
    have hnot : ¬(w.comb (r, w.call r)).Done (c.combineLaunch w r (w.call r)) := by
      refine fun h => hdone ⟨fun hk => ?_, fun _ => h⟩
      rw [hkind] at hk
      cases hk
    obtain ⟨b, hben, hacq, hmiss, hlt⟩ := Combine.exists_step_alone
      (l := c.combineLaunch w r (w.call r)) (Valid.numExperts_lt (c := c.untimed) hv)
      (numSms_pos hv) htime (hl.comb r hr _ le_rfl hkind) hnot (c.signalWord w r)
    refine ⟨.combine r b, rfl, ⟨hr, hkind, hben, readsSignal_combine hkind hacq hmiss⟩,
      call_fire .., ?_⟩
    simp only [aloneLeft, hkind, comb_fire_self,
      combineLaunch_fire hv _ hr hcall le_rfl hkind]
    exact hlt

/-- A rank in a call with a timeout can end the call by steps of its own kernel only, from every
state of every run. -/
theorem ends_alone (c : Config A) (hv : c.Sound) (hblocks : c.TwoBlocks) (w : World A)
    (h : c.system.Reachable w) (r : ℕ) (hr : r < c.numRanks)
    (htime : (c.launch r (w.call r)).timeoutTicks ≠ -1) :
    ∃ acts : List Action, (∀ a ∈ acts, a.kernelOf = some r) ∧ c.machine.Legal w acts ∧
      c.CallDone (c.machine.exec w acts) r (w.call r) := by
  have hstep : ∀ v, c.system.Reachable v ∧ v.call r = w.call r → ¬c.CallDone v r (w.call r) →
      ∃ a, Action.kernelOf a = some r ∧ c.machine.enabled v a ∧
        (c.system.Reachable (c.machine.fire v a) ∧ (c.machine.fire v a).call r = w.call r) ∧
        c.aloneLeft r (w.call r) (c.machine.fire v a) < c.aloneLeft r (w.call r) v := by
    intro v hv' hgoal
    obtain ⟨hreach, hcall⟩ := hv'
    rw [← hcall] at htime hgoal ⊢
    obtain ⟨a, ha, hen, hsame, hlt⟩ := exists_step_alone hv hblocks hreach hr htime hgoal
    exact ⟨a, ha, hen, ⟨.step hreach ⟨hen, rfl⟩, congrFun hsame r⟩, hlt⟩
  exact Machine.exists_reaching _ hstep ⟨h, rfl⟩

/-- Rank 0 ends its first call although rank 1 does nothing. -/
theorem ends_alone_lateRanks :
    ∃ acts : List Action, (∀ a ∈ acts, a.kernelOf = some 0) ∧
      lateRanks.machine.Legal blank acts ∧
      lateRanks.CallDone (lateRanks.machine.exec blank acts) 0 0 :=
  ends_alone lateRanks lateRanks_sound (fun _ _ _ => (by decide : 1 < cellDiv 10 8)) blank
    (.init lateRanks_init) 0 (by decide) (by decide : (1000 : ℤ) ≠ -1)

end Config

end EpDemo.System
