import EpDemo.Kernel.Stream
import EpDemo.Proofs.Kernel.CombineSend
import EpDemo.Proofs.Kernel.DispatchSend

/-!
# `EpDemo.Proofs.Kernel.Workspace`: the workspace is zero between the calls of a stream

The calls of a stream keep the discipline of `Library.Handover` (`discipline`). A `dispatch`
that starts on zero words accounts for its counters (`Accounting`) and a `combine` for its
flag (`Gate`), each with all other words at zero, so whichever overlay the next call uses
starts at zero (`stream_workspace_zero`). No call waits for a timeout in its SEND phase, so nothing
is assumed about timeouts.
-/

set_option autoImplicit false

namespace EpDemo.Kernel

open EpDemo.Library

/-! ### After the SEND phase -/

/-- A `dispatch` launch that has finished its SEND phase. -/
structure Dispatch.State.SendIdle (l : Launch) (s : Dispatch.State) : Prop where
  done : s.SendDone l
  inRange : ∀ t w, (s.token (t, w)).hasSlot = true → 0 ≤ l.dstExpertIdx t w

/-- After its SEND phase a `dispatch` launch leaves the workspace alone. -/
theorem Dispatch.State.SendIdle.fire {l : Launch} {s : Dispatch.State} (h : s.SendIdle l)
    {a : Dispatch.Action} (ha : Dispatch.enabled l s a) :
    (Dispatch.fire l s a).ws = s.ws ∧ (Dispatch.fire l s a).SendIdle l := by
  have hsend := h.done
  -- The warps that could still write to the workspace are past that point.
  cases a with
  | stage t w => exact absurd ha.2.2.1 ((hsend.tokens t ha.1 w ha.2.1).1 w ha.2.1)
  | reserve t w =>
    have hfin := (hsend.tokens t ha.1 w ha.2.1).2 ha.2.2.2.1
    exact absurd (hfin.symm.trans ha.2.2.1) (by decide)
  | send t w =>
    have hfin := (hsend.tokens t ha.1 w ha.2.1).2 (h.inRange t w (by rw [ha.2.2]; rfl))
    exact absurd (hfin.symm.trans ha.2.2) (by decide)
  | finish t w =>
    have hfin := (hsend.tokens t ha.1 w ha.2.1).2 (h.inRange t w (by rw [ha.2.2]; rfl))
    exact absurd (hfin.symm.trans ha.2.2) (by decide)
  | tag i => exact absurd ((hsend.tagged i ha.2.1).symm.trans ha.2.2.1) (by decide)
  | count e => exact absurd ((hsend.counted e ha.2.1).symm.trans ha.2.2.1) (by decide)
  | poll e => exact absurd ((hsend.signals e ha.1).symm.trans ha.2.1) (by decide)
  | signal e => exact absurd ((hsend.signals e ha.1).symm.trans ha.2) (by decide)
  | resetCounter e => exact absurd ((hsend.signals e ha.1).symm.trans ha.2) (by decide)
  | resetFinish e => exact absurd ((hsend.signals e ha.1).symm.trans ha.2) (by decide)
  | resetCount e => exact absurd ((hsend.signals e ha.1).symm.trans ha.2) (by decide)
  | _ => exact ⟨rfl, ⟨hsend.tokens, hsend.tagged, hsend.counted, hsend.signals⟩, h.inRange⟩

/-- After its SEND phase a `combine` launch leaves the workspace alone. -/
theorem Combine.State.SendDone.fire {l : CombineLaunch} {s : Combine.State} (h : s.SendDone l)
    {a : Combine.Action} (ha : Combine.enabled l s a) :
    (Combine.fire l s a).ws = s.ws ∧ (Combine.fire l s a).SendDone l := by
  cases a with
  | publish => exact absurd (h.1.symm.trans ha.1) (by decide)
  | «open» e => exact absurd ((h.2 e ha.1).symm.trans ha.2.1) (by decide)
  | signal e => exact absurd ((h.2 e ha.1).symm.trans ha.2) (by decide)
  | drop e => exact absurd ((h.2 e ha.1).symm.trans ha.2) (by decide)
  | _ => exact ⟨rfl, h⟩

/-! ### The discipline -/

namespace Call

/-- What the call that uses the workspace keeps. -/
def Counts (ws : ℕ → ℤ) : Call → Prop
  | .dispatch l s => Dispatch.Fits l ∧ Dispatch.Accounting l { s with ws := ws }
  | .combine l s => Combine.Gate l { s with ws := ws } ∧ ∀ i, i ≠ 0 → ws i = 0

/-- The call no longer uses the workspace. -/
def Idle : Call → Prop
  | .dispatch l s => s.SendIdle l
  | .combine l s => s.SendDone l

/-- A fresh call on a workspace of zeros has its counters right. -/
theorem counts_of_fresh {ws : ℕ → ℤ} {c : Call} (hws : ∀ i, ws i = 0) (hfresh : c.Fresh)
    (hacc : c.Accepted) : c.Counts ws := by
  cases c with
  | dispatch l s =>
    have hs : Dispatch.State.Fresh { s with ws := ws } :=
      ⟨hfresh.token, hfresh.cleaned, hfresh.tagged, hfresh.counted, hfresh.signal, hfresh.recving,
        hfresh.recv, hfresh.copied⟩
    exact ⟨⟨hacc.1, hacc.2.2.1, hacc.2.2.2⟩, .fresh hs hws⟩
  | combine l s =>
    have hs : Combine.State.Fresh { s with ws := ws } :=
      ⟨hfresh.cleaned, hfresh.published, hfresh.row, hfresh.signal, hfresh.recv, hfresh.reducing,
        hfresh.reduced, hfresh.stored⟩
    exact ⟨.fresh hs (hws 0), fun i _ => hws i⟩

/-- The steps of the call keep its counters. -/
theorem Counts.fire {ws : ℕ → ℤ} {c : Call} {a : CallAction} (h : c.Counts ws)
    (hen : enabled (ws, c) a) : (Call.fire (ws, c) a).2.Counts (Call.fire (ws, c) a).1 := by
  cases c with
  | dispatch l s =>
    cases a with
    | dispatch a => exact ⟨h.1, h.2.fire h.1 hen⟩
    | combine a => exact hen.elim
  | combine l s =>
    cases a with
    | dispatch a => exact hen.elim
    | combine a =>
      exact ⟨h.1.fire hen, fun i hi => (Combine.ws_fire_of_ne _ _ _ hi).trans (h.2 i hi)⟩

/-- The call leaves zero behind. -/
theorem Counts.release {ws : ℕ → ℤ} {c : Call} (h : c.Counts ws) (hdone : c.SendDone) :
    (∀ i, ws i = 0) ∧ c.Idle := by
  cases c with
  | dispatch l s =>
    exact ⟨h.2.ws_of_done hdone.signals, ⟨hdone, h.2.inRange⟩⟩
  | combine l s =>
    refine ⟨fun i => ?_, hdone⟩
    by_cases hi : i = 0
    · exact hi ▸ h.1.flag_of_sendDone hdone
    · exact h.2 i hi

/-- An idle call leaves the workspace alone and stays idle. -/
theorem Idle.fire {ws : ℕ → ℤ} {c : Call} {a : CallAction} (h : c.Idle)
    (hen : enabled (ws, c) a) : (Call.fire (ws, c) a).1 = ws ∧ (Call.fire (ws, c) a).2.Idle := by
  cases c with
  | dispatch l s =>
    cases a with
    | dispatch a =>
      have hs : Dispatch.State.SendIdle l { s with ws := ws } :=
        ⟨⟨h.done.tokens, h.done.tagged, h.done.counted, h.done.signals⟩, h.inRange⟩
      exact hs.fire hen
    | combine a => exact hen.elim
  | combine l s =>
    cases a with
    | dispatch a => exact hen.elim
    | combine a =>
      have hs : Combine.State.SendDone l { s with ws := ws } := h
      exact hs.fire hen

end Call

/-- A call hands the workspace over when its SEND phase is done. -/
theorem released_iff (c : Call) : callsInTurn.released c ↔ c.SendDone := Iff.rfl

/-- The calls of a stream hand the workspace over at zero. -/
theorem discipline :
    callsInTurn.Discipline (fun ws => ∀ i, ws i = 0) (fun ws c => c.Counts ws) Call.Idle where
  starts _ _ hws hc := Call.counts_of_fresh hws hc.1 hc.2
  fire _ _ _ h hen := h.fire hen
  released _ _ h hdone := h.release hdone
  idle _ _ _ h hen := h.fire hen

/-- The shared workspace returns to zero, for every sequence of accepted calls of either kind
and every interleaving: when the newest call has completed its SEND phase every word is zero,
and the next call finds every word at zero. -/
theorem stream_workspace_zero (p : Handover.State (ℕ → ℤ) Call) (hp : stream.Reachable p) :
    (∀ c rest, p.tasks = c :: rest → c.SendDone → ∀ i, p.resource i = 0) ∧
    (∀ c p', stream.step p (.launch c) p' → ∀ i, p'.resource i = 0) :=
  ⟨fun _ _ htasks hdone => discipline.clean_of_released (fun _ h => h) hp htasks hdone,
    fun _ _ hstep => discipline.clean_of_launch (fun _ h => h) hp hstep⟩

/-! ### A stream of two calls -/

/-- The SEND phase of `oneToken`. -/
def dispatchSend : List CallAction :=
  let experts := List.range 9
  let acts : List Dispatch.Action :=
    experts.map .poll ++ experts.map .signal ++ experts.map .resetCounter ++
      experts.map .resetFinish ++ experts.map .resetCount
  (Dispatch.oneTokenSend ++ acts).map .dispatch

/-- The SEND phase of `twoExperts`. -/
def combineSend : List CallAction :=
  let acts : List Combine.Action :=
    [.clean 0, .clean 1, .publish, .open 0, .signal 0, .drop 0, .open 1, .signal 1, .drop 1]
  acts.map .combine

/-- The workspace and the first call after its SEND phase. -/
def afterDispatch : (ℕ → ℤ) × Call :=
  Call.machine.exec (fun _ => 0, .dispatch Dispatch.oneToken Dispatch.start) dispatchSend

/-- The workspace and the second call after its SEND phase. -/
def afterCombine : (ℕ → ℤ) × Call :=
  Call.machine.exec (afterDispatch.1, .combine Combine.twoExperts Combine.start) combineSend

/-- The dispatch runs to the end of its SEND phase. -/
theorem reachable_afterDispatch : stream.Reachable ⟨afterDispatch.1, [afterDispatch.2]⟩ := by
  have hinit : stream.Reachable ⟨fun _ => 0, []⟩ := .init ⟨fun _ => rfl, rfl⟩
  have hstart : callsInTurn.starts (.dispatch Dispatch.oneToken Dispatch.start) :=
    ⟨Dispatch.start_fresh, by decide⟩
  have hlaunch := Handover.reachable_launch hinit hstart fun _ hu => absurd hu List.not_mem_nil
  exact Handover.reachable_exec dispatchSend hlaunch (by decide +kernel)

/-- There its SEND phase is done. -/
theorem afterDispatch_sendDone : afterDispatch.2.SendDone := by decide +kernel

/-- The combine takes the workspace over and runs to the end of its own SEND phase. -/
theorem reachable_afterCombine :
    stream.Reachable ⟨afterCombine.1, [afterCombine.2, afterDispatch.2]⟩ := by
  have hstart : callsInTurn.starts (.combine Combine.twoExperts Combine.start) :=
    ⟨Combine.start_fresh, by decide⟩
  have hrel : ∀ u ∈ [afterDispatch.2], callsInTurn.released u := by
    intro u hu
    rw [List.mem_singleton.mp hu, released_iff]
    with_reducible exact afterDispatch_sendDone
  have hlaunch := Handover.reachable_launch reachable_afterDispatch hstart hrel
  exact Handover.reachable_exec combineSend hlaunch (by decide +kernel)

/-- A `dispatch` with nine experts and a `combine` with two leave the workspace at zero. -/
theorem stream_workspace_zero_twoCalls :
    (∀ i, afterCombine.1 i = 0) ∧
    (∀ c p', stream.step ⟨afterCombine.1, [afterCombine.2, afterDispatch.2]⟩ (.launch c) p' →
      ∀ i, p'.resource i = 0) := by
  have h := stream_workspace_zero _ reachable_afterCombine
  exact ⟨h.1 _ _ rfl (by decide +kernel), h.2⟩

end EpDemo.Kernel
