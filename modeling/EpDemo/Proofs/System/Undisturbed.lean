import EpDemo.Proofs.System.DoubleBuffer

/-!
# `EpDemo.Proofs.System.Undisturbed`: runs in which calls on one buffer keep apart

What a call delivers does not depend on the alternation of the buffers as such, but on three
things that can go wrong in a step: a signal wait is ended by the signal of another call, a
message lands at a rank that is still in an earlier call on the same buffer, or a row is staged
over one that a queued write has yet to read. `Undisturbed` says that a step is none of these.
Every step is undisturbed when the buffers alternate (`reachable_undisturbed`).
-/

set_option autoImplicit false

namespace EpDemo.System

open EpDemo.Kernel EpDemo.Library

/-- The rank that writes to its send buffer. -/
def Action.staging : Action → Option ℕ
  | .dispatch r (.stage ..) => some r
  | .combine r (.stageRow ..) => some r
  | _ => none

namespace Config

variable {A : Type}

/-- A signal wait that ends has the signal of its own call, and in a `dispatch` no other one. -/
def OwnSignal (c : Config A) (w : World A) (a : Action) : Prop :=
  ∀ r e v, a.acquired = some (r, e, v) →
    w.call r ∈ (w.sigFrom (c.calls (w.call r)).buf
      (c.fabric.recvSignal (c.calls (w.call r)).buf r (c.waitCell (w.call r) e))).map Prod.fst ∧
    ((c.calls (w.call r)).kind = .dispatch →
      (w.sigFrom (c.calls (w.call r)).buf
        (c.fabric.recvSignal (c.calls (w.call r)).buf r (c.waitCell (w.call r) e))).map Prod.fst =
          [w.call r])

/-- The step does not mix up two calls on one buffer. -/
structure Undisturbed (c : Config A) (w : World A) (a : Action) : Prop where
  acquired : ∀ r e v, a.acquired = some (r, e, v) →
    w.call r ∈ (w.sigFrom (c.calls (w.call r)).buf
      (c.fabric.recvSignal (c.calls (w.call r)).buf r (c.waitCell (w.call r) e))).map Prod.fst ∧
    ((c.calls (w.call r)).kind = .dispatch →
      (w.sigFrom (c.calls (w.call r)).buf
        (c.fabric.recvSignal (c.calls (w.call r)).buf r (c.waitCell (w.call r) e))).map Prod.fst =
          [w.call r])
  landing : ∀ m r key content, c.Landing w a m r key content →
    m ≤ w.call (c.dataExpert m r key / c.numLocalExperts) ∨
      m = w.call (c.dataExpert m r key / c.numLocalExperts) + 1 ∧
        (c.calls m).buf ≠ (c.calls (w.call (c.dataExpert m r key / c.numLocalExperts))).buf
  staging : ∀ r, a.staging = some r → ∀ m key, c.Pending w m r (.data key) → m ≠ w.call r →
    (c.calls m).buf ≠ (c.calls (w.call r)).buf

/-- The runs of undisturbed steps. -/
def undisturbed (c : Config A) : TransitionSystem (World A) Action :=
  c.system.restrict c.Undisturbed

variable {c : Config A} {w : World A} {a : Action}

/-- An undisturbed run is a run. -/
theorem reachable_of_undisturbed (h : c.undisturbed.Reachable w) : c.system.Reachable w :=
  h.of_restrict

/-- A message or signal to a rank that has left the call has landed. -/
theorem landed_of_lt (hv : c.Valid) (halt : c.Alternates) (h : c.system.Reachable w) {m r e : ℕ}
    (hr : r < c.numRanks) (he : e < c.numExperts) (hlt : m < w.call (e / c.numLocalExperts)) :
    c.Landed w m r (.signal e) := by
  have hinv := handshake_of_reachable hv halt h
  have hcell := cell_of_sendCell hv (m := m) (e := e) hr
  have htaken := hinv.taken_of_lt m ⟨e / c.numLocalExperts, hv.div_lt he⟩ hlt
    ⟨c.sendCell m r e, sendCell_lt hv hr⟩
  have hland : c.Landed w m (c.cellSender m (c.sendCell m r e))
      (.signal (c.cellExpert m (e / c.numLocalExperts) (c.sendCell m r e))) :=
    hinv.landed_of_taken _ htaken
  rwa [hcell.1, hcell.2] at hland

/-- Alternating buffers keep calls apart. -/
theorem undisturbed_of_alternates (hv : c.Valid) (halt : c.Alternates) (h : c.system.Reachable w)
    (hen : c.enabled w a) : c.Undisturbed w a where
  acquired r e v hacq := by
    obtain ⟨hfrom, -, -⟩ := sigFrom_of_acquired hv halt h hen hacq
    rw [hfrom]
    exact ⟨List.mem_singleton_self _, fun _ => rfl⟩
  landing m r key content hland := by
    have hd := hv.div_lt hland.expert
    have hle := call_le_succ hv halt h hland.rank hd
    have hm := hland.call_le
    by_cases hcur : m ≤ w.call (c.dataExpert m r key / c.numLocalExperts)
    · exact .inl hcur
    · have heq : m = w.call (c.dataExpert m r key / c.numLocalExperts) + 1 := by omega
      have hcall := ((launches_of_reachable hv h).hasCall r hland.rank).of_le hm
      have hbuf := halt.buf_succ _ (heq ▸ hcall)
      rw [← heq] at hbuf
      exact .inr ⟨heq, hbuf⟩
  staging r hstage m key hp hne := by
    have hl := launches_of_reachable hv h
    have hq := queues_of_reachable hv h
    obtain ⟨x, hx, htag⟩ := id hp
    have hr := hq.rank r _ x hx
    have he := hq.expert r _ x hx
    rw [htag] at he
    have hle := hl.le_of_sent hr (hq.sent_of_pending hp)
    -- Two calls later the destination has left the call, and the message has landed.
    have hnext : w.call r = m + 1 := by
      by_contra hlater
      have hd := call_le_succ hv halt h hr (hv.div_lt he)
      have hland := landed_of_lt hv halt h (m := m) hr he (by
        have : c.requestExpert m r (.data key) = c.dataExpert m r key := rfl
        omega)
      exact hland.2 (hq.signalled m r _ hland.1 key rfl hp)
    have hcall := hl.hasCall r hr
    rw [hnext] at hcall ⊢
    exact (halt.buf_succ m hcall).symm

/-- With alternating buffers every run is undisturbed. -/
theorem reachable_undisturbed (hv : c.Valid) (halt : c.Alternates) (h : c.system.Reachable w) :
    c.undisturbed.Reachable w :=
  h.mono (T := c.system) (U := c.undisturbed) (fun _ hw => hw) fun _ _ _ hr hs =>
    ⟨undisturbed_of_alternates hv halt hr hs.1, hs⟩

/-- So it is for the runs from one state. -/
theorem startingAt_undisturbed {w₀ : World A} (hv : c.Valid) (halt : c.Alternates)
    (hw₀ : c.Init w₀) (h : (c.system.startingAt w₀).Reachable w) :
    (c.undisturbed.startingAt w₀).Reachable w :=
  h.mono (T := c.system.startingAt w₀) (U := c.undisturbed.startingAt w₀) (fun _ hw => hw)
    fun _ _ _ hr hs => ⟨undisturbed_of_alternates hv halt (hr.of_startingAt hw₀) hs.1, hs⟩

end Config

end EpDemo.System
