import EpDemo.Proofs.System.Messages

/-!
# `EpDemo.Proofs.System.Queues`: what is in the send queues

A request has landed when it was issued and is not in its queue any more: either its path is a
plain store, or the network card has executed it. Messages and the signal of one expert share a
queue, so a signal lands after every message of the same call to its expert
(`Queues.data_landed`). Nothing here depends on how the calls use the buffers.
-/

set_option autoImplicit false

namespace EpDemo.System

open EpDemo.Kernel EpDemo.Library

/-- The call and the request that a work request belongs to. -/
def Wqe.tag : Wqe → ℕ × Request
  | .write m key .. => (m, .data key)
  | .atomicAdd m e .. => (m, .signal e)

namespace Config

variable {A : Type} (c : Config A)

/-- A request has been issued. -/
def Sent (w : World A) (m r : ℕ) : Request → Prop
  | .data key => c.DataSent w m r key
  | .signal e => c.SignalSent w m r e

/-- The work request of a request is in its queue. -/
def Pending (w : World A) (m r : ℕ) (q : Request) : Prop :=
  ∃ x ∈ w.nic (r, c.ctx (c.requestExpert m r q)), x.tag = (m, q)

/-- A request has been issued and executed. -/
def Landed (w : World A) (m r : ℕ) (q : Request) : Prop := c.Sent w m r q ∧ ¬c.Pending w m r q

/-- What the queues hold: requests that were issued, each once, and no message behind the
signal that follows it. -/
structure Queues (w : World A) : Prop where
  rank : ∀ r ctx, ∀ x ∈ w.nic (r, ctx), r < c.numRanks
  expert : ∀ r ctx, ∀ x ∈ w.nic (r, ctx), c.requestExpert x.tag.1 r x.tag.2 < c.numExperts
  path : ∀ r ctx, ∀ x ∈ w.nic (r, ctx),
    c.fabric.path r (c.requestExpert x.tag.1 r x.tag.2 / c.numLocalExperts) = .rdma
  ctx_eq : ∀ r ctx, ∀ x ∈ w.nic (r, ctx), ctx = c.ctx (c.requestExpert x.tag.1 r x.tag.2)
  sent : ∀ r ctx, ∀ x ∈ w.nic (r, ctx), c.Sent w x.tag.1 r x.tag.2
  wqe : ∀ r ctx, ∀ x ∈ w.nic (r, ctx), x = c.requestWqe w x.tag.1 r x.tag.2
  nodup : ∀ p, ((w.nic p).map Wqe.tag).Nodup
  order : ∀ r ctx, (w.nic (r, ctx)).Pairwise fun x y =>
    ∀ m e key, x.tag = (m, .signal e) → y.tag = (m, .data key) → c.dataExpert m r key ≠ e
  signalled : ∀ m r e, c.SignalSent w m r e → ∀ key, c.dataExpert m r key = e →
    c.Pending w m r (.data key) → c.Pending w m r (.signal e)

section

variable {c} {w : World A} {a : Action}

/-- A work request knows its call and what was asked for. -/
theorem requestWqe_tag (w : World A) (m r : ℕ) (q : Request) :
    (c.requestWqe w m r q).tag = (m, q) := by
  cases q <;> rfl

/-! ### What a step does to a queue -/

/-- A request goes to the end of its queue, if its destination is reached by the network. -/
theorem nic_fire_request (hv : c.Sound) (hl : c.Launches w) (hen : c.enabled w a) {r : ℕ}
    {q : Request} (hreq : a.request = some (r, q)) :
    (c.fire w a).nic =
      if c.fabric.path r (c.requestExpert (w.call r) r q / c.numLocalExperts) = .rdma then
        Function.update w.nic (r, c.ctx (c.requestExpert (w.call r) r q))
          (w.nic (r, c.ctx (c.requestExpert (w.call r) r q)) ++ [c.requestWqe w (w.call r) r q])
      else w.nic := by
  cases q with
  | data key =>
    rw [fire_data hen hreq, transfer_eq]
    rfl
  | signal e =>
    rw [fire_signal hv hl hen hreq, signal_eq]
    rfl

/-- The network card takes the oldest work request. -/
theorem nic_fire_deliver {r ctx : ℕ} {x : Wqe} {rest : List Wqe}
    (hq : w.nic (r, ctx) = x :: rest) :
    (c.fire w (.deliver r ctx)).nic = Function.update w.nic (r, ctx) rest := by
  rw [fire_deliver_cons hq]
  cases x <;> rfl

/-- Everything else leaves the queues alone. -/
theorem nic_fire_none (hreq : a.request = none) (hdeliver : ∀ r ctx, a ≠ .deliver r ctx) :
    (c.fire w a).nic = w.nic := by
  cases hclean : a.cleaned with
  | none => exact (fire_quiet hreq hclean hdeliver).1
  | some x =>
    rw [fire_cleaned (r := x.1) (i := x.2) hclean]
    rfl

/-! ### What has been issued stays as it is -/

/-- A step sends what it asks for, and what was sent stays sent. -/
theorem sent_fire (hen : c.enabled w a) (m r : ℕ) (q : Request) :
    c.Sent (c.fire w a) m r q ↔ c.Sent w m r q ∨ a.request = some (r, q) ∧ m = w.call r := by
  cases q with
  | data key => exact dataSent_fire hen m r key
  | signal e => exact signalSent_fire hen m r e

/-- What was issued belongs to a call that has started. -/
theorem Launches.le_of_sent (hl : c.Launches w) {m r : ℕ} {q : Request} (hr : r < c.numRanks)
    (hsent : c.Sent w m r q) : m ≤ w.call r := by
  by_contra hlt
  obtain ⟨hdisp, hcomb⟩ := hl.future r hr m (by omega)
  cases hkind : (c.calls m).kind <;> cases q <;>
    simp [Sent, DataSent, SignalSent, hkind, hdisp.token, hdisp.signal, hcomb.row, hcomb.signal,
      Dispatch.TokenPc.isSent, Dispatch.SignalPc.isSent, Combine.SignalPc.isSent] at hsent

/-- The source information of other launches does not change. -/
theorem srcInfo_fire_of_ne (a : Action) {r m : ℕ} (hm : m ≠ w.call r) :
    (c.fire w a).srcInfo (r, m) = w.srcInfo (r, m) := by
  -- The source indices of a call are only written while the rank is in that call.
  cases a with
  | dispatch r' a =>
    have hne : ∀ v : ℤ → ℤ,
        Function.update w.srcInfo (r', w.call r') v (r, m) = w.srcInfo (r, m) := by
      intro v
      refine Function.update_of_ne ?_ _ _
      intro heq
      cases heq
      exact hm rfl
    cases a with
    | send t warp => simp only [fire, dispatchEffect, transfer_eq]
    | signal e => simp only [fire, dispatchEffect, signal_eq]
    | copyRow e i => exact hne _
    | _ => rfl
  | combine r' a =>
    cases a with
    | sendRow e k => simp only [fire, combineEffect, transfer_eq]
    | signal e => simp only [fire, combineEffect, signal_eq]
    | _ => rfl
  | deliver r' ctx =>
    cases hq : w.nic (r', ctx) with
    | nil => simp only [fire, hq]
    | cons x rest =>
      rw [fire_deliver_cons hq]
      cases x <;> rfl
  | advance r' => rfl

/-- A message of `dispatch` that was issued has its slot. -/
theorem hasSlot_of_sent {m r : ℕ} {key : ℕ × ℕ} (hkind : (c.calls m).kind = .dispatch)
    (hsent : c.DataSent w m r key) : ((w.disp (r, m)).token key).hasSlot = true := by
  simp only [DataSent, hkind] at hsent
  revert hsent
  cases (w.disp (r, m)).token key <;> decide

/-- The work request of a request does not change once it has a slot. -/
theorem requestWqe_fire (hv : c.Sound) (hl : c.Launches w) (hen : c.enabled w a) {m r : ℕ}
    {q : Request} (hr : r < c.numRanks) (hle : m ≤ w.call r)
    (hslot : ∀ key, q = .data key → (c.calls m).kind = .dispatch →
      ((w.disp (r, m)).token key).hasSlot = true) :
    c.requestWqe (c.fire w a) m r q = c.requestWqe w m r q := by
  have hcall := (hl.hasCall r hr).of_le hle
  -- The element is determined by the slot of the message and by the launch, and both are fixed.
  cases q with
  | signal e => rfl
  | data key =>
    cases hkind : (c.calls m).kind with
    | dispatch =>
      have hsame : ((c.fire w a).disp (r, m)).slot key = (w.disp (r, m)).slot key := by
        by_cases hrun : ∃ b, a = .dispatch r b ∧ m = w.call r
        · obtain ⟨b, rfl, rfl⟩ := hrun
          rw [disp_fire_self]
          exact (Dispatch.hasSlot_mono hen.2.2.1 (hslot key rfl hkind)).2
        · rw [(disp_pc_fire a fun b hb hm => hrun ⟨b, hb, hm⟩).2.1]
      simp only [requestWqe, dataWqe, dataSrc, dataDst, dataOffset, hkind, hsame]
    | combine =>
      have hlaunch := combineLaunch_fire hv a hr hcall hle hkind
      have hrow : c.combineRow (c.fire w a) m r key = c.combineRow w m r key := by
        simp only [combineRow, hlaunch]
      have hinfo : c.srcInfo (c.fire w a) r m = c.srcInfo w r m := by
        unfold srcInfo
        cases hsrc : ((c.calls m).input r).source with
        | call k =>
          have hk := (hv.source hcall hr hkind hsrc).1
          exact srcInfo_fire_of_ne a (hk.trans_le hle).ne
        | given srcInfo layoutRange => rfl
      simp only [requestWqe, dataWqe, dataSrc, dataDst, dataOffset, hkind, hrow, hinfo]

/-- The work request of what was issued does not change. -/
theorem requestWqe_fire_of_sent (hv : c.Sound) (hl : c.Launches w) (hen : c.enabled w a) {m r : ℕ}
    {q : Request} (hr : r < c.numRanks) (hsent : c.Sent w m r q) :
    c.requestWqe (c.fire w a) m r q = c.requestWqe w m r q := by
  refine requestWqe_fire hv hl hen hr (hl.le_of_sent hr hsent) ?_
  rintro key rfl hkind
  exact hasSlot_of_sent hkind hsent

/-- The work request of what is issued does not change by that. -/
theorem requestWqe_fire_of_request (hv : c.Sound) (hl : c.Launches w) (hen : c.enabled w a) {r : ℕ}
    {q : Request} (hr : r < c.numRanks) (hreq : a.request = some (r, q)) :
    c.requestWqe (c.fire w a) (w.call r) r q = c.requestWqe w (w.call r) r q := by
  refine requestWqe_fire hv hl hen hr le_rfl ?_
  rintro key rfl hkind
  cases Action.request_data_iff.mp hreq with
  | inl ha =>
    subst ha
    rw [show (w.disp (r, w.call r)).token key = .reserved from hen.2.2.1.2.2]
    rfl
  | inr ha =>
    subst ha
    exact absurd (hkind.symm.trans hen.2.1) (by decide)

/-- What is issued belongs to a rank and an expert of the system, and is new. -/
theorem Launches.of_request (hv : c.Sound) (hl : c.Launches w) (hen : c.enabled w a) {r : ℕ}
    {q : Request} (hreq : a.request = some (r, q)) :
    r < c.numRanks ∧ c.requestExpert (w.call r) r q < c.numExperts ∧
      ¬c.Sent w (w.call r) r q := by
  cases q with
  | data key =>
    obtain ⟨hr, -, hnot, he⟩ := hl.of_request_data hv hen hreq
    exact ⟨hr, he, hnot⟩
  | signal e => exact of_request_signal hen hreq

/-! ### The invariant -/

namespace Queues

/-- Nothing has been posted before the first call. -/
theorem of_allocated (hw : c.Allocated w) : c.Queues w := by
  have hnone : ∀ m r q, ¬c.Pending w m r q := by
    rintro m r q ⟨x, hx, -⟩
    rw [hw.nic] at hx
    cases hx
  constructor <;> simp_all [hw.nic]

/-- What is in a queue is pending. -/
theorem pending_of_mem (h : c.Queues w) {r ctx : ℕ} {x : Wqe} (hx : x ∈ w.nic (r, ctx)) :
    c.Pending w x.tag.1 r x.tag.2 := by
  have hctx := h.ctx_eq r ctx x hx
  subst hctx
  exact ⟨x, hx, rfl⟩

/-- What is pending was issued. -/
theorem sent_of_pending (h : c.Queues w) {m r : ℕ} {q : Request} (hp : c.Pending w m r q) :
    c.Sent w m r q := by
  obtain ⟨x, hx, htag⟩ := hp
  have hsent := h.sent r _ x hx
  rwa [htag] at hsent

/-- What is pending goes through the network. -/
theorem path_of_pending (h : c.Queues w) {m r : ℕ} {q : Request} (hp : c.Pending w m r q) :
    c.fabric.path r (c.requestExpert m r q / c.numLocalExperts) = .rdma := by
  obtain ⟨x, hx, htag⟩ := hp
  have hpath := h.path r _ x hx
  rwa [htag] at hpath

/-- A request is issued. -/
theorem request (hv : c.Sound) (hl : c.Launches w) (h : c.Queues w) (hen : c.enabled w a) {r : ℕ}
    {q : Request} (hreq : a.request = some (r, q)) : c.Queues (c.fire w a) := by
  obtain ⟨hr, he, hnew⟩ := hl.of_request hv hen hreq
  have hnic := nic_fire_request hv hl hen hreq
  -- What is in a queue afterwards is the new request or was there before.
  have hmem : ∀ r' ctx, ∀ x ∈ (c.fire w a).nic (r', ctx),
      x ∈ w.nic (r', ctx) ∨ r' = r ∧ ctx = c.ctx (c.requestExpert (w.call r) r q) ∧
        x = c.requestWqe w (w.call r) r q ∧
        c.fabric.path r (c.requestExpert (w.call r) r q / c.numLocalExperts) = .rdma := by
    intro r' ctx x hx
    rw [hnic] at hx
    split at hx
    · rename_i hpath
      by_cases hp : (r', ctx) = (r, c.ctx (c.requestExpert (w.call r) r q))
      · rw [hp, Function.update_self, List.mem_append, List.mem_singleton] at hx
        cases hp
        exact hx.imp_right fun hx => ⟨rfl, rfl, hx, hpath⟩
      · rw [Function.update_of_ne hp] at hx
        exact .inl hx
    · exact .inl hx
  have hold : ∀ m r' q', c.Pending (c.fire w a) m r' q' →
      c.Pending w m r' q' ∨ r' = r ∧ m = w.call r ∧ q' = q := by
    rintro m r' q' ⟨x, hx, htag⟩
    cases hmem r' _ x hx with
    | inl hx => exact .inl ⟨x, hx, htag⟩
    | inr hx =>
      obtain ⟨rfl, -, rfl, -⟩ := hx
      rw [requestWqe_tag] at htag
      cases htag
      exact .inr ⟨rfl, rfl, rfl⟩
  have hmono : ∀ m r' q', c.Pending w m r' q' → c.Pending (c.fire w a) m r' q' := by
    rintro m r' q' ⟨x, hx, htag⟩
    refine ⟨x, ?_, htag⟩
    rw [hnic]
    split
    · by_cases hp : (r', c.ctx (c.requestExpert m r' q')) =
          (r, c.ctx (c.requestExpert (w.call r) r q))
      · rw [hp] at hx ⊢
        rw [Function.update_self]
        exact List.mem_append_left _ hx
      · rwa [Function.update_of_ne hp]
    · exact hx
  refine ⟨?_, ?_, ?_, ?_, ?_, ?_, ?_, ?_, ?_⟩
  · intro r' ctx x hx
    cases hmem r' ctx x hx with
    | inl hx => exact h.rank r' ctx x hx
    | inr hx => exact hx.1 ▸ hr
  · intro r' ctx x hx
    cases hmem r' ctx x hx with
    | inl hx => exact h.expert r' ctx x hx
    | inr hx =>
      obtain ⟨rfl, -, rfl, -⟩ := hx
      rwa [requestWqe_tag]
  · intro r' ctx x hx
    cases hmem r' ctx x hx with
    | inl hx => exact h.path r' ctx x hx
    | inr hx =>
      obtain ⟨rfl, -, rfl, hpath⟩ := hx
      rwa [requestWqe_tag]
  · intro r' ctx x hx
    cases hmem r' ctx x hx with
    | inl hx => exact h.ctx_eq r' ctx x hx
    | inr hx =>
      obtain ⟨rfl, hctx, rfl, -⟩ := hx
      rwa [requestWqe_tag]
  · intro r' ctx x hx
    rw [sent_fire hen]
    cases hmem r' ctx x hx with
    | inl hx => exact .inl (h.sent r' ctx x hx)
    | inr hx =>
      obtain ⟨rfl, -, rfl, -⟩ := hx
      rw [requestWqe_tag]
      exact .inr ⟨hreq, rfl⟩
  · intro r' ctx x hx
    cases hmem r' ctx x hx with
    | inl hx =>
      rw [requestWqe_fire_of_sent hv hl hen (h.rank r' ctx x hx) (h.sent r' ctx x hx)]
      exact h.wqe r' ctx x hx
    | inr hx =>
      obtain ⟨rfl, -, rfl, -⟩ := hx
      rw [requestWqe_tag, requestWqe_fire_of_request hv hl hen hr hreq]
  · intro p
    rw [hnic]
    split
    · by_cases hp : p = (r, c.ctx (c.requestExpert (w.call r) r q))
      · rw [hp, Function.update_self, List.map_append]
        refine List.Nodup.append (h.nodup _) (List.nodup_singleton _) ?_
        intro tag htag hmem'
        obtain ⟨x, hx, rfl⟩ := List.mem_map.mp htag
        rw [List.map_singleton, List.mem_singleton, requestWqe_tag] at hmem'
        have hsent := h.sent r _ x hx
        rw [hmem'] at hsent
        exact hnew hsent
      · rw [Function.update_of_ne hp]
        exact h.nodup p
    · exact h.nodup p
  · intro r' ctx
    rw [hnic]
    split
    · by_cases hp : (r', ctx) = (r, c.ctx (c.requestExpert (w.call r) r q))
      · rw [hp, Function.update_self, List.pairwise_append]
        cases hp
        refine ⟨h.order _ _, List.pairwise_singleton _ _, ?_⟩
        intro x hx y hy m e key hxtag hytag hexp
        rw [List.mem_singleton] at hy
        subst hy
        rw [requestWqe_tag] at hytag
        cases hytag
        have hsent := h.sent r _ x hx
        rw [hxtag] at hsent
        exact hl.not_signalSent hv hen hreq (hexp ▸ hsent)
      · rw [Function.update_of_ne hp]
        exact h.order r' ctx
    · exact h.order r' ctx
  · intro m r' e hsig key hkey hp
    cases hold m r' _ hp with
    | inl hp =>
      rw [signalSent_fire hen] at hsig
      cases hsig with
      | inl hsig => exact hmono _ _ _ (h.signalled m r' e hsig key hkey hp)
      | inr hsig =>
        -- The signal is issued now, and takes the path of its messages.
        obtain ⟨hsig, rfl⟩ := hsig
        rw [hreq] at hsig
        cases hsig
        have hpath := h.path_of_pending hp
        simp only [requestExpert, hkey] at hpath
        refine ⟨c.requestWqe w (w.call r) r (.signal e), ?_, requestWqe_tag ..⟩
        rw [hnic, if_pos (show c.fabric.path r
          (c.requestExpert (w.call r) r (.signal e) / c.numLocalExperts) = .rdma from hpath),
          Function.update_self]
        exact List.mem_append_right _ (List.mem_singleton_self _)
    | inr hp =>
      obtain ⟨rfl, rfl, rfl⟩ := hp
      have hnot := hl.not_signalSent hv hen hreq
      rw [signalSent_fire hen, hreq, hkey.symm] at hsig
      simp [hnot] at hsig

/-- The network card executes a work request. -/
theorem deliver (hv : c.Sound) (hl : c.Launches w) (h : c.Queues w) {r ctx : ℕ}
    (hen : c.enabled w (.deliver r ctx)) : c.Queues (c.fire w (.deliver r ctx)) := by
  obtain ⟨x, rest, hq⟩ := List.exists_cons_of_ne_nil hen
  have hnic := nic_fire_deliver (c := c) hq
  have hsub : ∀ p, ((c.fire w (.deliver r ctx)).nic p).Sublist (w.nic p) := by
    intro p
    rw [hnic]
    by_cases hp : p = (r, ctx)
    · rw [hp, Function.update_self, hq]
      exact List.sublist_cons_self ..
    · rw [Function.update_of_ne hp]
  have hmem : ∀ {p : ℕ × ℕ} {y : Wqe}, y ∈ (c.fire w (.deliver r ctx)).nic p → y ∈ w.nic p :=
    fun hy => (hsub _).subset hy
  have hsent : ∀ m r' q, c.Sent w m r' q → c.Sent (c.fire w (.deliver r ctx)) m r' q :=
    fun m r' q hs => (sent_fire hen m r' q).mpr (.inl hs)
  refine ⟨fun r' k y hy => h.rank r' k y (hmem hy), fun r' k y hy => h.expert r' k y (hmem hy),
    fun r' k y hy => h.path r' k y (hmem hy), fun r' k y hy => h.ctx_eq r' k y (hmem hy),
    fun r' k y hy => hsent _ _ _ (h.sent r' k y (hmem hy)), ?_, ?_, ?_, ?_⟩
  · intro r' k y hy
    rw [requestWqe_fire_of_sent hv hl hen (h.rank r' k y (hmem hy)) (h.sent r' k y (hmem hy))]
    exact h.wqe r' k y (hmem hy)
  · exact fun p => (h.nodup p).sublist ((hsub p).map _)
  · exact fun r' k => (h.order r' k).sublist (hsub _)
  · rintro m r' e hsig key hkey ⟨y, hy, htag⟩
    rw [signalSent_fire hen] at hsig
    have hsig : c.SignalSent w m r' e := by simpa [Action.request] using hsig
    obtain ⟨z, hz, hztag⟩ := h.signalled m r' e hsig key hkey ⟨y, hmem hy, htag⟩
    refine ⟨z, ?_, hztag⟩
    -- The signal is not the one that was taken, because the message is behind it.
    simp only [requestExpert, hkey] at hy hz ⊢
    rw [hnic] at hy ⊢
    by_cases hp : (r', c.ctx e) = (r, ctx)
    · have horder := h.order r' (c.ctx e)
      rw [hp, hq] at hz
      rw [hp, Function.update_self] at hy ⊢
      rw [hp, hq, List.pairwise_cons] at horder
      cases List.mem_cons.mp hz with
      | inl hzx =>
        subst hzx
        exact absurd hkey (horder.1 y hy m e key hztag htag)
      | inr hz => exact hz
    · rwa [Function.update_of_ne hp]

/-- An action that neither issues nor executes a request. -/
theorem quiet (hv : c.Sound) (hl : c.Launches w) (h : c.Queues w) (hen : c.enabled w a)
    (hreq : a.request = none) (hdeliver : ∀ r ctx, a ≠ .deliver r ctx) :
    c.Queues (c.fire w a) := by
  have hnic := nic_fire_none (c := c) (w := w) hreq hdeliver
  have hpending : ∀ m r q, c.Pending (c.fire w a) m r q ↔ c.Pending w m r q := fun m r q => by
    simp only [Pending, hnic]
  have hsent : ∀ m r q, c.Sent (c.fire w a) m r q ↔ c.Sent w m r q := fun m r q => by
    simp [sent_fire hen, hreq]
  refine ⟨?_, ?_, ?_, ?_, ?_, ?_, ?_, ?_, ?_⟩
  · simpa only [hnic] using h.rank
  · simpa only [hnic] using h.expert
  · simpa only [hnic] using h.path
  · simpa only [hnic] using h.ctx_eq
  · simpa only [hnic, hsent] using h.sent
  · intro r ctx x hx
    rw [hnic] at hx
    rw [requestWqe_fire_of_sent hv hl hen (h.rank r ctx x hx) (h.sent r ctx x hx)]
    exact h.wqe r ctx x hx
  · simpa only [hnic] using h.nodup
  · simpa only [hnic] using h.order
  · intro m r e hsig
    have hsig : c.SignalSent w m r e := (hsent m r (.signal e)).mp hsig
    simpa only [hpending] using h.signalled m r e hsig

/-- Every step keeps what the queues say. -/
theorem fire (hv : c.Sound) (hl : c.Launches w) (h : c.Queues w) (hen : c.enabled w a) :
    c.Queues (c.fire w a) := by
  cases hreq : a.request with
  | some x => exact h.request hv hl hen (r := x.1) (q := x.2) hreq
  | none =>
    by_cases hdeliver : ∃ r ctx, a = .deliver r ctx
    · obtain ⟨r, ctx, rfl⟩ := hdeliver
      exact h.deliver hv hl hen
    · exact h.quiet hv hl hen hreq fun r ctx ha => hdeliver ⟨r, ctx, ha⟩

/-! ### What has landed -/

/-- A signal lands after the messages that it announces. -/
theorem data_landed (hv : c.Sound) (hl : c.Launches w) (h : c.Queues w) {m r e : ℕ}
    (hr : r < c.numRanks) (he : e < c.numExperts) (hland : c.Landed w m r (.signal e))
    {key : ℕ × ℕ} (htask : c.Task w m r key) (hkey : c.dataExpert m r key = e) :
    c.Landed w m r (.data key) :=
  ⟨(hl.of_signalSent hv hr he hland.1).2.2 key htask hkey,
    fun hp => hland.2 (h.signalled m r e hland.1 key hkey hp)⟩

/-- A request lands when it is issued as a store or executed by the network card. -/
theorem landed_fire (hv : c.Sound) (hl : c.Launches w) (h : c.Queues w) (hen : c.enabled w a)
    (m r : ℕ) (q : Request) :
    c.Landed (c.fire w a) m r q ↔
      c.Landed w m r q ∨
      (a.request = some (r, q) ∧ m = w.call r ∧
        c.fabric.path r (c.requestExpert m r q / c.numLocalExperts) ≠ .rdma) ∨
      (∃ ctx x rest, a = .deliver r ctx ∧ w.nic (r, ctx) = x :: rest ∧ x.tag = (m, q)) := by
  unfold Landed
  rw [sent_fire hen]
  cases hreq : a.request with
  | some y =>
    obtain ⟨r', q'⟩ := y
    have hnodeliver : ∀ ctx, a ≠ .deliver r ctx := by
      rintro ctx rfl
      cases hreq
    have hnic := nic_fire_request hv hl hen hreq
    obtain ⟨hr', he', hnew⟩ := hl.of_request hv hen hreq
    simp only [hnodeliver, false_and, exists_false, or_false]
    by_cases heq : (r, m, q) = (r', w.call r', q')
    · cases heq
      -- The new request is pending exactly when it goes through the network.
      have hpend : c.Pending (c.fire w a) (w.call r) r q ↔
          c.fabric.path r (c.requestExpert (w.call r) r q / c.numLocalExperts) = .rdma := by
        constructor
        · intro hp
          by_contra hpath
          rw [if_neg hpath] at hnic
          simp only [Pending, hnic] at hp
          exact hnew (h.sent_of_pending hp)
        · intro hpath
          rw [if_pos hpath] at hnic
          refine ⟨c.requestWqe w (w.call r) r q, ?_, requestWqe_tag ..⟩
          rw [hnic, Function.update_self]
          exact List.mem_append_right _ (List.mem_singleton_self _)
      simp [hpend, hnew]
    · have hpend : c.Pending (c.fire w a) m r q ↔ c.Pending w m r q := by
        unfold Pending
        rw [hnic]
        split
        · by_cases hp : (r, c.ctx (c.requestExpert m r q)) =
              (r', c.ctx (c.requestExpert (w.call r') r' q'))
          · rw [hp, Function.update_self]
            constructor
            · rintro ⟨x, hx, htag⟩
              cases List.mem_append.mp hx with
              | inl hx => exact ⟨x, hx, htag⟩
              | inr hx =>
                rw [List.mem_singleton] at hx
                subst hx
                rw [requestWqe_tag] at htag
                cases htag
                exact absurd (by cases hp; rfl) heq
            · rintro ⟨x, hx, htag⟩
              exact ⟨x, List.mem_append_left _ hx, htag⟩
          · rw [Function.update_of_ne hp]
        · exact Iff.rfl
      have hne : ¬((r', q') = (r, q) ∧ m = w.call r) := by
        rintro ⟨hrq, rfl⟩
        cases hrq
        exact heq rfl
      have hne' : ∀ P : Prop, ¬((r', q') = (r, q) ∧ m = w.call r ∧ P) :=
        fun P hP => hne ⟨hP.1, hP.2.1⟩
      simp only [hpend, Option.some.injEq, hne, hne', or_false]
  | none =>
    simp only [reduceCtorEq, false_and, or_false, false_or]
    by_cases hdeliver : ∃ r' ctx, a = .deliver r' ctx
    · obtain ⟨r', ctx, rfl⟩ := hdeliver
      obtain ⟨x, rest, hq⟩ := List.exists_cons_of_ne_nil hen
      have hnic := nic_fire_deliver (c := c) hq
      have hx : x ∈ w.nic (r', ctx) := by
        rw [hq]
        exact List.mem_cons_self ..
      constructor
      · rintro ⟨hsent, hnot⟩
        by_cases hp : c.Pending w m r q
        · right
          obtain ⟨y, hy, htag⟩ := hp
          by_cases hpair : (r, c.ctx (c.requestExpert m r q)) = (r', ctx)
          · rw [hpair, hq] at hy
            cases List.mem_cons.mp hy with
            | inl hyx =>
              subst hyx
              cases hpair
              exact ⟨_, y, rest, rfl, hq, htag⟩
            | inr hy =>
              refine absurd ⟨y, ?_, htag⟩ hnot
              rw [hnic, hpair, Function.update_self]
              exact hy
          · refine absurd ⟨y, ?_, htag⟩ hnot
            rw [hnic, Function.update_of_ne hpair]
            exact hy
        · exact .inl ⟨hsent, hp⟩
      · rintro (⟨hsent, hnot⟩ | ⟨ctx', y, rest', ha, hq', htag⟩)
        · refine ⟨hsent, ?_⟩
          rintro ⟨y, hy, htag⟩
          refine hnot ⟨y, ?_, htag⟩
          rw [hnic] at hy
          by_cases hpair : (r, c.ctx (c.requestExpert m r q)) = (r', ctx)
          · rw [hpair, Function.update_self] at hy
            rw [hpair, hq]
            exact List.mem_cons_of_mem _ hy
          · rwa [Function.update_of_ne hpair] at hy
        · cases ha
          rw [hq] at hq'
          cases hq'
          have hsent := h.sent r ctx x hx
          have hctx := h.ctx_eq r ctx x hx
          rw [htag] at hsent hctx
          refine ⟨hsent, ?_⟩
          rintro ⟨y, hy, hytag⟩
          have hnodup := h.nodup (r, ctx)
          rw [hnic, ← hctx, Function.update_self] at hy
          rw [hq, List.map_cons, List.nodup_cons] at hnodup
          exact hnodup.1 (List.mem_map.mpr ⟨y, hy, hytag.trans htag.symm⟩)
    · have hnic := nic_fire_none (c := c) (w := w) hreq fun r ctx ha => hdeliver ⟨r, ctx, ha⟩
      have hno : ∀ ctx, a ≠ .deliver r ctx := fun ctx ha => hdeliver ⟨r, ctx, ha⟩
      simp only [Pending, hnic, hno, false_and, exists_false, or_false]

/-- When a request is issued, nothing else lands, and the request does if it is a store. -/
theorem landed_fire_request (hv : c.Sound) (hl : c.Launches w) (h : c.Queues w)
    (hen : c.enabled w a) {r : ℕ} {q : Request} (hreq : a.request = some (r, q)) (m' r' : ℕ)
    (q' : Request) :
    c.Landed (c.fire w a) m' r' q' ↔ c.Landed w m' r' q' ∨ (m' = w.call r ∧ r' = r ∧ q' = q) ∧
      c.fabric.path r (c.requestExpert (w.call r) r q / c.numLocalExperts) ≠ .rdma := by
  have hnodeliver : ∀ ctx, a ≠ .deliver r' ctx := by
    rintro ctx rfl
    cases hreq
  rw [h.landed_fire hv hl hen]
  simp only [hreq, hnodeliver, false_and, exists_false, or_false, Option.some.injEq,
    Prod.mk.injEq]
  refine or_congr_right ?_
  constructor
  · rintro ⟨⟨rfl, rfl⟩, rfl, hpath⟩
    exact ⟨⟨rfl, rfl, rfl⟩, hpath⟩
  · rintro ⟨⟨rfl, rfl, rfl⟩, hpath⟩
    exact ⟨⟨rfl, rfl⟩, rfl, hpath⟩

/-- A delivery lands the request at the head of its queue and nothing else. -/
theorem landed_fire_deliver (hv : c.Sound) (hl : c.Launches w) (h : c.Queues w) {r ctx m : ℕ}
    {q : Request} (hen : c.enabled w (.deliver r ctx)) {x : Wqe} {rest : List Wqe}
    (hnic : w.nic (r, ctx) = x :: rest) (htag : x.tag = (m, q)) (m' r' : ℕ) (q' : Request) :
    c.Landed (c.fire w (.deliver r ctx)) m' r' q' ↔
      c.Landed w m' r' q' ∨ m' = m ∧ r' = r ∧ q' = q := by
  rw [h.landed_fire hv hl hen]
  simp only [Action.request, reduceCtorEq, false_and, false_or]
  refine or_congr_right ?_
  constructor
  · rintro ⟨ctx', y, rest', ha, hnic', hy⟩
    cases ha
    rw [hnic] at hnic'
    cases hnic'
    rw [htag] at hy
    cases hy
    exact ⟨rfl, rfl, rfl⟩
  · rintro ⟨rfl, rfl, rfl⟩
    exact ⟨ctx, x, rest, rfl, hnic, htag⟩

/-- Any other step lands nothing. -/
theorem landed_fire_quiet (hv : c.Sound) (hl : c.Launches w) (h : c.Queues w)
    (hen : c.enabled w a) (hreq : a.request = none) (hdeliver : ∀ r ctx, a ≠ .deliver r ctx)
    (m r : ℕ) (q : Request) : c.Landed (c.fire w a) m r q ↔ c.Landed w m r q := by
  rw [h.landed_fire hv hl hen]
  simp only [hreq, hdeliver, reduceCtorEq, false_and, exists_false, or_false]

/-- The request at the head of a queue: its rank and expert, when it was issued, and what it
carries. -/
theorem of_head (h : c.Queues w) {r ctx m : ℕ} {q : Request} {x : Wqe} {rest : List Wqe}
    (hnic : w.nic (r, ctx) = x :: rest) (htag : x.tag = (m, q)) :
    r < c.numRanks ∧ c.requestExpert m r q < c.numExperts ∧ c.Sent w m r q ∧
      c.Pending w m r q ∧ x = c.requestWqe w m r q := by
  have hx : x ∈ w.nic (r, ctx) := by
    rw [hnic]
    exact List.mem_cons_self ..
  have he := h.expert r ctx x hx
  have hsent := h.sent r ctx x hx
  have hpending := h.pending_of_mem hx
  have hwqe := h.wqe r ctx x hx
  rw [htag] at he hsent hpending hwqe
  exact ⟨h.rank r ctx x hx, he, hsent, hpending, hwqe⟩

end Queues

/-- The queues hold what they should in every run, whatever the buffers hold at first. -/
theorem queues_of_run {init : World A → Prop} (hv : c.Sound) (hinit : ∀ w, init w → c.Allocated w)
    (h : (c.machine.system init).Reachable w) : c.Queues w := by
  refine h.invariant (fun _ hw => .of_allocated (hinit _ hw)) ?_
  rintro q a q' hr hq ⟨hen, rfl⟩
  exact hq.fire hv (launches_of_run hv hinit hr) hen

/-- The queues hold what they should in every run. -/
theorem queues_of_reachable (hv : c.Sound) (h : c.system.Reachable w) : c.Queues w :=
  queues_of_run hv (fun _ hw => hw.allocated) h

end

end Config

end EpDemo.System
