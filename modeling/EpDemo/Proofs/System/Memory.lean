import EpDemo.Proofs.System.Signals

/-!
# `EpDemo.Proofs.System.Memory`: what a step does to the receive data

A message lands in the receive data of its destination when it is stored or when the network
card executes its write (`Landing`), and nothing else changes the receive data
(`data_cases`).
-/

set_option autoImplicit false

namespace EpDemo.System

open EpDemo.Kernel EpDemo.Library

/-! ### Words -/

/-- The words of a message are four bytes apart. -/
theorem wordIndex_eq_some {dst p : Ptr} {n j : ℕ} :
    wordIndex dst n p = some j ↔ j < n ∧ p = dst.add (4 * j) := by
  have hp : p = dst.add (4 * j) ↔ p.rank = dst.rank ∧ p.sub dst = 4 * j := by
    obtain ⟨rank, offset⟩ := p
    obtain ⟨rank', offset'⟩ := dst
    simp only [Ptr.sub, Ptr.add, Ptr.mk.injEq]
    omega
  rw [hp, wordIndex]
  by_cases h : p.rank = dst.rank ∧ 0 ≤ p.sub dst ∧ p.sub dst % 4 = 0 ∧ p.sub dst / 4 < n
  · rw [if_pos h, Option.some.injEq]
    omega
  · rw [if_neg h]
    simp only [reduceCtorEq, false_iff]
    omega

/-- The words of another rank. -/
theorem wordIndex_of_rank_ne {dst p : Ptr} {n : ℕ} (h : p.rank ≠ dst.rank) :
    wordIndex dst n p = none :=
  if_neg fun hp => h hp.1

/-- The written words. -/
theorem writeWords_self {α : Type} (mem : Ptr → α) (dst : Ptr) {n j : ℕ} (src : ℕ → α)
    (hj : j < n) : writeWords mem dst n src (dst.add (4 * j)) = src j := by
  rw [writeWords, wordIndex_eq_some.mpr ⟨hj, rfl⟩]

/-- All other words. -/
theorem writeWords_of_ne {α : Type} (mem : Ptr → α) {dst p : Ptr} {n : ℕ} (src : ℕ → α)
    (hp : ∀ j < n, p ≠ dst.add (4 * j)) : writeWords mem dst n src p = mem p := by
  rw [writeWords]
  cases hindex : wordIndex dst n p with
  | none => rfl
  | some j =>
    obtain ⟨hj, heq⟩ := wordIndex_eq_some.mp hindex
    exact absurd heq (hp j hj)

namespace Config

variable {A : Type} {c : Config A} {w : World A} {a : Action}

/-! ### Landing -/

/-- The action makes message `key` of call `m` of rank `r` land, with the given words. -/
structure Landing (c : Config A) (w : World A) (a : Action) (m r : ℕ) (key : ℕ × ℕ)
    (content : ℕ → Word) : Prop where
  rank : r < c.numRanks
  expert : c.dataExpert m r key < c.numExperts
  call_le : m ≤ w.call r
  notLanded : ¬c.Landed w m r (.data key)
  landed : ∀ m' r' key', c.Landed (c.fire w a) m' r' (.data key') ↔
    c.Landed w m' r' (.data key') ∨ m' = m ∧ r' = r ∧ key' = key
  data : (c.fire w a).data = Function.update w.data (c.calls m).buf
    (writeWords (w.data (c.calls m).buf) (c.dataDst w m r key) (c.dataBytes m / 4) content)
  dataFrom : (c.fire w a).dataFrom = Function.update w.dataFrom (c.calls m).buf
    (writeWords (w.dataFrom (c.calls m).buf) (c.dataDst w m r key) (c.dataBytes m / 4)
      fun _ => some m)
  /-- It is stored by the kernel, or its write is executed. -/
  how : (a.request = some (r, .data key) ∧ m = w.call r ∧ content = c.dataContent w m r key) ∨
    ((∃ ctx, a = .deliver r ctx) ∧ c.Pending w m r (.data key) ∧
      content = fun j : ℕ => w.send (c.calls m).buf ((c.dataSrc w m r key).add (4 * j)))

/-- A store lands. -/
theorem landing_store (hv : c.Sound) (hl : c.Launches w) (hq : c.Queues w) (hen : c.enabled w a)
    {r : ℕ} {key : ℕ × ℕ} (hreq : a.request = some (r, .data key))
    (hpath : c.fabric.path r (c.dataExpert (w.call r) r key / c.numLocalExperts) ≠ .rdma) :
    c.Landing w a (w.call r) r key (c.dataContent w (w.call r) r key) := by
  -- The sender is in the middle of the call.
  obtain ⟨hr, -, hnew, he⟩ := hl.of_request_data hv hen hreq
  have hfire := fire_data hen hreq
  rw [transfer_eq] at hfire
  -- The store lands at once, and nothing else does.
  refine ⟨hr, he, le_rfl, fun h => hnew h.1, fun m' r' key' => ?_, ?_, ?_, .inl ⟨hreq, rfl, rfl⟩⟩
  · rw [hq.landed_fire_request hv hl hen hreq, Request.data.injEq]
    exact or_congr_right (and_iff_left hpath)
  · -- The words it writes, and the call they belong to.
    rw [hfire]
    simp only [hpath, if_false]
    rfl
  · rw [hfire]
    simp only [hpath, if_false]
    rfl

/-- An executed write lands. -/
theorem landing_deliver (hv : c.Sound) (hl : c.Launches w) (hq : c.Queues w) {r ctx m : ℕ}
    {key : ℕ × ℕ} (hen : c.enabled w (.deliver r ctx)) {x : Wqe} {rest : List Wqe}
    (hnic : w.nic (r, ctx) = x :: rest) (htag : x.tag = (m, .data key)) :
    c.Landing w (.deliver r ctx) m r key
      fun j : ℕ => w.send (c.calls m).buf ((c.dataSrc w m r key).add (4 * j)) := by
  obtain ⟨hr, he, hsent, hpending, hwqe⟩ := hq.of_head hnic htag
  refine ⟨hr, he, hl.le_of_sent hr hsent, fun h => h.2 hpending, fun m' r' key' => ?_, ?_, ?_,
    .inr ⟨⟨ctx, rfl⟩, hpending, rfl⟩⟩
  · rw [hq.landed_fire_deliver hv hl hen hnic htag, Request.data.injEq]
  · -- What the element carries was read from the send buffer when it was executed.
    rw [fire_deliver_cons hnic, hwqe]
    rfl
  · rw [fire_deliver_cons hnic, hwqe]
    rfl

/-- The receive data changes when a message lands and at no other time. -/
theorem data_cases (hv : c.Sound) (hl : c.Launches w) (hq : c.Queues w) (hen : c.enabled w a) :
    ((c.fire w a).data = w.data ∧ (c.fire w a).dataFrom = w.dataFrom ∧
      ∀ m r key, c.Landed (c.fire w a) m r (.data key) ↔ c.Landed w m r (.data key)) ∨
    ∃ m r key content, c.Landing w a m r key content := by
  -- Either the step requests a transfer, or it does not.
  cases hreq : a.request with
  | some y =>
    obtain ⟨r, q⟩ := y
    cases q with
    | data key =>
      -- Over RDMA the request is only queued, and no word changes yet.
      by_cases hpath : c.fabric.path r (c.dataExpert (w.call r) r key / c.numLocalExperts) = .rdma
      · left
        have hfire := fire_data hen hreq
        rw [transfer_eq] at hfire
        refine ⟨?_, ?_, fun m r' key' => ?_⟩
        · rw [hfire]
          simp only [hpath, if_true]
        · rw [hfire]
          simp only [hpath, if_true]
        · rw [hq.landed_fire_request hv hl hen hreq]
          exact or_iff_left fun h => h.2 hpath
      · exact .inr ⟨_, r, key, _, landing_store hv hl hq hen hreq hpath⟩
    | signal e =>
      -- A signal changes no data word.
      left
      have hfire := fire_signal hv hl hen hreq
      rw [signal_eq] at hfire
      refine ⟨by rw [hfire], by rw [hfire], fun m r' key' => ?_⟩
      rw [hq.landed_fire_request hv hl hen hreq]
      simp
  | none =>
    -- Without a request, only a delivery can change the data words.
    by_cases hdeliver : ∃ r ctx, a = .deliver r ctx
    · obtain ⟨r, ctx, rfl⟩ := hdeliver
      obtain ⟨x, rest, hnic⟩ := List.exists_cons_of_ne_nil hen
      cases htag : x.tag with
      | mk m q =>
        cases q with
        | data key => exact .inr ⟨m, r, key, _, landing_deliver hv hl hq hen hnic htag⟩
        | signal e =>
          -- The element at the head may also be a signal.
          left
          refine ⟨?_, ?_, fun m' r' key' => ?_⟩
          · rw [fire_deliver_cons hnic]
            cases x with
            | write => cases htag
            | atomicAdd => rfl
          · rw [fire_deliver_cons hnic]
            cases x with
            | write => cases htag
            | atomicAdd => rfl
          · rw [hq.landed_fire_deliver hv hl hen hnic htag]
            simp
    · -- The remaining steps write only to the signals, or to nothing.
      left
      have hno : ∀ r ctx, a ≠ .deliver r ctx := fun r ctx ha => hdeliver ⟨r, ctx, ha⟩
      have hlanded : ∀ m r key, c.Landed (c.fire w a) m r (.data key) ↔
          c.Landed w m r (.data key) := fun m r key =>
        hq.landed_fire_quiet hv hl hen hreq hno m r _
      cases hclean : a.cleaned with
      | none =>
        obtain ⟨-, -, -, hdata, hfrom⟩ := fire_quiet (c := c) (w := w) hreq hclean hno
        exact ⟨hdata, hfrom, hlanded⟩
      | some y =>
        obtain ⟨r, i⟩ := y
        refine ⟨?_, ?_, hlanded⟩
        · rw [fire_cleaned hclean]
          rfl
        · rw [fire_cleaned hclean]
          rfl

/-- A message that has a word after a step had it before, or lands there. -/
theorem dataFrom_cases (hv : c.Sound) (hl : c.Launches w) (hq : c.Queues w) (hen : c.enabled w a)
    {b n : ℕ} {p : Ptr} (h : (c.fire w a).dataFrom b p = some n) :
    w.dataFrom b p = some n ∨ ∃ r key content, c.Landing w a n r key content ∧
      b = (c.calls n).buf ∧ p.rank = c.dataExpert n r key / c.numLocalExperts := by
  -- Either the word keeps its origin, or the landing message wrote it.
  cases data_cases hv hl hq hen with
  | inl hsame =>
    rw [hsame.2.1] at h
    exact .inl h
  | inr hland =>
    obtain ⟨k, r, key, content, hland⟩ := hland
    rw [hland.dataFrom, Function.update_apply] at h
    split at h
    · rename_i hb
      -- The word lies in the message, or outside of it.
      cases hindex : wordIndex (c.dataDst w k r key) (c.dataBytes k / 4) p with
      | none =>
        rw [writeWords, hindex] at h
        exact .inl (hb ▸ h)
      | some j =>
        rw [writeWords, hindex] at h
        cases h
        refine .inr ⟨r, key, content, hland, hb, ?_⟩
        rw [(wordIndex_eq_some.mp hindex).2, dataDst_eq hv]
        rfl
    · exact .inl h

end Config

end EpDemo.System
