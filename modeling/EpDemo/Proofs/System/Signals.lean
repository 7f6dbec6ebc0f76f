import EpDemo.Library.Handshake
import EpDemo.Proofs.System.Cells
import EpDemo.Proofs.System.Queues

/-!
# `EpDemo.Proofs.System.Signals`: the signal words, and the handshake they implement

A signal word is the sum of the signals that have gone into it since it was zeroed
(`Signals.word`), and each of these has the value that its sender meant (`Signals.value`).

`view` forgets everything but who is in which call and what happened to the signals. Every
action of the system is zero, one or two steps of `Handshake`: a signal that is stored is sent
and lands at once, one that is posted is sent, and lands when the network card executes it
(`view_reachable`).
-/

set_option autoImplicit false

namespace EpDemo.System.Config

open EpDemo.Kernel EpDemo.Library

variable {A : Type} {c : Config A} {w : World A} {a : Action}

/-- One word of one buffer changes. -/
theorem update_word {α : Type} (f : ℕ → Ptr → α) (b : ℕ) (p : Ptr) (v : α) (b' : ℕ) (p' : Ptr) :
    Function.update f b (Function.update (f b) p v) b' p' =
      if b' = b ∧ p' = p then v else f b' p' := by
  by_cases hb : b' = b
  · subst hb
    rw [Function.update_self]
    by_cases hp : p' = p
    · simp [hp]
    · simp [hp, Function.update_of_ne]
  · simp [hb, Function.update_of_ne]

/-! ### What a step does to the signals -/

/-- A message does not touch the signals. -/
theorem sig_fire_data (hen : c.enabled w a) {r : ℕ} {key : ℕ × ℕ}
    (hreq : a.request = some (r, .data key)) :
    (c.fire w a).sig = w.sig ∧ (c.fire w a).sigFrom = w.sigFrom := by
  rw [fire_data hen hreq, transfer_eq]
  exact ⟨rfl, rfl⟩

/-- A posted signal does not touch the signal words yet. -/
theorem sig_fire_post (hv : c.Sound) (hl : c.Launches w) (hen : c.enabled w a) {r e : ℕ}
    (hreq : a.request = some (r, .signal e))
    (hpath : c.fabric.path r (e / c.numLocalExperts) = .rdma) :
    (c.fire w a).sig = w.sig ∧ (c.fire w a).sigFrom = w.sigFrom := by
  rw [fire_signal hv hl hen hreq, signal_eq]
  simp only [hpath, if_true, and_self]

/-- A stored signal overwrites its word. -/
theorem sig_fire_store (hv : c.Sound) (hl : c.Launches w) (hen : c.enabled w a) {r e : ℕ}
    (hreq : a.request = some (r, .signal e))
    (hpath : c.fabric.path r (e / c.numLocalExperts) ≠ .rdma) (b : ℕ) (p : Ptr) :
    (c.fire w a).sig b p =
      (if b = (c.calls (w.call r)).buf ∧ p = c.signalDst (w.call r) r e then
        c.signalValue (w.call r) r e else w.sig b p) ∧
    (c.fire w a).sigFrom b p =
      if b = (c.calls (w.call r)).buf ∧ p = c.signalDst (w.call r) r e then
        [(w.call r, c.signalValue (w.call r) r e)] else w.sigFrom b p := by
  rw [fire_signal hv hl hen hreq, signal_eq]
  simp only [hpath, if_false, update_word]
  exact ⟨rfl, rfl⟩

/-- An executed atomic adds to its word. -/
theorem sig_fire_add (hq : c.Queues w) {r ctx m e : ℕ} {x : Wqe} {rest : List Wqe}
    (hnic : w.nic (r, ctx) = x :: rest) (htag : x.tag = (m, .signal e)) (b : ℕ) (p : Ptr) :
    (c.fire w (.deliver r ctx)).sig b p =
      (if b = (c.calls m).buf ∧ p = c.signalDst m r e then
        toInt32 (w.sig b p + c.signalValue m r e) else w.sig b p) ∧
    (c.fire w (.deliver r ctx)).sigFrom b p =
      if b = (c.calls m).buf ∧ p = c.signalDst m r e then
        (m, c.signalValue m r e) :: w.sigFrom b p else w.sigFrom b p := by
  have hwqe := hq.wqe r ctx x (by rw [hnic]; exact List.mem_cons_self ..)
  rw [htag] at hwqe
  rw [fire_deliver_cons hnic, hwqe]
  simp only [requestWqe, signalWqe, World.execute, update_word]
  constructor
  · split
    · rename_i h
      rw [h.1, h.2]
    · rfl
  · split
    · rename_i h
      rw [h.1, h.2]
    · rfl

/-- An executed write does not touch the signals. -/
theorem sig_fire_write {r ctx m : ℕ} {key : ℕ × ℕ} {x : Wqe} {rest : List Wqe}
    (hnic : w.nic (r, ctx) = x :: rest) (htag : x.tag = (m, .data key)) :
    (c.fire w (.deliver r ctx)).sig = w.sig ∧ (c.fire w (.deliver r ctx)).sigFrom = w.sigFrom := by
  rw [fire_deliver_cons hnic]
  cases x with
  | write => exact ⟨rfl, rfl⟩
  | atomicAdd => cases htag

/-- A cleaned entry is zero. -/
theorem sig_fire_cleaned {r i : ℕ} (hclean : a.cleaned = some (r, i)) (b : ℕ) (p : Ptr) :
    (c.fire w a).sig b p =
      (if b = (c.calls (w.call r)).clean ∧ p = c.fabric.recvSignal (c.calls (w.call r)).clean r i
        then 0 else w.sig b p) ∧
    (c.fire w a).sigFrom b p =
      if b = (c.calls (w.call r)).clean ∧ p = c.fabric.recvSignal (c.calls (w.call r)).clean r i
        then [] else w.sigFrom b p := by
  rw [fire_cleaned hclean]
  exact ⟨update_word .., update_word ..⟩

/-- The action makes the signal of group `e` of rank `r` in call `m` land. -/
structure SignalLanding (c : Config A) (w : World A) (a : Action) (m r e : ℕ) : Prop where
  rank : r < c.numRanks
  expert : e < c.numExperts
  call_le : m ≤ w.call r
  notLanded : ¬c.Landed w m r (.signal e)
  landed : ∀ m' r' e', c.Landed (c.fire w a) m' r' (.signal e') ↔
    c.Landed w m' r' (.signal e') ∨ m' = m ∧ r' = r ∧ e' = e
  cleaned : a.cleaned = none
  /-- It is stored by the kernel, or its atomic is executed. -/
  how : (c.fabric.path r (e / c.numLocalExperts) ≠ .rdma ∧ ∀ b p,
      (c.fire w a).sig b p =
        (if b = (c.calls m).buf ∧ p = c.signalDst m r e then c.signalValue m r e else w.sig b p) ∧
      (c.fire w a).sigFrom b p =
        if b = (c.calls m).buf ∧ p = c.signalDst m r e then [(m, c.signalValue m r e)]
        else w.sigFrom b p) ∨
    (c.fabric.path r (e / c.numLocalExperts) = .rdma ∧ ∀ b p,
      (c.fire w a).sig b p =
        (if b = (c.calls m).buf ∧ p = c.signalDst m r e then
          toInt32 (w.sig b p + c.signalValue m r e) else w.sig b p) ∧
      (c.fire w a).sigFrom b p =
        if b = (c.calls m).buf ∧ p = c.signalDst m r e then
          (m, c.signalValue m r e) :: w.sigFrom b p else w.sigFrom b p)

/-- A stored signal lands. -/
theorem signalLanding_store (hv : c.Sound) (hl : c.Launches w) (hq : c.Queues w)
    (hen : c.enabled w a) {r e : ℕ} (hreq : a.request = some (r, .signal e))
    (hpath : c.fabric.path r (e / c.numLocalExperts) ≠ .rdma) :
    c.SignalLanding w a (w.call r) r e := by
  obtain ⟨hr, he, hnew⟩ := of_request_signal hen hreq
  refine ⟨hr, he, le_rfl, fun h => hnew h.1, fun m' r' e' => ?_, (Action.of_request hreq).1,
    .inl ⟨hpath, sig_fire_store hv hl hen hreq hpath⟩⟩
  rw [hq.landed_fire_request hv hl hen hreq, Request.signal.injEq]
  exact or_congr_right (and_iff_left hpath)

/-- An executed atomic lands. -/
theorem signalLanding_deliver (hv : c.Sound) (hl : c.Launches w) (hq : c.Queues w) {r ctx m e : ℕ}
    (hen : c.enabled w (.deliver r ctx)) {x : Wqe} {rest : List Wqe}
    (hnic : w.nic (r, ctx) = x :: rest) (htag : x.tag = (m, .signal e)) :
    c.SignalLanding w (.deliver r ctx) m r e := by
  obtain ⟨hr, he, hsent, hpending, -⟩ := hq.of_head hnic htag
  refine ⟨hr, he, hl.le_of_sent hr hsent, fun h => h.2 hpending, fun m' r' e' => ?_, rfl,
    .inr ⟨hq.path_of_pending hpending, sig_fire_add hq hnic htag⟩⟩
  rw [hq.landed_fire_deliver hv hl hen hnic htag, Request.signal.injEq]

/-- The step leaves the signals alone. -/
structure SignalQuiet (c : Config A) (w : World A) (a : Action) : Prop where
  sig : (c.fire w a).sig = w.sig
  sigFrom : (c.fire w a).sigFrom = w.sigFrom
  landed : ∀ m r e, c.Landed (c.fire w a) m r (.signal e) ↔ c.Landed w m r (.signal e)
  cleaned : a.cleaned = none

/-- The signal words change when an entry is cleaned or a signal lands, and at no other time. -/
theorem signal_cases (hv : c.Sound) (hl : c.Launches w) (hq : c.Queues w) (hen : c.enabled w a) :
    c.SignalQuiet w a ∨
    (∃ r i, a.cleaned = some (r, i) ∧
      ∀ m q e, c.Landed (c.fire w a) m q (.signal e) ↔ c.Landed w m q (.signal e)) ∨
    ∃ m r e, c.SignalLanding w a m r e := by
  -- Either the step requests a transfer, or it does not.
  cases hreq : a.request with
  | some y =>
    obtain ⟨r, q⟩ := y
    have hclean := (Action.of_request hreq).1
    cases q with
    | data key =>
      -- A message changes no signal word.
      obtain ⟨hsig, hfrom⟩ := sig_fire_data hen hreq
      refine .inl ⟨hsig, hfrom, fun m r' e => ?_, hclean⟩
      rw [hq.landed_fire_request hv hl hen hreq]
      simp
    | signal e =>
      -- Over RDMA the signal is only queued, and over NVLink it lands at once.
      by_cases hpath : c.fabric.path r (e / c.numLocalExperts) = .rdma
      · obtain ⟨hsig, hfrom⟩ := sig_fire_post hv hl hen hreq hpath
        refine .inl ⟨hsig, hfrom, fun m r' e' => ?_, hclean⟩
        rw [hq.landed_fire_request hv hl hen hreq]
        exact or_iff_left fun h => h.2 hpath
      · exact .inr (.inr ⟨_, r, e, signalLanding_store hv hl hq hen hreq hpath⟩)
  | none =>
    -- Without a request, only a delivery or the cleaning can change a signal word.
    by_cases hdeliver : ∃ r ctx, a = .deliver r ctx
    · obtain ⟨r, ctx, rfl⟩ := hdeliver
      obtain ⟨x, rest, hnic⟩ := List.exists_cons_of_ne_nil hen
      cases htag : x.tag with
      | mk m q =>
        cases q with
        | data key =>
          obtain ⟨hsig, hfrom⟩ := sig_fire_write (c := c) hnic htag
          refine .inl ⟨hsig, hfrom, fun m' r' e => ?_, rfl⟩
          rw [hq.landed_fire_deliver hv hl hen hnic htag]
          simp
        | signal e => exact .inr (.inr ⟨m, r, e, signalLanding_deliver hv hl hq hen hnic htag⟩)
    · have hno : ∀ r ctx, a ≠ .deliver r ctx := fun r ctx ha => hdeliver ⟨r, ctx, ha⟩
      have hlanded : ∀ m q e, c.Landed (c.fire w a) m q (.signal e) ↔
          c.Landed w m q (.signal e) := fun m q e =>
        hq.landed_fire_quiet hv hl hen hreq hno m q _
      cases hclean : a.cleaned with
      | none =>
        obtain ⟨-, hsig, hfrom, -⟩ := fire_quiet (c := c) (w := w) hreq hclean hno
        exact .inl ⟨hsig, hfrom, hlanded, hclean⟩
      | some y => exact .inr (.inl ⟨y.1, y.2, rfl, hlanded⟩)

/-! ### The signal words -/

/-- A signal is an `int`. -/
theorem signalValue_range (c : Config A) (m r e : ℕ) :
    toInt32 (c.signalValue m r e) = c.signalValue m r e := by
  unfold signalValue
  cases (c.calls m).kind with
  | dispatch => exact toInt32_of_range (le_toInt32 _) (toInt32_lt _)
  | combine => rfl

/-- What a signal word holds and where it comes from. -/
structure Signals (c : Config A) (w : World A) : Prop where
  word : ∀ m, c.HasCall m → ∀ r < c.numRanks, ∀ i < c.numExperts,
    w.sig (c.calls m).buf (c.fabric.recvSignal (c.calls m).buf r i) =
      toInt32 ((w.sigFrom (c.calls m).buf (c.fabric.recvSignal (c.calls m).buf r i)).map
        Prod.snd).sum
  value : ∀ b, ∀ r < c.numRanks, ∀ i < c.numExperts,
    ∀ x ∈ w.sigFrom b (c.fabric.recvSignal b r i),
      x.2 = c.signalValue x.1 (c.cellSender x.1 i) (c.cellExpert x.1 r i)
  landed : ∀ b, ∀ r < c.numRanks, ∀ i < c.numExperts,
    ∀ x ∈ w.sigFrom b (c.fabric.recvSignal b r i),
      b = (c.calls x.1).buf ∧
        c.Landed w x.1 (c.cellSender x.1 i) (.signal (c.cellExpert x.1 r i))

namespace Signals

/-- The signal words are zero before the first call, and no signal has gone into them. -/
theorem of_init (hw : c.Init w) : c.Signals w where
  word m hm r hr i hi := by
    rw [hw.sig m hm r hr i hi, hw.sigFrom]
    rfl
  value b r _ i _ x hx := by
    rw [hw.sigFrom] at hx
    cases hx
  landed b r _ i _ x hx := by
    rw [hw.sigFrom] at hx
    cases hx

/-- The word that a signal lands in is the entry that it is for. -/
theorem cell_of_signalDst (hv : c.Sound) {b m r e d i : ℕ} (hr : r < c.numRanks)
    (hword : b = (c.calls m).buf ∧ c.fabric.recvSignal b d i = c.signalDst m r e) :
    c.cellSender m i = r ∧ c.cellExpert m d i = e := by
  obtain ⟨rfl, hp⟩ := hword
  rw [signalDst_eq hv, Fabric.recvSignal_inj] at hp
  obtain ⟨rfl, rfl⟩ := hp
  exact cell_of_sendCell hv hr

/-- A signal that is in a word after a step was there before, or has landed in it. -/
theorem mem_fire (hv : c.Sound) {m r e : ℕ} (hland : c.SignalLanding w a m r e) {b d i : ℕ}
    {x : ℕ × ℤ} (hx : x ∈ (c.fire w a).sigFrom b (c.fabric.recvSignal b d i)) :
    x ∈ w.sigFrom b (c.fabric.recvSignal b d i) ∨
      x = (m, c.signalValue m r e) ∧ b = (c.calls m).buf ∧ c.cellSender m i = r ∧
        c.cellExpert m d i = e := by
  cases hland.how with
  | inl hstore =>
    rw [(hstore.2 _ _).2] at hx
    split at hx
    · rename_i hword
      exact .inr ⟨List.mem_singleton.mp hx, hword.1, cell_of_signalDst hv hland.rank hword⟩
    · exact .inl hx
  | inr hadd =>
    rw [(hadd.2 _ _).2] at hx
    split at hx
    · rename_i hword
      cases List.mem_cons.mp hx with
      | inl hx => exact .inr ⟨hx, hword.1, cell_of_signalDst hv hland.rank hword⟩
      | inr hx => exact .inl hx
    · exact .inl hx

/-- A signal that is in a word after an entry was cleaned was there before. -/
theorem mem_fire_cleaned {r j : ℕ} (hclean : a.cleaned = some (r, j)) {b : ℕ} {p : Ptr} {x : ℕ × ℤ}
    (hx : x ∈ (c.fire w a).sigFrom b p) : x ∈ w.sigFrom b p := by
  rw [(sig_fire_cleaned hclean _ _).2] at hx
  split at hx
  · cases hx
  · exact hx

/-- Every step keeps the words the sums of their signals. -/
theorem fire (hv : c.Sound) (hl : c.Launches w) (hq : c.Queues w) (h : c.Signals w)
    (hen : c.enabled w a) : c.Signals (c.fire w a) := by
  have hkeep : ∀ m r q, c.Landed w m r q → c.Landed (c.fire w a) m r q := fun m r q hland =>
    (hq.landed_fire hv hl hen m r q).mpr (.inl hland)
  -- What was in a word has landed before and stays landed.
  have hold : ∀ b, ∀ r < c.numRanks, ∀ i < c.numExperts,
      ∀ x ∈ w.sigFrom b (c.fabric.recvSignal b r i), b = (c.calls x.1).buf ∧
        c.Landed (c.fire w a) x.1 (c.cellSender x.1 i) (.signal (c.cellExpert x.1 r i)) :=
    fun b r hr i hi x hx =>
      ⟨(h.landed b r hr i hi x hx).1, hkeep _ _ _ (h.landed b r hr i hi x hx).2⟩
  -- Quiet steps keep all words, cleaning empties one, and a landing adds to one or replaces it.
  rcases signal_cases hv hl hq hen with hquiet | ⟨r, j, hclean, -⟩ | ⟨m, r, e, hland⟩
  · exact ⟨by simpa only [hquiet.sig, hquiet.sigFrom] using h.word,
      by simpa only [hquiet.sigFrom] using h.value, by simpa only [hquiet.sigFrom] using hold⟩
  · constructor
    · intro m hm d hd i hi
      rw [(sig_fire_cleaned hclean _ _).1, (sig_fire_cleaned hclean _ _).2]
      split
      · rfl
      · exact h.word m hm d hd i hi
    · exact fun b d hd i hi x hx => h.value b d hd i hi x (mem_fire_cleaned hclean hx)
    · exact fun b d hd i hi x hx => hold b d hd i hi x (mem_fire_cleaned hclean hx)
  · constructor
    · intro k hk d hd i hi
      -- Over NVLink the word is replaced, and over RDMA the value is added to it.
      cases hland.how with
      | inl hstore =>
        rw [(hstore.2 _ _).1, (hstore.2 _ _).2]
        split
        · simp [signalValue_range]
        · exact h.word k hk d hd i hi
      | inr hadd =>
        rw [(hadd.2 _ _).1, (hadd.2 _ _).2]
        split
        · rw [List.map_cons, List.sum_cons, h.word k hk d hd i hi, toInt32_add, add_comm]
        · exact h.word k hk d hd i hi
    · intro b d hd i hi x hx
      -- The signal was there before, or it is the one that landed.
      cases mem_fire hv hland hx with
      | inl hx => exact h.value b d hd i hi x hx
      | inr hnew =>
        obtain ⟨rfl, -, hsender, hexpert⟩ := hnew
        simp only [hsender, hexpert]
    · intro b d hd i hi x hx
      cases mem_fire hv hland hx with
      | inl hx => exact hold b d hd i hi x hx
      | inr hnew =>
        obtain ⟨rfl, hb, hsender, hexpert⟩ := hnew
        simp only [hsender, hexpert]
        exact ⟨hb, (hland.landed m r e).mpr (.inr ⟨rfl, rfl, rfl⟩)⟩

end Signals

/-- The signal words hold what they should in every run. -/
theorem signals_of_reachable (hv : c.Sound) (h : c.system.Reachable w) : c.Signals w := by
  refine h.invariant (fun _ hw => .of_init hw) ?_
  rintro q a q' hr hq ⟨hen, rfl⟩
  exact hq.fire hv (launches_of_reachable hv hr) (queues_of_reachable hv hr) hen

/-! ### The handshake -/

/-- The calls as rounds of a handshake between the ranks. -/
def protocol (hv : c.Valid) : Handshake.Protocol (Fin c.numRanks) (Fin c.numExperts) where
  HasRound := c.HasCall
  sender m _ i := ⟨c.cellSender m i, cellSender_lt hv i.isLt⟩
  buf m := (c.calls m).buf
  clean m := (c.calls m).clean

/-- What the handshake sees of a state. -/
def view (c : Config A) (w : World A) : Handshake.State (Fin c.numRanks) (Fin c.numExperts) where
  round r := w.call r
  cleaned := {x | c.Cleaned w x.1 x.2.1 x.2.2}
  sent := {x | c.SignalSent w x.1 (c.cellSender x.1 x.2.2) (c.cellExpert x.1 x.2.1 x.2.2)}
  landed := {x | c.Landed w x.1 (c.cellSender x.1 x.2.2) (.signal (c.cellExpert x.1 x.2.1 x.2.2))}
  taken := {x | c.Taken w x.1 x.2.1 (c.waiter x.1 x.2.2)}
  content x := (w.sigFrom x.1 (c.fabric.recvSignal x.1 x.2.1 x.2.2)).map Prod.fst

/-- The buffers alternate: consecutive calls use different ones, a call uses the one of the call
before the last, and the call between has cleaned it. -/
structure Alternates (c : Config A) : Prop where
  buf_succ : ∀ m, c.HasCall (m + 1) → (c.calls (m + 1)).buf ≠ (c.calls m).buf
  buf_add_two : ∀ m, c.HasCall (m + 2) → (c.calls (m + 2)).buf = (c.calls m).buf
  clean_ne : ∀ m, c.HasCall m → (c.calls m).clean ≠ (c.calls m).buf
  clean_succ : ∀ m, c.HasCall (m + 2) → (c.calls (m + 1)).clean = (c.calls (m + 2)).buf

/-- Calls with alternating buffers are a handshake with alternating arrays. -/
theorem Alternates.protocol (hv : c.Valid) (h : c.Alternates) : (protocol hv).Alternates where
  hasRound := hv.hasCall
  hears m p q := by
    have hcell := cell_of_sendCell hv (m := m) (e := p * c.numLocalExperts) q.isLt
    exact ⟨⟨c.sendCell m q (p * c.numLocalExperts), sendCell_lt hv q.isLt⟩, Fin.ext hcell.1⟩
  buf_succ := h.buf_succ
  buf_add_two := h.buf_add_two
  clean_ne := h.clean_ne
  clean_succ := h.clean_succ

/-- Before the first call the handshake is at its start. -/
theorem view_init (hw : c.Init w) : Handshake.Protocol.Init (c.view w) where
  round p := hw.call p
  cleaned := by
    ext ⟨m, p, i⟩
    cases hkind : (c.calls m).kind <;>
      simp [view, Cleaned, hkind, (hw.disp _).cleaned, (hw.comb _).cleaned]
  sent := by
    ext ⟨m, p, i⟩
    cases hkind : (c.calls m).kind <;>
      simp [view, SignalSent, hkind, (hw.disp _).signal, (hw.comb _).signal,
        Dispatch.SignalPc.isSent, Combine.SignalPc.isSent]
  landed := by
    ext ⟨m, p, i⟩
    cases hkind : (c.calls m).kind <;>
      simp [view, Landed, Sent, SignalSent, hkind, (hw.disp _).signal, (hw.comb _).signal,
        Dispatch.SignalPc.isSent, Combine.SignalPc.isSent]
  taken := by
    ext ⟨m, p, i⟩
    cases hkind : (c.calls m).kind <;>
      simp [view, Taken, hkind, (hw.disp _).recv, (hw.comb _).recv, Dispatch.RecvPc.hasCount]
  content x := by simp [view, hw.sigFrom]

section

variable (hv : c.Valid) (hl : c.Launches w) (hq : c.Queues w) (hen : c.enabled w a)

include hv hl hq hen

omit hq in
/-- The parts of the view that a step leaves alone. -/
theorem view_frame :
    ((∀ r, a ≠ .advance r) → (c.view (c.fire w a)).round = (c.view w).round) ∧
    (a.cleaned = none → (c.view (c.fire w a)).cleaned = (c.view w).cleaned) ∧
    ((∀ r e, a.request ≠ some (r, .signal e)) → (c.view (c.fire w a)).sent = (c.view w).sent) ∧
    (a.acquired = none → (c.view (c.fire w a)).taken = (c.view w).taken) := by
  refine ⟨fun hadv => ?_, fun hclean => ?_, fun hreq => ?_, fun hacq => ?_⟩
  · funext r
    show (c.fire w a).call r = w.call r
    rw [call_fire]
    cases a with
    | advance r' => exact absurd rfl (hadv r')
    | _ => rfl
  · ext x
    simp [view, cleaned_fire hen, hclean]
  · ext x
    simp [view, signalSent_fire hen, hreq]
  · ext x
    simp [view, taken_fire hv hl hen, hacq]

/-- An action that does not change what the handshake sees. -/
theorem view_same (hadv : ∀ r, a ≠ .advance r) (hclean : a.cleaned = none)
    (hreq : ∀ r e, a.request ≠ some (r, .signal e)) (hacq : a.acquired = none)
    (hdeliver : ∀ r ctx x rest, a = .deliver r ctx → w.nic (r, ctx) = x :: rest →
      ∀ m e, x.tag ≠ (m, .signal e))
    (hfrom : (c.fire w a).sigFrom = w.sigFrom) : c.view (c.fire w a) = c.view w := by
  obtain ⟨h1, h2, h3, h4⟩ := view_frame hv hl hen
  refine Handshake.State.ext (h1 hadv) (h2 hclean) (h3 hreq) ?_ (h4 hacq) ?_
  · ext x
    simp only [view, Set.mem_ofPred_eq, hq.landed_fire hv hl hen, hreq, false_and, false_or,
      or_iff_left_iff_imp]
    rintro ⟨ctx, y, rest, ha, hnic, htag⟩
    exact absurd htag (hdeliver _ ctx y rest ha hnic _ _)
  · funext x
    simp only [view, hfrom]

omit hv hl hq in
/-- A cleaning warp zeroes an entry of the array once. -/
theorem of_cleaned {r i : ℕ} (hclean : a.cleaned = some (r, i)) :
    r < c.numRanks ∧ i < c.numExperts ∧ ¬c.Cleaned w (w.call r) r i := by
  cases Action.cleaned_iff.mp hclean with
  | inl ha =>
    subst ha
    obtain ⟨hr, hkind, ⟨-, hi, hnot, -⟩, -⟩ := hen
    simp only [Cleaned, hkind, hnot]
    exact ⟨hr, hi, by decide⟩
  | inr ha =>
    subst ha
    obtain ⟨hr, hkind, ⟨hi, hnot, -⟩, -⟩ := hen
    simp only [Cleaned, hkind, hnot]
    exact ⟨hr, hi, by decide⟩

omit hv hl hq in
/-- A signal wait ends with a value that is in its signal word. -/
theorem of_acquired {r e : ℕ} {v : ℤ} (hacq : a.acquired = some (r, e, v)) :
    r < c.numRanks ∧ e < c.numExperts ∧ v ≠ 0 ∧
      w.sig (c.calls (w.call r)).buf
        (c.fabric.recvSignal (c.calls (w.call r)).buf r (c.waitCell (w.call r) e)) = v := by
  cases Action.acquired_iff.mp hacq with
  | inl ha =>
    subst ha
    obtain ⟨hr, hkind, ⟨-, he, -, hne⟩, hread⟩ := hen
    refine ⟨hr, he, hne, ?_⟩
    simp only [waitCell, hkind]
    exact hread _ rfl
  | inr ha =>
    subst ha
    obtain ⟨hr, hkind, ⟨he, -, -, hne⟩, hread⟩ := hen
    refine ⟨hr, he, hne, ?_⟩
    simp only [waitCell, hkind]
    exact hread _ rfl

/-- The cleaning warp zeroes an entry. -/
theorem view_clean {r i : ℕ} (hclean : a.cleaned = some (r, i)) :
    (protocol hv).system.Step (c.view w) (c.view (c.fire w a)) := by
  obtain ⟨hreq, hacq, hadv, hdeliver⟩ := Action.of_cleaned hclean
  obtain ⟨hr, hi, hnot⟩ := of_cleaned hen hclean
  obtain ⟨h1, -, h3, h4⟩ := view_frame hv hl hen
  refine ⟨.clean ⟨r, hr⟩ ⟨i, hi⟩, hnot, ?_⟩
  refine Handshake.State.ext (h1 hadv) ?_ (h3 (by simp [hreq])) ?_ (h4 hacq) ?_
  · -- The cleaned words.
    ext ⟨m, p, j⟩
    have hiff := cleaned_fire hen m p j
    rw [hclean] at hiff
    refine hiff.trans ?_
    simp only [Handshake.Protocol.fire, Set.mem_insert_iff, Prod.mk.injEq, Option.some.injEq,
      Fin.ext_iff]
    constructor
    · rintro (h | ⟨⟨rfl, rfl⟩, rfl⟩)
      · exact .inr h
      · exact .inl ⟨rfl, rfl, rfl⟩
    · rintro (⟨rfl, rfl, rfl⟩ | h)
      · exact .inr ⟨⟨rfl, rfl⟩, rfl⟩
      · exact .inl h
  · ext ⟨m, p, j⟩
    exact hq.landed_fire_quiet hv hl hen hreq hdeliver _ _ _
  · -- The contents of the words. The cleaned word becomes empty.
    funext word
    obtain ⟨b, p, j⟩ := word
    show ((c.fire w a).sigFrom b _).map Prod.fst = Function.update (c.view w).content _ [] _
    rw [(sig_fire_cleaned hclean _ _).2, Function.update_apply]
    simp only [Prod.mk.injEq, Fin.ext_iff]
    by_cases hword : b = (c.calls (w.call r)).clean ∧ (p : ℕ) = r ∧ (j : ℕ) = i
    · obtain ⟨rfl, hp, hj⟩ := hword
      rw [hp, hj, if_pos ⟨rfl, rfl⟩]
      exact (if_pos ⟨rfl, rfl, rfl⟩).symm
    · rw [if_neg, if_neg]
      · rfl
      · exact hword
      · rintro ⟨rfl, hp⟩
        exact hword ⟨rfl, Fabric.recvSignal_inj.mp hp⟩

omit hl hq in
/-- The signal of a request, as a triple of the handshake. -/
theorem view_sent {r e : ℕ} (hreq : a.request = some (r, .signal e)) (hr : r < c.numRanks)
    (he : e < c.numExperts) :
    (c.view (c.fire w a)).sent =
      insert (w.call r, ⟨e / c.numLocalExperts, hv.div_lt he⟩,
        ⟨c.sendCell (w.call r) r e, sendCell_lt hv hr⟩) (c.view w).sent := by
  ext ⟨m, p, j⟩
  refine (signalSent_fire hen _ _ _).trans ?_
  simp only [hreq, Option.some.injEq, Prod.mk.injEq, Request.signal.injEq, Set.mem_insert_iff,
    Fin.ext_iff]
  -- The receiver and the cell determine the sender and the expert, and the other way round.
  constructor
  · rintro (h | ⟨⟨hsender, hexpert⟩, hm⟩)
    · exact .inr h
    · obtain ⟨hp, hj⟩ := (cell_eq_iff hv j.isLt hr).mp ⟨hsender.symm, hexpert.symm⟩
      rw [← hsender] at hm
      rw [hm] at hj
      exact .inl ⟨hm, hp, hj⟩
  · rintro (⟨rfl, hp, hj⟩ | h)
    · obtain ⟨hsender, hexpert⟩ := (cell_eq_iff hv j.isLt hr).mpr ⟨hp, hj⟩
      refine .inr ⟨⟨hsender.symm, hexpert.symm⟩, ?_⟩
      simp only [hsender]
    · exact .inl h

omit hl hq hen in
/-- The cell that a signal lands in. -/
theorem view_content (m : ℕ) {r e : ℕ} (hr : r < c.numRanks) (he : e < c.numExperts)
    (l : List (ℕ × ℤ) → List (ℕ × ℤ))
    (hfrom : ∀ b p, (c.fire w a).sigFrom b p =
      if b = (c.calls m).buf ∧ p = c.signalDst m r e then l (w.sigFrom b p) else w.sigFrom b p) :
    (c.view (c.fire w a)).content =
      Function.update (c.view w).content
        ((c.calls m).buf, ⟨e / c.numLocalExperts, hv.div_lt he⟩,
          ⟨c.sendCell m r e, sendCell_lt hv hr⟩)
        ((l (w.sigFrom (c.calls m).buf (c.signalDst m r e))).map Prod.fst) := by
  funext ⟨b, p, j⟩
  show ((c.fire w a).sigFrom b _).map Prod.fst = _
  rw [hfrom, Function.update_apply]
  simp only [Prod.mk.injEq, Fin.ext_iff, signalDst_eq hv.sound]
  by_cases hword : b = (c.calls m).buf ∧ (p : ℕ) = e / c.numLocalExperts ∧
    (j : ℕ) = c.sendCell m r e
  · obtain ⟨rfl, hp, hj⟩ := hword
    rw [hp, hj, if_pos ⟨rfl, rfl⟩]
    exact (if_pos ⟨rfl, rfl, rfl⟩).symm
  · rw [if_neg, if_neg hword]
    · rfl
    · rintro ⟨rfl, hp⟩
      exact hword ⟨rfl, Fabric.recvSignal_inj.mp hp⟩

omit hq in
/-- A sender has cleaned when it signals. -/
theorem view_send_enabled {r e : ℕ} (hreq : a.request = some (r, .signal e)) (hr : r < c.numRanks)
    (he : e < c.numExperts) :
    (protocol hv).Enabled (c.view w) (.send (w.call r) ⟨e / c.numLocalExperts, hv.div_lt he⟩
      ⟨c.sendCell (w.call r) r e, sendCell_lt hv hr⟩) := by
  have hcell := cell_of_sendCell hv (m := w.call r) (e := e) hr
  have hsender : (protocol hv).sender (w.call r) ⟨e / c.numLocalExperts, hv.div_lt he⟩
      ⟨c.sendCell (w.call r) r e, sendCell_lt hv hr⟩ = ⟨r, hr⟩ := Fin.ext hcell.1
  refine ⟨by rw [hsender]; rfl, fun i => ?_⟩
  rw [hsender]
  -- The entries are clean after the step, and the step cleans nothing.
  have hsent : c.SignalSent (c.fire w a) (w.call r) r e :=
    (signalSent_fire hen _ _ _).mpr (.inr ⟨hreq, rfl⟩)
  have hclean := ((hl.fire hv hen).of_signalSent hv hr he hsent).2.1 i i.isLt
  rw [cleaned_fire hen, (Action.of_request hreq).1] at hclean
  have hold : c.Cleaned w (w.call r) r i := by simpa using hclean
  exact hold

/-- A signal is issued: it is sent, and a stored one lands at once. -/
theorem view_signal {r e : ℕ} (hreq : a.request = some (r, .signal e)) :
    Relation.ReflTransGen (protocol hv).system.Step (c.view w) (c.view (c.fire w a)) := by
  obtain ⟨hr, he, -⟩ := of_request_signal hen hreq
  obtain ⟨hclean, hacq, hadv⟩ := Action.of_request hreq
  obtain ⟨h1, h2, -, h4⟩ := view_frame hv hl hen
  have hcell := cell_of_sendCell hv (m := w.call r) (e := e) hr
  have hsent := view_sent hv hen hreq hr he
  have henabled := view_send_enabled hv hl hen hreq hr he
  have hnew := (hl.of_request hv hen hreq).2.2
  -- A signal is landed after the step if it was before, or if it is this one and goes by NVLink.
  have hlanded : ∀ m d i, i < c.numExperts →
      (c.Landed (c.fire w a) m (c.cellSender m i) (.signal (c.cellExpert m d i)) ↔
        c.Landed w m (c.cellSender m i) (.signal (c.cellExpert m d i)) ∨
        (m = w.call r ∧ d = e / c.numLocalExperts ∧ i = c.sendCell (w.call r) r e) ∧
          c.fabric.path r (e / c.numLocalExperts) ≠ .rdma) := by
    intro m d i hi
    rw [hq.landed_fire_request hv hl hen hreq, Request.signal.injEq]
    refine or_congr_right (and_congr_left fun _ => ?_)
    constructor
    · rintro ⟨rfl, hsender, hexpert⟩
      exact ⟨rfl, (cell_eq_iff hv hi hr).mp ⟨hsender, hexpert⟩⟩
    · rintro ⟨rfl, hd, hi'⟩
      exact ⟨rfl, (cell_eq_iff hv hi hr).mpr ⟨hd, hi'⟩⟩
  -- Over RDMA the handshake only sends.
  by_cases hpath : c.fabric.path r (e / c.numLocalExperts) = .rdma
  · obtain ⟨-, hfrom⟩ := sig_fire_post hv hl hen hreq hpath
    refine .single ⟨_, henabled, ?_⟩
    refine Handshake.State.ext (h1 hadv) (h2 hclean) hsent ?_ (h4 hacq) ?_
    · ext ⟨m, p, j⟩
      refine (hlanded m p j j.isLt).trans ?_
      simp only [hpath, ne_eq, not_true_eq_false, and_false, or_false]
      exact Iff.rfl
    · funext x
      simp only [view, hfrom]
      rfl
  · -- Over NVLink it sends and lands in two steps.
    have hstore := fun b p => (sig_fire_store hv hl hen hreq hpath b p).2
    refine .tail (.single ⟨_, henabled, rfl⟩)
      ⟨.land (w.call r) ⟨e / c.numLocalExperts, hv.div_lt he⟩
        ⟨c.sendCell (w.call r) r e, sendCell_lt hv hr⟩ false, ⟨?_, ?_⟩, ?_⟩
    · exact Set.mem_insert _ _
    · rintro ⟨hs, -⟩
      simp only [hcell] at hs
      exact hnew hs
    · refine Handshake.State.ext (h1 hadv) (h2 hclean) hsent ?_ (h4 hacq) ?_
      · ext ⟨m, p, j⟩
        refine (hlanded m p j j.isLt).trans ?_
        simp only [hpath, ne_eq, not_false_eq_true, and_true, Handshake.Protocol.fire,
          Set.mem_insert_iff, Prod.mk.injEq, Fin.ext_iff]
        exact or_comm
      · exact view_content hv (w.call r) hr he
          (fun _ => [(w.call r, c.signalValue (w.call r) r e)]) hstore

end

/-- The network card executes a work request: a signal lands. -/
theorem view_deliver (hv : c.Valid) (hl : c.Launches w) (hq : c.Queues w) {r ctx : ℕ}
    (hen : c.enabled w (.deliver r ctx)) :
    Relation.ReflTransGen (protocol hv).system.Step (c.view w)
      (c.view (c.fire w (.deliver r ctx))) := by
  obtain ⟨x, rest, hnic⟩ := List.exists_cons_of_ne_nil hen
  cases htag : x.tag with
  | mk m q =>
    cases q with
    | data key =>
      -- A message is not visible in the handshake.
      have hsame : c.view (c.fire w (.deliver r ctx)) = c.view w := by
        refine view_same hv hl hq hen (by simp) rfl (by simp [Action.request]) rfl ?_
          (sig_fire_write hnic htag).2
        intro r' ctx' y rest' ha hnic' k e hy
        cases ha
        rw [hnic] at hnic'
        cases hnic'
        rw [htag] at hy
        cases hy
      rw [hsame]
    | signal e =>
      -- A signal lands, and its value is added to the word.
      obtain ⟨hr, he, hsent, hpending, -⟩ := hq.of_head hnic htag
      have hcell := cell_of_sendCell hv (m := m) (e := e) hr
      obtain ⟨h1, h2, h3, h4⟩ := view_frame hv hl hen
      refine .single ⟨.land m ⟨e / c.numLocalExperts, hv.div_lt he⟩
        ⟨c.sendCell m r e, sendCell_lt hv hr⟩ true, ⟨?_, ?_⟩, ?_⟩
      · show c.SignalSent w m (c.cellSender m _) (c.cellExpert m _ _)
        simp only [hcell]
        exact hsent
      · rintro ⟨-, hnot⟩
        simp only [hcell] at hnot
        exact hnot hpending
      · refine Handshake.State.ext (h1 (by simp)) (h2 rfl) (h3 (by simp [Action.request])) ?_
          (h4 rfl) ?_
        · -- The landed signals.
          ext ⟨k, p, j⟩
          refine (hq.landed_fire_deliver hv hl hen hnic htag _ _ _).trans ?_
          simp only [Request.signal.injEq, Handshake.Protocol.fire, Set.mem_insert_iff,
            Prod.mk.injEq, Fin.ext_iff]
          constructor
          · rintro (h | ⟨rfl, hsender, hexpert⟩)
            · exact .inr h
            · exact .inl ⟨rfl, (cell_eq_iff hv j.isLt hr).mp ⟨hsender, hexpert⟩⟩
          · rintro (⟨rfl, hp, hj⟩ | h)
            · exact .inr ⟨rfl, (cell_eq_iff hv j.isLt hr).mpr ⟨hp, hj⟩⟩
            · exact .inl h
        · -- The contents of the words.
          rw [view_content hv m hr he (fun old => (m, c.signalValue m r e) :: old)
            fun b p => (sig_fire_add hq hnic htag b p).2]
          simp only [Handshake.Protocol.fire, List.map_cons, signalDst_eq hv.sound, if_true]
          rfl

/-- A signal wait ends: its signal is taken. -/
theorem view_take (hv : c.Valid) (hl : c.Launches w) (hq : c.Queues w) (hs : c.Signals w)
    (hen : c.enabled w a) {r e : ℕ} {v : ℤ} (hacq : a.acquired = some (r, e, v)) :
    (protocol hv).system.Step (c.view w) (c.view (c.fire w a)) := by
  obtain ⟨hr, he, hne, hread⟩ := of_acquired hen hacq
  obtain ⟨hreq, hclean, hadv, hdeliver⟩ := Action.of_acquired hacq
  obtain ⟨h1, h2, h3, -⟩ := view_frame hv hl hen
  refine ⟨.take ⟨r, hr⟩ ⟨c.waitCell (w.call r) e, waitCell_lt hv he⟩, ?_, ?_⟩
  · -- The word is not zero, so something has landed in it.
    intro hempty
    have hnil : w.sigFrom (c.calls (w.call r)).buf
        (c.fabric.recvSignal (c.calls (w.call r)).buf r (c.waitCell (w.call r) e)) = [] :=
      List.map_eq_nil_iff.mp hempty
    have hword := hs.word _ (hl.hasCall r hr) r hr (c.waitCell (w.call r) e) (waitCell_lt hv he)
    rw [hread, hnil] at hword
    exact hne hword
  · refine Handshake.State.ext (h1 hadv) (h2 hclean) (h3 (by simp [hreq])) ?_ ?_ ?_
    · ext ⟨m, p, j⟩
      exact hq.landed_fire_quiet hv hl hen hreq hdeliver _ _ _
    · ext ⟨m, p, j⟩
      refine (taken_fire hv hl hen _ _ _).trans ?_
      simp only [hacq, Option.some.injEq, Prod.mk.injEq, exists_and_left, exists_eq', and_true,
        Handshake.Protocol.fire, Set.mem_insert_iff, Fin.ext_iff]
      constructor
      · rintro (h | ⟨⟨rfl, hexp⟩, rfl⟩)
        · exact .inr h
        · exact .inl ⟨rfl, rfl, (waiter_eq_iff hv j.isLt he).mp hexp.symm⟩
      · rintro (⟨rfl, hp, hj⟩ | h)
        · refine .inr ⟨⟨hp.symm, ((waiter_eq_iff hv j.isLt he).mpr hj).symm⟩, ?_⟩
          rw [hp]
          rfl
        · exact .inl h
    · obtain ⟨-, -, hfrom, -⟩ := fire_quiet (c := c) (w := w) hreq hclean hdeliver
      funext x
      simp only [view, hfrom]
      rfl

/-- A rank leaves a call when all its signal waits have ended. -/
theorem taken_of_done (hl : c.Launches w) {r : ℕ} (hr : r < c.numRanks)
    (hdone : c.KernelDone w r) {e : ℕ} (he : e < c.numExperts) : c.Taken w (w.call r) r e := by
  unfold Taken
  cases hkind : (c.calls (w.call r)).kind with
  | dispatch =>
    have hready := (hdone.1 hkind).ready e he
    simp only [hready]
    rfl
  | combine =>
    exact (Combine.order_of_runs (hl.comb r hr _ le_rfl hkind)).passed (hdone.2 hkind).1 e he

/-- A rank that goes on to its next call goes on to the next round. -/
theorem view_advance (hv : c.Valid) (hl : c.Launches w) (hq : c.Queues w) {r : ℕ}
    (hen : c.enabled w (.advance r)) :
    (protocol hv).system.Step (c.view w) (c.view (c.fire w (.advance r))) := by
  obtain ⟨hr, hnext, hdone⟩ := id hen
  obtain ⟨-, h2, h3, h4⟩ := view_frame hv hl hen
  refine ⟨.advance ⟨r, hr⟩, ⟨hnext, fun i => taken_of_done hl hr hdone (waiter_lt hv i.isLt)⟩, ?_⟩
  refine Handshake.State.ext ?_ (h2 rfl) (h3 (by simp [Action.request])) ?_ (h4 rfl) rfl
  · funext p
    show Function.update w.call r (w.call r + 1) (p : ℕ) = Function.update (c.view w).round _ _ p
    rw [Function.update_apply, Function.update_apply]
    simp only [Fin.ext_iff]
    rfl
  · ext ⟨m, p, j⟩
    exact hq.landed_fire_quiet hv hl hen rfl (by simp) _ _ _

/-- Every step of the system is some steps of the handshake. -/
theorem view_step (hv : c.Valid) (hl : c.Launches w) (hq : c.Queues w) (hs : c.Signals w)
    (hen : c.enabled w a) :
    Relation.ReflTransGen (protocol hv).system.Step (c.view w) (c.view (c.fire w a)) := by
  -- Every step cleans, takes, sends, delivers or moves on, or is not visible in the handshake.
  cases hclean : a.cleaned with
  | some y => exact .single (view_clean hv hl hq hen (r := y.1) (i := y.2) hclean)
  | none =>
    cases hacq : a.acquired with
    | some y => exact .single (view_take hv hl hq hs hen (r := y.1) (e := y.2.1) (v := y.2.2) hacq)
    | none =>
      cases hreq : a.request with
      | some y =>
        obtain ⟨r, q⟩ := y
        cases q with
        | signal e => exact view_signal hv hl hq hen hreq
        | data key =>
          have hsame : c.view (c.fire w a) = c.view w := by
            refine view_same hv hl hq hen (Action.of_request hreq).2.2 hclean
              (by simp [hreq]) hacq ?_ (sig_fire_data hen hreq).2
            rintro r' ctx x rest rfl
            cases hreq
          rw [hsame]
      | none =>
        by_cases hdeliver : ∃ r ctx, a = .deliver r ctx
        · obtain ⟨r, ctx, rfl⟩ := hdeliver
          exact view_deliver hv hl hq hen
        · -- What is left is the end of a call, and steps inside of the kernels.
          by_cases hadv : ∃ r, a = .advance r
          · obtain ⟨r, rfl⟩ := hadv
            exact .single (view_advance hv hl hq hen)
          · have hno : ∀ r ctx, a ≠ .deliver r ctx := fun r ctx ha => hdeliver ⟨r, ctx, ha⟩
            have hsame : c.view (c.fire w a) = c.view w := by
              refine view_same hv hl hq hen (fun r ha => hadv ⟨r, ha⟩) hclean
                (by simp [hreq]) hacq ?_ (fire_quiet hreq hclean hno).2.2.1
              rintro r ctx x rest rfl
              exact absurd rfl (hno r ctx)
            rw [hsame]

/-- What the handshake sees of a run is a run of the handshake. -/
theorem view_reachable (hv : c.Valid) (h : c.system.Reachable w) :
    (protocol hv).system.Reachable (c.view w) := by
  refine h.map c.view (fun _ hw => view_init hw) ?_
  rintro q a q' hr ⟨hen, rfl⟩
  exact view_step hv (launches_of_reachable hv hr) (queues_of_reachable hv hr)
    (signals_of_reachable hv hr) hen

end EpDemo.System.Config
