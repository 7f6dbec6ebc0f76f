import EpDemo.Proofs.System.DispatchDelivers
import Mathlib.Data.Int.ConditionallyCompleteOrder

/-!
# `EpDemo.Proofs.System.Transports`: the transports agree

A peer is reached by stores into the own buffer, by stores over NVLink, or by the network card. The
choice (`withNvlink`) decides when and how a message or a signal gets to its destination, and by
which address, but not what is there in the end.

A run of one call from a state `w₀` leaves behind what its inputs say (`Ended`): every entry of the
receive signals has the value of its one signal, every message is in its slot, and the other words
are those of `w₀`. None of this mentions a transport. Only the slots that a `dispatch` hands out
depend on the run, and they are a numbering of the messages for an expert (`Ended.slots`), so two
runs differ by a permutation of the slots of a block.
-/

set_option autoImplicit false

namespace EpDemo.System.Config

open EpDemo.Kernel EpDemo.Library

variable {A : Type} {c : Config A} {w₀ w w' : World A}

/-! ### One call -/

/-- The same system with other NVLink connections. -/
def withNvlink (c : Config A) (nvlinkAvailable : ℕ → ℕ → Bool) : Config A :=
  { c with fabric := { c.fabric with nvlinkAvailable := nvlinkAvailable } }

/-- All ranks run one call, which does not clean the receive signals that it uses. -/
structure SingleCall (c : Config A) : Prop where
  length : c.length = some 1
  clean_ne : (c.calls 0).clean ≠ (c.calls 0).buf
  zeroCopy : (c.calls 0).kind = .combine → ∀ r < c.numRanks,
    ((c.calls 0).input r).zeroCopy = false

/-- The checks do not look at the transports. -/
theorem Valid.withNvlink (hv : c.Valid) (n : ℕ → ℕ → Bool) : (c.withNvlink n).Valid where
  hasCall := hv.hasCall
  numRanks_pos := hv.numRanks_pos
  numExperts_pos := hv.numExperts_pos
  dvd := hv.dvd
  numExperts_lt := hv.numExperts_lt
  rows_lt := hv.rows_lt
  mapped := hv.mapped
  input m hm r hr := by
    obtain ⟨htokens, htopk, htable, hentries, hdistinct, htimeout, hsource⟩ := hv.input m hm r hr
    exact ⟨htokens, htopk, htable, hentries, hdistinct, htimeout, hsource⟩

namespace SingleCall

/-- Nor does the number of calls depend on them. -/
theorem withNvlink (h : c.SingleCall) (n : ℕ → ℕ → Bool) : (c.withNvlink n).SingleCall :=
  ⟨h.length, h.clean_ne, h.zeroCopy⟩

/-- The call is the first one. -/
theorem eq_zero (h : c.SingleCall) {m : ℕ} (hm : c.HasCall m) : m = 0 := by
  have hlt := (hasCall_iff_of_length h.length).mp hm
  omega

/-- A single call has no other one to alternate with. -/
theorem alternates (h : c.SingleCall) : c.Alternates where
  buf_succ m hm := absurd (h.eq_zero hm) (Nat.succ_ne_zero m)
  buf_add_two m hm := absurd (h.eq_zero hm) (Nat.succ_ne_zero _)
  clean_ne m hm := by
    rw [h.eq_zero hm]
    exact h.clean_ne
  clean_succ m hm := absurd (h.eq_zero hm) (Nat.succ_ne_zero _)

/-- A single call does not use zero copy. -/
theorem noZeroCopy (h : c.SingleCall) : c.NoZeroCopy := by
  intro m hm hkind r hr
  rw [h.eq_zero hm] at hkind ⊢
  exact h.zeroCopy hkind r hr

/-- A finished rank is in that call. -/
theorem call_eq (h : c.SingleCall) (hfin : c.Finished w) {r : ℕ} (hr : r < c.numRanks) :
    w.call r = 0 := by
  have hlast := (hfin r hr).1
  rw [h.length] at hlast
  exact (Nat.succ.inj (Option.some.inj hlast)).symm

end SingleCall

/-! ### The tables of a `combine` -/

/-- A first `combine` is given its tables, as there is no earlier `dispatch`. -/
theorem tables_eq (hv : c.Valid) {r : ℕ} (hr : r < c.numRanks) (hkind : (c.calls 0).kind = .combine)
    (w w' : World A) :
    c.layoutRange w r 0 = c.layoutRange w' r 0 ∧ c.srcInfo w r 0 = c.srcInfo w' r 0 := by
  unfold layoutRange srcInfo
  cases hsource : ((c.calls 0).input r).source with
  | call k =>
    have hlt := ((hv.input 0 hv.hasCall r hr).source hkind k hsource).1
    exact absurd hlt (Nat.not_lt_zero k)
  | given srcInfo layoutRange => exact ⟨rfl, rfl⟩

/-- So its launch does not depend on the state. -/
theorem combineLaunch_eq (hv : c.Valid) {r : ℕ} (hr : r < c.numRanks)
    (hkind : (c.calls 0).kind = .combine) (w w' : World A) :
    c.combineLaunch w r 0 = c.combineLaunch w' r 0 := by
  unfold combineLaunch
  rw [(tables_eq hv hr hkind w w').1]

/-- The rows that a single `combine` sends do not depend on the state. -/
theorem combineRow_eq (hv : c.Valid) {r : ℕ} (hr : r < c.numRanks)
    (hkind : (c.calls 0).kind = .combine) (w w' : World A) (key : ℕ × ℕ) :
    c.combineRow w 0 r key = c.combineRow w' 0 r key := by
  unfold combineRow
  rw [combineLaunch_eq hv hr hkind w w']

/-- Nor does it depend on the state how its rows are routed. -/
theorem Routed.congr (hv : c.Valid) (hkind : (c.calls 0).kind = .combine) (h : c.Routed w 0) :
    c.Routed w' 0 where
  range r hr _ e he k hk := by
    rw [combineLaunch_eq hv hr hkind w' w] at hk
    rw [(tables_eq hv hr hkind w' w).2, combineRow_eq hv hr hkind w' w]
    exact h.range r hr (Nat.zero_le _) e he k hk
  injOn r hr _ e he k hk k' hk' heq := by
    rw [combineLaunch_eq hv hr hkind w' w] at hk hk'
    rw [(tables_eq hv hr hkind w' w).2, combineRow_eq hv hr hkind w' w,
      combineRow_eq hv hr hkind w' w] at heq
    exact h.injOn r hr (Nat.zero_le _) e he k hk k' hk' heq

/-! ### What a run leaves behind -/

/-- The slot of a message at its destination. -/
def messageSlot (c : Config A) (w : World A) (r : ℕ) (key : ℕ × ℕ) : Ptr :=
  c.fabric.recvData (c.calls 0).buf (c.dataExpert 0 r key / c.numLocalExperts)
    (c.dataOffset w 0 r key)

/-- The state after a run of one call from `w₀`, as far as its peers can see. -/
structure Ended (c : Config A) (w₀ w : World A) : Prop where
  signal : ∀ d < c.numRanks, ∀ i < c.numExperts,
    w.sig (c.calls 0).buf (c.fabric.recvSignal (c.calls 0).buf d i) =
      c.signalValue 0 (c.cellSender 0 i) (c.cellExpert 0 d i)
  message : ∀ r < c.numRanks, ∀ key, c.Task w 0 r key → c.dataExpert 0 r key < c.numExperts →
    ∀ j < c.dataBytes 0 / 4,
      w.data (c.calls 0).buf ((c.messageSlot w r key).add (4 * j)) = c.messageWord w₀ w 0 r key j
  rest : ∀ p, (∀ r < c.numRanks, ∀ key, c.Task w 0 r key → ∀ j < c.dataBytes 0 / 4,
      p ≠ (c.messageSlot w r key).add (4 * j)) →
    w.data (c.calls 0).buf p = w₀.data (c.calls 0).buf p
  /-- The slots of the messages for an expert are the first ones of its block. -/
  slots : (c.calls 0).kind = .dispatch → ∀ s < c.numRanks, ∀ e < c.numExperts,
    Set.BijOn (w.disp (s, 0)).slot ((c.launch s 0).tasks e)
      (Set.Ico 0 ((c.launch s 0).numTokensSent e))

/-- The value of a signal that has landed in a word of its own. -/
theorem sig_of_landed (hv : c.Valid) (halt : c.Alternates) (h : c.system.Reachable w) {d i : ℕ}
    (hd : d < c.numRanks) (hi : i < c.numExperts)
    (hland : c.Landed w (w.call d) (c.cellSender (w.call d) i)
      (.signal (c.cellExpert (w.call d) d i))) :
    w.sig (c.calls (w.call d)).buf (c.fabric.recvSignal (c.calls (w.call d)).buf d i) =
      c.signalValue (w.call d) (c.cellSender (w.call d) i) (c.cellExpert (w.call d) d i) := by
  have hs := signals_of_reachable hv h
  have hcurrent : (w.sigFrom (c.calls (w.call d)).buf
      (c.fabric.recvSignal (c.calls (w.call d)).buf d i)).map Prod.fst = [w.call d] :=
    ((handshake_of_reachable hv halt h).current ⟨d, hd⟩ ⟨i, hi⟩).trans
      (Handshake.State.arrived_of_mem hland)
  obtain ⟨x, hx, hxm⟩ := List.map_eq_singleton_iff.mp hcurrent
  have hvalue := hs.value _ d hd i hi x (by rw [hx]; exact List.mem_singleton_self _)
  rw [hs.word _ ((launches_of_reachable hv h).hasCall d hd) d hd i hi, hx, List.map_singleton,
    List.sum_singleton, hvalue, hxm, signalValue_range]

/-- The slots of the messages for an expert number them. -/
theorem Launches.bijOn_slot (hv : c.Valid) (hl : c.Launches w) {m s e : ℕ} (hs : s < c.numRanks)
    (hm : m ≤ w.call s) (hkind : (c.calls m).kind = .dispatch)
    (hsent : ∀ key ∈ (c.launch s m).tasks e, c.DataSent w m s key) :
    Set.BijOn (w.disp (s, m)).slot ((c.launch s m).tasks e)
      (Set.Ico 0 ((c.launch s m).numTokensSent e)) := by
  have hfit := hv.fits ((hl.hasCall s hs).of_le hm) hs
  have hslots := Dispatch.slots_of_runs hfit (hl.disp s hs m hm hkind)
  have hall : ∀ key ∈ (c.launch s m).tasks e, ((w.disp (s, m)).token key).hasSlot = true :=
    fun key hkey => hasSlot_of_sent hkind (hsent key hkey)
  refine ⟨fun key hkey => ?_, fun key hkey key' hkey' heq => ?_, fun i hi => ?_⟩
  · obtain ⟨hlo, hhi, -⟩ := hl.slot_lt hv hs hkind (hsent key hkey)
    rw [dataExpert_of_mem hkind hkey] at hhi
    exact ⟨hlo, hhi⟩
  · exact hslots.injOn e key hkey key' hkey' (hall key hkey) (hall key' hkey') heq
  · obtain ⟨hlo, hhi⟩ := hi
    rw [Launch.numTokensSent_eq_card_tasks _ hfit.numTopk_le] at hhi
    obtain ⟨key, hkey, hslot⟩ := hslots.exists_slot hall (i := i.toNat) (by omega)
    exact ⟨key, hkey, by omega⟩

/-- A run that has ended leaves behind what its inputs say. -/
theorem ended_of_finished (hv : c.Valid) (hone : c.SingleCall) (hw₀ : c.Init w₀)
    (hrouted : (c.calls 0).kind = .combine → c.Routed w₀ 0)
    (h : (c.system.startingAt w₀).Reachable w) (hfin : c.Finished w) : c.Ended w₀ w := by
  have hreach := h.of_startingAt hw₀
  have halt := hone.alternates
  have hund := startingAt_undisturbed hv halt hw₀ h
  have hl := launches_of_reachable hv hreach
  have hq := queues_of_reachable hv hreach
  have hacq := acquired_of_undisturbed hv (hund.of_startingAt hw₀)
  have hcall : ∀ r < c.numRanks, w.call r = 0 := fun r hr => hone.call_eq hfin hr
  -- All kernels are done, so that all signals were taken.
  have htaken : ∀ d < c.numRanks, ∀ e < c.numExperts, c.Taken w 0 d e := by
    intro d hd e he
    have htaken := taken_of_done hl hd (hfin d hd).2 he
    rwa [hcall d hd] at htaken
  -- A message is sent before its signal.
  have hdata : ∀ r < c.numRanks, ∀ key, c.Task w 0 r key → c.dataExpert 0 r key < c.numExperts →
      c.Landed w 0 r (.data key) := by
    intro r hr key htask he
    exact data_landed_of_taken hv hl hq hacq hr he htask
      (htaken _ (hv.div_lt he) _ (hv.expert_lt hr (hv.mod_lt _)))
  -- No message overwrites another one.
  have hintact : c.Intact (fun m => m = 0) w₀ w := by
    refine intact_of_undisturbed hv hone.noZeroCopy hw₀ ?_ hund
    rintro q hq m rfl
    have hl := launches_of_reachable hv hq
    cases hkind : (c.calls 0).kind with
    | dispatch => exact hl.apart_dispatch hv hkind
    | combine => exact hl.apart_combine hv hkind ((hrouted hkind).congr hv hkind)
  -- The four parts: signals, messages, all other words, and the slots.
  constructor
  · intro d hd i hi
    have hwait := htaken d hd _ (waiter_lt hv hi (m := 0))
    have hland :=
      (handshake_of_reachable hv halt hreach).landed_of_taken (0, ⟨d, hd⟩, ⟨i, hi⟩) hwait
    have hsig := sig_of_landed hv halt hreach hd hi
    rw [hcall d hd] at hsig
    exact hsig hland
  · intro r hr key htask he j hj
    have hmessage := hintact 0 rfl r hr key (hdata r hr key htask he)
      (hcall _ (hv.div_lt he)).le j hj
    rw [dataDst_eq hv] at hmessage
    exact hmessage.2 fun _ _ => rfl
  · -- A word outside of all messages was never written.
    intro p hno
    refine unwritten_of_undisturbed hv hw₀ hund _ p fun m r hr key hland _ j hj => ?_
    have hle : m ≤ w.call r := hl.le_of_sent (q := .data key) hr hland.1
    obtain rfl : m = 0 := Nat.le_zero.mp (hle.trans_eq (hcall r hr))
    rw [dataDst_eq hv]
    exact hno r hr key (hl.task_of_sent hv hr hland.1) j hj
  · intro hkind s hs e he
    refine hl.bijOn_slot hv hs (Nat.zero_le _) hkind fun key hkey => ?_
    have hexpert := dataExpert_of_mem hkind hkey
    exact (hdata s hs key (by simpa only [Task, hkind, hexpert] using hkey) (hexpert ▸ he)).1

/-! ### Two runs -/

/-- The receive signals are the same, and so is the receive data up to the order of the slots of
one expert and source. -/
structure Agree (c : Config A) (w w' : World A) : Prop where
  signals : ∀ d < c.numRanks, ∀ i < c.numExperts,
    w.sig (c.calls 0).buf (c.fabric.recvSignal (c.calls 0).buf d i) =
      w'.sig (c.calls 0).buf (c.fabric.recvSignal (c.calls 0).buf d i)
  combine : (c.calls 0).kind = .combine → ∀ p,
    w.data (c.calls 0).buf p = w'.data (c.calls 0).buf p
  dispatch : (c.calls 0).kind = .dispatch →
    ∀ d < c.numRanks, ∀ le < c.numLocalExperts, ∀ s < c.numRanks, ∃ σ : Equiv.Perm ℤ,
      (∀ i, i ∉ Set.Ico (0 : ℤ) c.numMaxDispatchTokensPerRank → σ i = i) ∧
      ∀ i ∈ Set.Ico (0 : ℤ) c.numMaxDispatchTokensPerRank, ∀ j < c.shape.numBytesPerMsg / 4,
        w.data (c.calls 0).buf
            ((c.fabric.recvData (c.calls 0).buf d (c.messageOffset le s i)).add (4 * j)) =
          w'.data (c.calls 0).buf
            ((c.fabric.recvData (c.calls 0).buf d (c.messageOffset le s (σ i))).add (4 * j))

namespace Ended

/-- After a `combine` a word is that of its message, or what it was before. -/
theorem combine_eq (hv : c.Valid) (hkind : (c.calls 0).kind = .combine) (h : c.Ended w₀ w)
    (h' : c.Ended w₀ w') (p : Ptr) : w.data (c.calls 0).buf p = w'.data (c.calls 0).buf p := by
  -- The routing does not depend on how the messages travel.
  have hslot : ∀ r < c.numRanks, ∀ key, c.messageSlot w' r key = c.messageSlot w r key := by
    intro r hr key
    simp only [messageSlot, dataOffset, hkind, combineRow_eq hv hr hkind w' w,
      (tables_eq hv hr hkind w' w).2]
  have htask : ∀ r < c.numRanks, ∀ key, c.Task w' 0 r key ↔ c.Task w 0 r key := by
    intro r hr key
    simp only [Task, hkind, combineLaunch_eq hv hr hkind w' w]
  -- A word of some message is the same in both runs.
  by_cases hex : ∃ r key j, r < c.numRanks ∧ c.Task w 0 r key ∧ j < c.dataBytes 0 / 4 ∧
      p = (c.messageSlot w r key).add (4 * j)
  · obtain ⟨r, key, j, hr, hkey, hj, rfl⟩ := hex
    have he : c.dataExpert 0 r key < c.numExperts := by
      simp only [Task, hkind] at hkey
      simpa only [dataExpert, hkind] using hkey.1
    have hword := h'.message r hr key ((htask r hr key).mpr hkey) he j hj
    rw [hslot r hr] at hword
    rw [h.message r hr key hkey he j hj, hword]
    simp only [messageWord, hkind, combineRow_eq hv hr hkind w' w]
  · -- All other words have kept their first value.
    rw [h.rest p fun r hr key hkey j hj heq => hex ⟨r, key, j, hr, hkey, hj, heq⟩,
      h'.rest p fun r hr key hkey j hj heq => hex
        ⟨r, key, j, hr, (htask r hr key).mp hkey, hj, by rw [heq, hslot r hr]⟩]

/-- After a `dispatch` a word of a slot that was handed out is that of the message. -/
theorem dispatch_word (hv : c.Valid) (hkind : (c.calls 0).kind = .dispatch) (h : c.Ended w₀ w)
    {d le s j : ℕ} {key : ℕ × ℕ} (hd : d < c.numRanks) (hle : le < c.numLocalExperts)
    (hs : s < c.numRanks) (hkey : key ∈ (c.launch s 0).tasks (d * c.numLocalExperts + le))
    (hj : j < c.shape.numBytesPerMsg / 4) :
    w.data (c.calls 0).buf ((c.fabric.recvData (c.calls 0).buf d
        (c.messageOffset le s ((w.disp (s, 0)).slot key))).add (4 * j)) =
      c.messageWord w₀ w 0 s key j := by
  have hexpert := dataExpert_of_mem hkind hkey
  have hword := h.message s hs key (by simpa only [Task, hkind, hexpert] using hkey)
    (by rw [hexpert]; exact hv.expert_lt hd hle) j (by simpa only [dataBytes, hkind] using hj)
  simp only [messageSlot, dataOffset, hkind, hexpert, mul_add_div_mod hle] at hword
  exact hword

/-- A word of another slot is what it was. -/
theorem dispatch_rest (hv : c.Valid) (hkind : (c.calls 0).kind = .dispatch) (h : c.Ended w₀ w)
    {d le s j : ℕ} {i : ℤ} (hd : d < c.numRanks) (hs : s < c.numRanks)
    (hi : i ∈ Set.Ico (0 : ℤ) c.numMaxDispatchTokensPerRank)
    (hfree : i ∉ Set.Ico (0 : ℤ) ((c.launch s 0).numTokensSent (d * c.numLocalExperts + le)))
    (hj : j < c.shape.numBytesPerMsg / 4) :
    w.data (c.calls 0).buf
        ((c.fabric.recvData (c.calls 0).buf d (c.messageOffset le s i)).add (4 * j)) =
      w₀.data (c.calls 0).buf
        ((c.fabric.recvData (c.calls 0).buf d (c.messageOffset le s i)).add (4 * j)) := by
  refine h.rest _ fun r hr key hkey k hk heq => ?_
  simp only [Task, hkind] at hkey
  simp only [dataBytes, hkind] at hk
  simp only [messageSlot, dataOffset, hkind] at heq
  -- The message would be one for the same expert, with this slot.
  have hrank : d = c.dataExpert 0 r key / c.numLocalExperts := (Fabric.recvData_add_inj.mp heq).1
  have he : c.dataExpert 0 r key < c.numExperts := by
    rw [← Nat.div_add_mod' (c.dataExpert 0 r key) c.numLocalExperts, ← hrank]
    exact hv.expert_lt hd (hv.mod_lt _)
  have hslot := (h.slots hkind r hr _ he).mapsTo hkey
  have hmax := (numTokensSent_le hv hv.hasCall hr (c.dataExpert 0 r key)).trans
    (hv.sound.numTokens_le hv.hasCall hr)
  obtain ⟨-, hmod, rfl, hi'⟩ := message_word_inj hs hr hi.1 hi.2 hslot.1
    (hslot.2.trans_le (by exact_mod_cast hmax)) hj hk heq
  refine hfree ?_
  rw [hi', hrank, hmod, Nat.div_add_mod']
  exact hslot

end Ended

/-- What one call leaves in the receive signals and the receive data of all ranks does not depend
on which peers are reached by plain stores. -/
theorem transports_agree (c : Config A) (hv : c.Valid) (hone : c.SingleCall) (w₀ : World A)
    (hw₀ : c.Init w₀) (hrouted : (c.calls 0).kind = .combine → c.Routed w₀ 0)
    (nvlink nvlink' : ℕ → ℕ → Bool) (w w' : World A)
    (hw : ((c.withNvlink nvlink).system.startingAt w₀).Reachable w)
    (hw' : ((c.withNvlink nvlink').system.startingAt w₀).Reachable w')
    (hfin : (c.withNvlink nvlink).Finished w) (hfin' : (c.withNvlink nvlink').Finished w') :
    c.Agree w w' := by
  -- Each of the two runs ends in a state that the initial one determines.
  have hended : ∀ (n : ℕ → ℕ → Bool) (q : World A),
      ((c.withNvlink n).system.startingAt w₀).Reachable q → (c.withNvlink n).Finished q →
        c.Ended w₀ q := by
    intro n q hq hfin
    have hw₀ : (c.withNvlink n).Init w₀ := { hw₀ with }
    have hrouted : ((c.withNvlink n).calls 0).kind = .combine → (c.withNvlink n).Routed w₀ 0 :=
      fun hkind => ⟨(hrouted hkind).range, (hrouted hkind).injOn⟩
    have h := ended_of_finished (hv.withNvlink n) (hone.withNvlink n) hw₀ hrouted hq hfin
    exact ⟨h.signal, h.message, h.rest, h.slots⟩
  have h := hended nvlink w hw hfin
  have h' := hended nvlink' w' hw' hfin'
  constructor
  · intro d hd i hi
    rw [h.signal d hd i hi, h'.signal d hd i hi]
  · exact fun hkind => h.combine_eq hv hkind h'
  · -- In dispatch the two runs may use the slots of a sender in a different order.
    intro hkind d hd le hle s hs
    have he := hv.expert_lt hd hle
    obtain ⟨σ, hσ, hrest⟩ := exists_perm_of_bijOn (h.slots hkind s hs _ he)
      (h'.slots hkind s hs _ he)
    have hmax := (numTokensSent_le hv hv.hasCall hs (d * c.numLocalExperts + le)).trans
      (hv.sound.numTokens_le hv.hasCall hs)
    refine ⟨σ, fun i hi => hrest i fun hin => hi ⟨hin.1, hin.2.trans_le (by exact_mod_cast hmax)⟩,
      fun i hi j hj => ?_⟩
    -- A slot that was used holds the message of its key.
    by_cases hin : i ∈ Set.Ico (0 : ℤ) ((c.launch s 0).numTokensSent (d * c.numLocalExperts + le))
    · obtain ⟨key, hkey, rfl⟩ := (h.slots hkind s hs _ he).surjOn hin
      rw [hσ key hkey, h.dispatch_word hv hkind hd hle hs hkey hj,
        h'.dispatch_word hv hkind hd hle hs hkey hj]
      simp only [messageWord, dataSrc, hkind]
    · -- A slot that was not used has kept its first value.
      rw [hrest i hin, h.dispatch_rest hv hkind hd hs hi hin hj,
        h'.dispatch_rest hv hkind hd hs hi hin hj]

/-- `wholeDispatch` where the ranks reach each other by stores, so that nothing is in a queue. -/
def storedDispatch : List Action :=
  sendPhase 0 true ++ sendPhase 1 false ++ recvPhase 0 ++ recvPhase 1 ++
    ([.dispatch 1 (.copyRow 2 0)] : List Action)

/-- The same run over NVLink and over the network. -/
theorem transports_agree_twoRanks :
    let c := twoRanks (some 1) (fun _ => 0) fun _ => 1
    c.Agree ((c.withNvlink fun _ _ => false).machine.exec blank wholeDispatch)
      ((c.withNvlink fun _ _ => true).machine.exec blank storedDispatch) := by
  intro c
  have hposted : (c.withNvlink fun _ _ => false).machine.Legal blank wholeDispatch ∧
      (c.withNvlink fun _ _ => false).Finished
        ((c.withNvlink fun _ _ => false).machine.exec blank wholeDispatch) := by decide +kernel
  have hstored : (c.withNvlink fun _ _ => true).machine.Legal blank storedDispatch ∧
      (c.withNvlink fun _ _ => true).Finished
        ((c.withNvlink fun _ _ => true).machine.exec blank storedDispatch) := by decide +kernel
  exact transports_agree c (twoRanks_valid (by simp) _ _) ⟨rfl, by decide, fun _ _ _ => rfl⟩ blank
    (blank_init _ _ _) (fun hkind => absurd hkind (by decide)) _ _ _ _
    (Machine.reachable_startingAt_exec hposted.1) (Machine.reachable_startingAt_exec hstored.1)
    hposted.2 hstored.2

end EpDemo.System.Config
