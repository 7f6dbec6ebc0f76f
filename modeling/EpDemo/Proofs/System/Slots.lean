import EpDemo.Proofs.System.Delivery

/-!
# `EpDemo.Proofs.System.Slots`: messages of one call have different slots

In `dispatch` a slot is numbered by the local expert, the source rank and the slot that the source
handed out. In `combine` it is numbered by the expert and the token, so the rows that a group sends
have to be of different tokens (`Routed`).
-/

set_option autoImplicit false

namespace EpDemo.System.Config

open EpDemo.Kernel EpDemo.Library

variable {A : Type} {c : Config A} {w : World A}

/-! ### `dispatch` -/

/-- The offset of a message of `dispatch`, as the number of its slot. -/
theorem messageOffset_eq (c : Config A) (le r : ℕ) (slot : ℤ) :
    c.messageOffset le r slot =
      (((le : ℤ) * c.numRanks + r) * c.numMaxDispatchTokensPerRank + slot) *
        c.shape.numBytesPerMsg := by
  unfold messageOffset bytesPerRank
  push_cast
  ring

/-- The slots of a sender are among the `num_max_dispatch_tokens_per_rank` of its block. -/
theorem Launches.slot_lt (hv : c.Sound) (hl : c.Launches w) {m r : ℕ} {key : ℕ × ℕ}
    (hr : r < c.numRanks) (hkind : (c.calls m).kind = .dispatch) (hsent : c.DataSent w m r key) :
    0 ≤ (w.disp (r, m)).slot key ∧
      (w.disp (r, m)).slot key < (c.launch r m).numTokensSent (c.dataExpert m r key) ∧
      (w.disp (r, m)).slot key < c.numMaxDispatchTokensPerRank := by
  have hle : m ≤ w.call r := hl.le_of_sent (q := .data key) hr hsent
  have hcall := (hl.hasCall r hr).of_le hle
  have hfit := hv.fits hcall hr
  have htask := hl.task_of_sent hv hr hsent
  simp only [Task, hkind] at htask
  have hslots := Dispatch.slots_of_runs hfit (hl.disp r hr m hle hkind)
  have hslot := hasSlot_of_sent hkind hsent
  have hlt := hslots.lt _ key htask hslot
  have hcard := Dispatch.taskCount_le (c.launch r m) Dispatch.TokenPc.hasSlot
    (w.disp (r, m)).token (c.dataExpert m r key)
  rw [← Launch.numTokensSent_eq_card_tasks _ hfit.numTopk_le] at hcard
  have hsent := numTokensSent_le hv hcall hr (c.dataExpert m r key)
  have hmax := hv.numTokens_le hcall hr
  refine ⟨hslots.nonneg _ key htask hslot, ?_, ?_⟩ <;> omega

/-- The address of a word of a message of `dispatch` gives the rank, the local expert, the source
and the slot. -/
theorem message_word_inj {d d' le le' r s i j : ℕ} {slot slot' : ℤ} (hr : r < c.numRanks)
    (hs : s < c.numRanks) (hlo : 0 ≤ slot) (hhi : slot < c.numMaxDispatchTokensPerRank)
    (hlo' : 0 ≤ slot') (hhi' : slot' < c.numMaxDispatchTokensPerRank)
    (hi : i < c.shape.numBytesPerMsg / 4) (hj : j < c.shape.numBytesPerMsg / 4) {b : ℕ}
    (h : (c.fabric.recvData b d (c.messageOffset le r slot)).add (4 * i) =
      (c.fabric.recvData b d' (c.messageOffset le' s slot')).add (4 * j)) :
    d = d' ∧ le = le' ∧ r = s ∧ slot = slot' := by
  rw [Fabric.recvData_add_inj] at h
  simp only [messageOffset_eq] at h
  obtain ⟨hrank, hoff⟩ := h
  have hnum := (digits_inj (by omega) (by omega) (by omega) (by omega) hoff).1
  obtain ⟨hblock, hslot⟩ := digits_inj hlo hhi hlo' hhi' hnum
  obtain ⟨hle, hrs⟩ := digits_inj (by omega) (by omega) (by omega) (by omega) hblock
  exact ⟨hrank, by exact_mod_cast hle, by exact_mod_cast hrs, hslot⟩

/-- Messages of `dispatch` are apart. -/
theorem Launches.apart_dispatch (hv : c.Sound) (hl : c.Launches w) {m : ℕ}
    (hkind : (c.calls m).kind = .dispatch) : c.Apart w m := by
  intro r hr s hs key key' hsent hsent' hne i hi j hj heq
  rw [dataDst_eq hv, dataDst_eq hv] at heq
  simp only [dataBytes, hkind] at hi hj
  simp only [dataOffset, hkind] at heq
  obtain ⟨hnonneg, -, hlt⟩ := hl.slot_lt hv hr hkind hsent
  obtain ⟨hnonneg', -, hlt'⟩ := hl.slot_lt hv hs hkind hsent'
  obtain ⟨hrank, hmod, rfl, hslot⟩ :=
    message_word_inj hr hs hnonneg hlt hnonneg' hlt' hi hj heq
  have hexpert : c.dataExpert m r key = c.dataExpert m r key' := by
    rw [← Nat.div_add_mod (c.dataExpert m r key) c.numLocalExperts, hrank, hmod,
      Nat.div_add_mod]
  have hle : m ≤ w.call r := hl.le_of_sent (q := .data key) hr hsent
  have hcall := (hl.hasCall r hr).of_le hle
  have hslots := Dispatch.slots_of_runs (hv.fits hcall hr) (hl.disp r hr m hle hkind)
  have htask := hl.task_of_sent hv hr hsent
  have htask' := hl.task_of_sent hv hr hsent'
  simp only [Task, hkind] at htask htask'
  exact hne ⟨rfl, hslots.injOn _ key htask key' (hexpert ▸ htask') (hasSlot_of_sent hkind hsent)
    (hasSlot_of_sent hkind hsent') hslot⟩

/-! ### `combine` -/

/-- The slot that is read for an entry is that of its message. -/
theorem dataDst_of_row (hv : c.Sound) {m r e k : ℕ} (hkind : (c.calls m).kind = .combine) :
    c.dataDst w m (e / c.numLocalExperts) (r * c.numLocalExperts + e % c.numLocalExperts, k) =
      c.fabric.recvData (c.calls m).buf r (c.slotOffset e
        (c.srcInfo w (e / c.numLocalExperts) m (c.combineRow w m (e / c.numLocalExperts)
          (r * c.numLocalExperts + e % c.numLocalExperts, k)))) := by
  obtain ⟨hdiv, hmod⟩ := mul_add_div_mod (a := r) (hv.mod_lt e)
  rw [dataDst_eq hv]
  simp only [dataOffset, dataExpert, hkind, hdiv, hmod, Nat.div_add_mod']

/-- The words of a slot that a warp adds up. -/
theorem word_lt {l : CombineLaunch} {p : Shape} (hhidden : l.hidden = p.hidden) {warp j : ℕ}
    (hwarp : warp < l.numReduceWarps) (hj : j / 128 = warp) : j < p.numBytesPerSlot / 4 := by
  simp only [CombineLaunch.numReduceWarps, hhidden] at hwarp
  unfold Shape.numBytesPerSlot
  omega

/-- The rows that a group sends in a `combine` are of different tokens, on the ranks that have
reached the call. -/
structure Routed (c : Config A) (w : World A) (m : ℕ) : Prop where
  range : ∀ r < c.numRanks, m ≤ w.call r → ∀ e < c.numExperts,
    ∀ k < (c.combineLaunch w r m).numRows e,
    0 ≤ c.srcInfo w r m (c.combineRow w m r (e, k)) ∧
      c.srcInfo w r m (c.combineRow w m r (e, k)) < c.numMaxDispatchTokensPerRank
  injOn : ∀ r < c.numRanks, m ≤ w.call r → ∀ e < c.numExperts,
    ∀ k < (c.combineLaunch w r m).numRows e, ∀ k' < (c.combineLaunch w r m).numRows e,
    c.srcInfo w r m (c.combineRow w m r (e, k)) = c.srcInfo w r m (c.combineRow w m r (e, k')) →
      k = k'

/-- Messages of `combine` are apart. -/
theorem Launches.apart_combine (hv : c.Sound) (hl : c.Launches w) {m : ℕ}
    (hkind : (c.calls m).kind = .combine) (hrouted : c.Routed w m) : c.Apart w m := by
  intro r hr s hs key key' hsent hsent' hne i hi j hj heq
  have htask := hl.task_of_sent hv hr hsent
  have htask' := hl.task_of_sent hv hs hsent'
  have hcall : m ≤ w.call r := hl.le_of_sent (q := .data key) hr hsent
  have hcall' : m ≤ w.call s := hl.le_of_sent (q := .data key') hs hsent'
  simp only [Task, hkind] at htask htask'
  -- Equal addresses are on the same rank and have the same offset.
  rw [dataDst_eq hv, dataDst_eq hv, Fabric.recvData_add_inj] at heq
  simp only [dataBytes, hkind] at hi hj
  simp only [dataOffset, hkind, slotOffset, dataExpert] at heq
  obtain ⟨hrank, hoff⟩ := heq
  obtain ⟨hnonneg, hlt⟩ := hrouted.range r hr hcall key.1 htask.1 key.2 htask.2
  obtain ⟨hnonneg', hlt'⟩ := hrouted.range s hs hcall' key'.1 htask'.1 key'.2 htask'.2
  -- The offset determines the slot, and the slot the expert and the token.
  have hnum := (digits_inj (by omega) (by omega) (by omega) (by omega) hoff).1
  obtain ⟨hexpert, htoken⟩ := digits_inj hnonneg hlt hnonneg' hlt' hnum
  have hexpert : r * c.numLocalExperts + key.1 % c.numLocalExperts =
      s * c.numLocalExperts + key'.1 % c.numLocalExperts := by exact_mod_cast hexpert
  -- The expert of the receiver determines the sender.
  have hrs : r = s := by
    have hdiv := congrArg (· / c.numLocalExperts) hexpert
    simpa only [mul_add_div_mod (hv.mod_lt _)] using hdiv
  subst hrs
  -- And with the sender the expert, whose rows have different tokens.
  have hgroup : key.1 = key'.1 := by
    rw [← Nat.div_add_mod key.1 c.numLocalExperts, hrank, Nat.add_left_cancel hexpert,
      Nat.div_add_mod]
  refine hne ⟨rfl, Prod.ext hgroup ?_⟩
  refine hrouted.injOn r hr hcall key.1 htask.1 key.2 htask.2 key'.2 (hgroup ▸ htask'.2) ?_
  rw [show (key.1, key'.2) = key' from Prod.ext hgroup rfl]
  exact htoken

end EpDemo.System.Config
