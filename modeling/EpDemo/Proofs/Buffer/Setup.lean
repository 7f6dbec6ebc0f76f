import EpDemo.Buffer.Lifecycle
import EpDemo.Proofs.Mlx5gda.Create

/-!
# `EpDemo.Proofs.Buffer.Setup`: the loops over the queue pairs

`setUpQp_cases` is what one turn of the loops of `init_ibgda` and `update_local_qpns` can do. It
makes a queue pair with a new number, in INIT (`QpReady`), or it does not; in either case it leaves
alone every queue pair that there was (`Spared`).

`Done` is the invariant of both loops: the slots below the counter hold queue pairs that are ready,
and no other slot holds one. `destroyQps_cases`, `rebuildQps_cases` and `initSlots_cases` are how
the loops end. The first loop of `update_local_qpns` reads all `USE_QP_COUNT` slots, so it has a
defined behaviour only when the vector has them all.
-/

set_option autoImplicit false

namespace EpDemo.Lifecycle

open EpDemo.Library EpDemo.Memheap EpDemo.Mlx5gda

/-! ### What set-up leaves alone -/

/-- The queue pairs of `d` are in `d'` what they were, and what was issued in between was legal. -/
structure Spared (d d' : Device) : Prop where
  next_le : d.objects.next ≤ d'.objects.next
  state : ∀ id < d.objects.next, d'.qpState id = d.qpState id
  issued : ∀ c ∈ d'.issued, c ∈ d.issued ∨ c.Legal

/-- Nothing was done yet. -/
theorem Spared.refl (d : Device) : Spared d d where
  next_le := le_rfl
  state _ _ := rfl
  issued _ hc := Or.inl hc

/-- One turn after the other spares what was there before the first. -/
theorem Spared.trans {d d' d'' : Device} (h : Spared d d') (h' : Spared d' d'') : Spared d d'' where
  next_le := h.next_le.trans h'.next_le
  state id hid := (h'.state id (hid.trans_le h.next_le)).trans (h.state id hid)
  issued c hc := by
    rcases h'.issued c hc with hc | hc
    · exact h.issued c hc
    · exact Or.inr hc

/-- The queue pair `qp` was made between `d` and `d'`, and it is in INIT. -/
structure QpReady (d : Device) (qp : Qp) (d' : Device) : Prop where
  heap : issue d.heap (creationRequests qpDepth) = (d'.heap, qp.offsets)
  served : sizeMax ∉ qp.offsets
  next_le : d.objects.next ≤ qp.mqp
  lt_next : qp.mqp < d'.objects.next
  state : d'.qpState qp.mqp = some .init

namespace EpBuffer

/-- Every call succeeds whose result is looked at. -/
def SetupAnswers.Succeed (ans : SetupAnswers) : Prop :=
  ans.create.Succeeds ∧ ans.rst2init = true ∧ ans.synchronize = true

/-- Every call succeeds up to `cudaStreamSynchronize`, which does not. -/
def SetupAnswers.Throw (ans : SetupAnswers) : Prop :=
  ans.create.Succeeds ∧ ans.rst2init = true ∧ ans.synchronize = false

/-- The two outcomes of `setUpQp`. An exception is that of `cudaStreamSynchronize`, and there is a
queue pair exactly when no call fails and the heap is not exhausted. -/
theorem setUpQp_cases (ep : EpBuffer) (i : ℕ) (ans : SetupAnswers) :
    (∃ d e, ep.setUpQp i ans = ({ ep with device := d }, .error e) ∧ Spared ep.device d ∧
      (e = .failed ∨ e = .threw ∧ ans.Throw ∧
        sizeMax ∉ (issue ep.device.heap (creationRequests qpDepth)).2) ∧
      ¬(ans.Succeed ∧ sizeMax ∉ (issue ep.device.heap (creationRequests qpDepth)).2)) ∨
    ∃ d qp, ep.setUpQp i ans =
        ({ ep with
            device := d
            qpDevctxs := if ans.memcpy then
              Function.update ep.qpDevctxs i (some (.ofQp qp)) else ep.qpDevctxs }, .ok qp) ∧
      Spared ep.device d ∧ QpReady ep.device qp d ∧ ans.Succeed := by
  have hnone : ∀ d, mlx5gdaCreateRcQp ep.device qpDepth ans.create = (d, none) →
      ¬(ans.Succeed ∧ sizeMax ∉ (issue ep.device.heap (creationRequests qpDepth)).2) := by
    rintro d heq ⟨⟨hcreate, -⟩, hserved⟩
    obtain ⟨qp, d', -, heq'⟩ := mlx5gdaCreateRcQp_succeeds (by decide) hcreate hserved
    rw [heq] at heq'
    cases heq'
  unfold setUpQp
  rcases mlx5gdaCreateRcQp_cases ep.device qpDepth ans.create with
    ⟨-, k, d, -, hundone, heq⟩ | ⟨-, k, d, -, hkept, heq⟩ | ⟨-, qp, d, hqp, heq⟩
  · rw [heq]
    refine Or.inl ⟨d, .failed, rfl, ⟨hundone.next_le, ?_, ?_⟩, Or.inl rfl, hnone d heq⟩
    · exact fun id _ => congrFun hundone.qps.1 id
    · exact fun c hc => Or.inl (hundone.qps.2 ▸ hc)
  · rw [heq]
    refine Or.inl ⟨d, .failed, rfl, ⟨hkept.next_le, ?_, ?_⟩, Or.inl rfl, hnone d heq⟩
    · exact fun id _ => congrFun hkept.qps.1 id
    · exact fun c hc => Or.inl (hkept.qps.2 ▸ hc)
  · have hcreate := QpAnswers.succeeds_of_some heq
    have hserved : sizeMax ∉ (issue ep.device.heap (creationRequests qpDepth)).2 := by
      rw [hqp.heap]
      exact hqp.served
    rw [heq]
    have hnext : d.objects.next = ep.device.objects.next + 4 := by rw [hqp.objects]; rfl
    have hreset : d.qpState qp.mqp = some .reset := by rw [hqp.qpState, Function.update_self]
    have hold : ∀ id < ep.device.objects.next, d.qpState id = ep.device.qpState id := by
      intro id hid
      rw [hqp.qpState, Function.update_of_ne (by rw [hqp.mqp]; omega)]
    -- The only command finds the new queue pair in RESET.
    have hissued : ∀ c ∈ ⟨.rst2init, d.qpState qp.mqp⟩ :: d.issued,
        c ∈ ep.device.issued ∨ c.Legal := by
      intro c hc
      rcases List.mem_cons.mp hc with rfl | hc
      · exact Or.inr hreset
      · exact Or.inl (hqp.issued ▸ hc)
    simp only [mlx5gdaModifyRcQpRst2init, Device.modify]
    cases hrst : ans.rst2init with
    | false =>
      rw [if_neg (by simp)]
      exact Or.inl ⟨_, .failed, rfl, ⟨hnext ▸ by omega, hold, hissued⟩, Or.inl rfl,
        fun h => by simp [SetupAnswers.Succeed, hrst] at h⟩
    | true =>
      rw [if_pos ⟨hreset, rfl⟩]
      have hspared : Spared ep.device
          { d with
            issued := ⟨.rst2init, d.qpState qp.mqp⟩ :: d.issued
            qpState := Function.update d.qpState qp.mqp (some Command.rst2init.target) } := by
        refine ⟨hnext ▸ by omega, fun id hid => ?_, hissued⟩
        show Function.update d.qpState _ _ id = _
        rw [Function.update_of_ne (by rw [hqp.mqp]; omega), hold id hid]
      cases hsync : ans.synchronize with
      | false =>
        exact Or.inl ⟨_, .threw, rfl, hspared, Or.inr ⟨rfl, ⟨hcreate, hrst, hsync⟩, hserved⟩,
          fun h => by simp [SetupAnswers.Succeed, hsync] at h⟩
      | true =>
        refine Or.inr ⟨_, qp, rfl, hspared, ⟨hqp.heap, hqp.served, ?_, ?_, ?_⟩, hcreate, hrst,
          hsync⟩
        · rw [hqp.mqp]
          omega
        · show qp.mqp < d.objects.next
          rw [hqp.mqp, hnext]
          omega
        · exact Function.update_self ..

end EpBuffer

/-! ### Slots -/

/-- Every slot has a queue pair of its own, and none of them is yet to be made. -/
structure Slots (next : ℕ) (qps : List (Option Qp)) : Prop where
  fresh : ∀ (i : ℕ) (qp : Qp), qps[i]? = some (some qp) → qp.mqp < next
  distinct : ∀ (i j : ℕ) (qp qp' : Qp), qps[i]? = some (some qp) → qps[j]? = some (some qp') →
    qp.mqp = qp'.mqp → i = j

/-- The offsets of the queue pair of a slot. -/
def slotOffsets (slot : Option Qp) : List ℕ := slot.elim [] Qp.offsets

/-- No slots, and nothing to say of them. -/
theorem Slots.empty (next : ℕ) : Slots next [] where
  fresh i qp h := by simp at h
  distinct i j qp qp' h := by simp at h

/-- Slots that were emptied. -/
theorem Slots.mono {next next' : ℕ} {qps qps' : List (Option Qp)} (h : Slots next qps)
    (hnext : next ≤ next')
    (hsub : ∀ (i : ℕ) (qp : Qp), qps'[i]? = some (some qp) → qps[i]? = some (some qp)) :
    Slots next' qps' where
  fresh i qp hi := (h.fresh i qp (hsub i qp hi)).trans_le hnext
  distinct i j qp qp' hi hj := h.distinct i j qp qp' (hsub i qp hi) (hsub j qp' hj)

/-- A slot that gets a queue pair whose number is new. -/
theorem Slots.set {next next' i : ℕ} {qps qps' : List (Option Qp)} {qp : Qp} (h : Slots next qps)
    (hold : next ≤ qp.mqp) (hnew : qp.mqp < next') (hi : qps'[i]? = some (some qp))
    (hother : ∀ j : ℕ, j ≠ i → qps'[j]? = qps[j]?) : Slots next' qps' := by
  -- The queue pairs of the other slots were made before this one.
  have hlow : ∀ j qp', j ≠ i → qps'[j]? = some (some qp') → qp'.mqp < next := fun j qp' hj hslot =>
    h.fresh j qp' (hother j hj ▸ hslot)
  refine ⟨fun j qp' hj => ?_, fun j k qp' qp'' hj hk heq => ?_⟩
  · -- Only slot `i` can have a queue pair that is new.
    by_cases hji : j = i
    · subst hji
      obtain rfl : qp = qp' := by rw [hi] at hj; simpa using hj
      exact hnew
    · exact (hlow j qp' hji hj).trans_le (by omega)
  · -- Two slots with one queue pair: neither is `i`, or both are.
    by_cases hji : j = i <;> by_cases hki : k = i
    · rw [hji, hki]
    · subst hji
      obtain rfl : qp = qp' := by rw [hi] at hj; simpa using hj
      have := hlow k qp'' hki hk
      omega
    · subst hki
      obtain rfl : qp = qp'' := by rw [hi] at hk; simpa using hk
      have := hlow j qp' hji hj
      omega
    · exact h.distinct j k qp' qp'' (hother j hji ▸ hj) (hother k hki ▸ hk) heq

/-! ### The invariant of the loops that set up queue pairs -/

/-- The requests of `n` creations. -/
def setupRequests (n : ℕ) : List (ℕ × ℕ) := (List.replicate n (creationRequests qpDepth)).flatten

/-- The last queue pair makes its requests after all others. -/
theorem setupRequests_succ (n : ℕ) :
    setupRequests (n + 1) = setupRequests n ++ creationRequests qpDepth := by
  rw [setupRequests, List.replicate_succ', List.flatten_append, List.flatten_singleton]
  rfl

/-- The requests of the first queue pairs come before those of the others. -/
theorem setupRequests_add (m n : ℕ) :
    setupRequests (m + n) = setupRequests m ++ setupRequests n := by
  rw [setupRequests, List.replicate_add, List.flatten_append]
  rfl

/-- The heap serves the requests of `n` creations. -/
def Serves (h : Heap) (n : ℕ) : Prop := sizeMax ∉ (issue h (setupRequests n)).2

/-- A heap that serves all creations serves the next one. -/
theorem Serves.next {h h₁ : Heap} {i n : ℕ} {os : List ℕ} (hserves : Serves h n) (hi : i < n)
    (hheap : issue h (setupRequests i) = (h₁, os)) :
    sizeMax ∉ (issue h₁ (creationRequests qpDepth)).2 := by
  have hsplit : setupRequests n =
      setupRequests i ++ (creationRequests qpDepth ++ setupRequests (n - (i + 1))) := by
    rw [← List.append_assoc, ← setupRequests_succ, ← setupRequests_add]
    congr 1
    omega
  rw [Serves, hsplit] at hserves
  have hrest := issue_served_of_append hheap hserves
  have happend := issue_append (show issue h₁ (creationRequests qpDepth) = (_, _) from rfl)
    (show issue _ (setupRequests (n - (i + 1))) = (_, _) from rfl)
  rw [happend] at hrest
  exact fun hmem => hrest (List.mem_append_left _ hmem)

/-- The slots below `i` were set up since the device was `d`, and no other slot has a queue
pair. -/
structure Done (d : Device) (setups : ℕ → EpBuffer.SetupAnswers) (i : ℕ) (ep : EpBuffer) :
    Prop where
  spared : Spared d ep.device
  slots : Slots ep.device.objects.next ep.qps
  ready : ∀ j < i, ∃ qp, ep.qps[j]? = some (some qp) ∧ ep.device.qpState qp.mqp = some .init ∧
    ((setups j).memcpy = true → ep.qpDevctxs j = some (.ofQp qp))
  rest : ∀ j, i ≤ j → ∀ qp : Qp, ep.qps[j]? ≠ some (some qp)
  succeeded : ∀ j < i, (setups j).Succeed
  served : sizeMax ∉ (ep.qps.take i).flatMap slotOffsets
  heap : issue d.heap (setupRequests i) = (ep.device.heap, (ep.qps.take i).flatMap slotOffsets)

/-- No slot has a queue pair at the start. -/
theorem Done.zero {ep : EpBuffer} (setups : ℕ → EpBuffer.SetupAnswers)
    (hrest : ∀ (j : ℕ) (qp : Qp), ep.qps[j]? ≠ some (some qp)) : Done ep.device setups 0 ep where
  spared := .refl _
  slots := ⟨fun i qp hi => absurd hi (hrest i qp), fun i _ qp _ hi => absurd hi (hrest i qp)⟩
  ready j hj := absurd hj (Nat.not_lt_zero j)
  rest j _ qp := hrest j qp
  succeeded j hj := absurd hj (Nat.not_lt_zero j)
  served := List.not_mem_nil
  heap := rfl

/-- The heap served what was requested so far. -/
theorem Done.serves {d : Device} {setups : ℕ → EpBuffer.SetupAnswers} {i : ℕ} {ep : EpBuffer}
    (h : Done d setups i ep) : Serves d.heap i := by
  rw [Serves, h.heap]
  exact h.served

/-- Slot `i` gets a queue pair that is ready. -/
theorem Done.succ {d : Device} {setups : ℕ → EpBuffer.SetupAnswers} {i : ℕ} {ep ep' : EpBuffer}
    {qp : Qp} (h : Done d setups i ep) (hspared : Spared ep.device ep'.device)
    (hready : QpReady ep.device qp ep'.device) (hi : ep'.qps[i]? = some (some qp))
    (hother : ∀ j : ℕ, j ≠ i → ep'.qps[j]? = ep.qps[j]?) (hans : (setups i).Succeed)
    (hdevctxs : ep'.qpDevctxs = if (setups i).memcpy then
      Function.update ep.qpDevctxs i (some (.ofQp qp)) else ep.qpDevctxs) :
    Done d setups (i + 1) ep' := by
  -- The turn has not changed the slots before `i`.
  have htake : ep'.qps.take i = ep.qps.take i := by
    refine List.ext_getElem? fun j => ?_
    by_cases hj : j < i
    · rw [List.getElem?_take_of_lt hj, List.getElem?_take_of_lt hj, hother j (by omega)]
    · rw [List.getElem?_eq_none (by rw [List.length_take]; omega),
        List.getElem?_eq_none (by rw [List.length_take]; omega)]
  have hoffsets : (ep'.qps.take (i + 1)).flatMap slotOffsets =
      (ep.qps.take i).flatMap slotOffsets ++ qp.offsets := by
    rw [List.take_add_one, htake, hi, List.flatMap_append]
    simp [slotOffsets]
  refine ⟨h.spared.trans hspared, h.slots.set hready.next_le hready.lt_next hi hother, ?_, ?_, ?_,
    ?_, ?_⟩
  · intro j hj
    -- The slot of this turn, and those of the turns before.
    by_cases hji : j = i
    · subst hji
      refine ⟨qp, hi, hready.state, fun hcopy => ?_⟩
      rw [hdevctxs, if_pos hcopy, Function.update_self]
    · obtain ⟨qp', hslot, hstate, hctx⟩ := h.ready j (by omega)
      refine ⟨qp', (hother j hji).trans hslot, ?_, fun hcopy => ?_⟩
      · rw [hspared.state _ (h.slots.fresh j qp' hslot), hstate]
      · rw [hdevctxs]
        split
        · rw [Function.update_of_ne hji, hctx hcopy]
        · exact hctx hcopy
  · intro j hj qp'
    rw [hother j (by omega)]
    exact h.rest j (by omega) qp'
  · intro j hj
    by_cases hji : j = i
    · exact hji ▸ hans
    · exact h.succeeded j (by omega)
  · rw [hoffsets, List.mem_append, not_or]
    exact ⟨h.served, hready.served⟩
  · rw [setupRequests_succ, hoffsets]
    exact issue_append h.heap hready.heap

/-- Every queue pair is in INIT. -/
def AllInit (ep : EpBuffer) : Prop :=
  ∀ (i : ℕ) (qp : Qp), ep.qps[i]? = some (some qp) → ep.device.qpState qp.mqp = some .init

/-- The loop leaves every queue pair in INIT. -/
theorem Done.allInit {d : Device} {setups : ℕ → EpBuffer.SetupAnswers} {i : ℕ} {ep : EpBuffer}
    (h : Done d setups i ep) : AllInit ep := by
  intro j qp hslot
  by_cases hj : j < i
  · obtain ⟨qp', hslot', hstate, -⟩ := h.ready j hj
    rw [hslot'] at hslot
    obtain rfl : qp' = qp := by simpa using hslot
    exact hstate
  · exact absurd hslot (h.rest j (by omega) qp)

/-! ### The first loop of `update_local_qpns` -/

namespace EpBuffer

/-- The members that no loop over the queue pairs writes. -/
structure Frame (ep ep' : EpBuffer) : Prop where
  config : ep'.config = ep.config
  ledger : ep'.ledger = ep.ledger
  pointers : ep'.pointers = ep.pointers
  pdInitialised : ep'.pdInitialised = ep.pdInitialised
  ipc : ep'.ipc = ep.ipc
  mappings : ep'.mappings = ep.mappings

/-- Nothing was written yet. -/
theorem Frame.refl (ep : EpBuffer) : Frame ep ep := ⟨rfl, rfl, rfl, rfl, rfl, rfl⟩

/-- One turn after the other. -/
theorem Frame.trans {ep ep' ep'' : EpBuffer} (h : Frame ep ep') (h' : Frame ep' ep'') :
    Frame ep ep'' :=
  ⟨h'.config.trans h.config, h'.ledger.trans h.ledger, h'.pointers.trans h.pointers,
    h'.pdInitialised.trans h.pdInitialised, h'.ipc.trans h.ipc, h'.mappings.trans h.mappings⟩

/-- The number of queue pairs that are used comes from the configuration. -/
theorem Frame.useQpCount {ep ep' : EpBuffer} (h : Frame ep ep') :
    ep'.useQpCount = ep.useQpCount := by
  rw [EpBuffer.useQpCount, h.config]
  rfl

/-- What the first loop has done before turn `i`. -/
structure Emptied (ep : EpBuffer) (i : ℕ) (t : EpBuffer) : Prop where
  frame : Frame ep t
  disabled : t.ibgdaDisabled = ep.ibgdaDisabled
  length : t.qps.length = ep.qps.length
  le_length : i ≤ ep.qps.length
  empty : ∀ j < i, t.qps[j]? = some none
  rest : ∀ j, i ≤ j → t.qps[j]? = ep.qps[j]?
  objects : t.device.objects.next = ep.device.objects.next
  issued : t.device.issued = ep.device.issued
  heap : t.device.heap = freeAll ep.device.heap ((ep.qps.take i).flatMap slotOffsets)

/-- One turn of the first loop. -/
theorem Emptied.succ {ep t t' : EpBuffer} {i : ℕ} (h : Emptied ep i t)
    (hbody : destroySlot t i = (t', none)) : Emptied ep (i + 1) t' := by
  -- Slot `i` is what it was before the loop.
  have hget := h.rest i le_rfl
  have hadd : ∀ slot, ep.qps[i]? = some slot → (ep.qps.take (i + 1)).flatMap slotOffsets =
      (ep.qps.take i).flatMap slotOffsets ++ slotOffsets slot := by
    intro slot hslot
    rw [List.take_add_one, hslot, List.flatMap_append]
    simp
  unfold destroySlot at hbody
  rw [hget] at hbody
  cases hslot : ep.qps[i]? with
  | none =>
    -- There is no slot `i`, and the turn reads beyond the array.
    rw [hslot] at hbody
    cases hbody
  | some slot =>
    obtain ⟨hlt, -⟩ := List.getElem?_eq_some_iff.mp hslot
    rw [hslot] at hbody hget
    cases slot with
    | none =>
      -- An empty slot owns no memory.
      cases hbody
      refine ⟨h.frame, h.disabled, h.length, hlt, fun j hj => ?_,
        fun j hj => h.rest j (by omega), h.objects, h.issued, ?_⟩
      · by_cases hji : j = i
        · rw [hji, hget]
        · exact h.empty j (by omega)
      · rw [hadd none hslot, h.heap]
        simp [slotOffsets]
    | some qp =>
      cases hbody
      -- The queue pair is destroyed, and its memory goes back to the heap.
      obtain ⟨hheap, hobjects, -, hissued⟩ := mlx5gdaDestroyQp_eq t.device qp
      refine ⟨h.frame.trans ⟨rfl, rfl, rfl, rfl, rfl, rfl⟩, h.disabled, ?_, hlt, fun j hj => ?_,
        fun j hj => ?_, ?_, ?_, ?_⟩
      · rw [List.length_set, h.length]
      · by_cases hji : j = i
        · rw [hji, List.getElem?_set_self (by rw [h.length]; exact hlt)]
        · rw [List.getElem?_set_ne (Ne.symm hji), h.empty j (by omega)]
      · rw [List.getElem?_set_ne (by omega), h.rest j (by omega)]
      · rw [hobjects]
        exact h.objects
      · rw [hissued, h.issued]
      · rw [hheap, h.heap, hadd (some qp) hslot]
        exact (List.foldl_append ..).symm

/-- The first loop ends when the vector has all `USE_QP_COUNT` slots, and then every slot is null.
Otherwise it reads outside the vector. -/
theorem destroyQps_cases {ep : EpBuffer} (hle : ep.qps.length ≤ ep.useQpCount) :
    (ep.qps.length = ep.useQpCount ∧ ∃ t, ep.destroyQps = (t, none) ∧
      Emptied ep ep.useQpCount t) ∨
    (ep.qps.length < ep.useQpCount ∧ ∃ t, ep.destroyQps = (t, some .undefined) ∧
      t.device.issued = ep.device.issued) := by
  have hstart : Emptied ep 0 ep :=
    ⟨.refl ep, rfl, rfl, Nat.zero_le _, fun j hj => absurd hj (Nat.not_lt_zero j),
      fun j _ => rfl, rfl, rfl, rfl⟩
  rcases forEach_range'_cases (a := 0) (n := ep.useQpCount) hstart
      fun i t t' _ _ ht hbody => ht.succ hbody with
    ⟨t, hend, ht⟩ | ⟨i, t, t', e, -, hi, ht, hbody, hend⟩
  · -- All turns were done, so there was a slot for each.
    rw [Nat.zero_add] at ht
    exact Or.inl ⟨le_antisymm hle ht.le_length, t, hend, ht⟩
  · unfold destroySlot at hbody
    have hget := ht.rest i le_rfl
    cases hslot : ep.qps[i]? with
    | none =>
      -- The array ended before the loop did.
      rw [hget, hslot] at hbody
      cases hbody
      rw [List.getElem?_eq_none_iff] at hslot
      exact Or.inr ⟨by omega, t, hend, ht.issued⟩
    | some slot =>
      rw [hget, hslot] at hbody
      cases slot <;> cases hbody

/-! ### The loops that set up queue pairs -/

/-- A loop on the heap `h` comes to turn `i`, and `cudaStreamSynchronize` fails there. -/
def ThrowsAt (setups : ℕ → SetupAnswers) (h : Heap) (i : ℕ) : Prop :=
  (∀ j < i, (setups j).Succeed) ∧ (setups i).Throw ∧ Serves h (i + 1)

/-- What a loop has done before turn `i`, when the device was that of `ep` at its start. -/
structure Setting (ep : EpBuffer) (setups : ℕ → SetupAnswers) (i : ℕ) (t : EpBuffer) : Prop where
  frame : Frame ep t
  disabled : t.ibgdaDisabled = ep.ibgdaDisabled
  done : Done ep.device setups i t

/-- How a loop over the queue pairs is left early in turn `i`: a call of that turn failed, or the
heap is exhausted. Every slot that had a queue pair still has it. -/
structure Stopped (ep : EpBuffer) (setups : ℕ → SetupAnswers) (i : ℕ) (t t' : EpBuffer)
    (e : Exit) : Prop where
  frame : Frame ep t'
  qps : t'.qps = t.qps
  spared : Spared ep.device t'.device
  slots : Slots t'.device.objects.next t'.qps
  init : AllInit t'
  exit : e = .failed ∨ e = .threw ∧ ThrowsAt setups ep.device.heap i
  fault : ∀ n, i < n → ¬((setups i).Succeed ∧ Serves ep.device.heap n)

/-- A turn that leaves the loop. -/
theorem Setting.stopped {ep t t' : EpBuffer} {setups : ℕ → SetupAnswers} {i : ℕ} {d : Device}
    {e : Exit} (h : Setting ep setups i t) (hspared : Spared t.device d)
    (hexit : e = .failed ∨ e = .threw ∧ (setups i).Throw ∧
      sizeMax ∉ (issue t.device.heap (creationRequests qpDepth)).2)
    (hfault : ¬((setups i).Succeed ∧
      sizeMax ∉ (issue t.device.heap (creationRequests qpDepth)).2))
    (hdevice : t'.device = d) (hframe : Frame t t') (hqps : t'.qps = t.qps) :
    Stopped ep setups i t t' e where
  frame := h.frame.trans hframe
  qps := hqps
  spared := hdevice ▸ h.done.spared.trans hspared
  slots := h.done.slots.mono (hdevice ▸ hspared.next_le) fun _ _ hi => hqps ▸ hi
  init j qp hslot := by
    rw [hqps] at hslot
    rw [hdevice, hspared.state _ (h.done.slots.fresh j qp hslot)]
    exact h.done.allInit j qp hslot
  exit := by
    refine hexit.imp id fun ⟨hthrew, hthrow, hserved⟩ => ⟨hthrew, h.done.succeeded, hthrow, ?_⟩
    rw [Serves, setupRequests_succ,
      issue_append h.done.heap (show issue _ (creationRequests qpDepth) = (_, _) from rfl),
      List.mem_append, not_or]
    exact ⟨h.done.served, hserved⟩
  fault _ hi hno := hfault ⟨hno.1, hno.2.next hi h.done.heap⟩

/-- One turn of the loop of `init_ibgda`. -/
theorem initSlot_cases {ep t : EpBuffer} {setups : ℕ → SetupAnswers} {i : ℕ}
    (h : Setting ep setups i t) (hlen : t.qps.length = i) :
    (∃ t', initSlot setups t i = (t', none) ∧ Setting ep setups (i + 1) t' ∧
      t'.qps.length = i + 1) ∨
    ∃ t' e, initSlot setups t i = (t', some e) ∧ Stopped ep setups i t t' e ∧
      t'.ibgdaDisabled = ep.ibgdaDisabled := by
  unfold initSlot
  rcases setUpQp_cases t i (setups i) with
    ⟨d, e, heq, hspared, hexit, hfault⟩ | ⟨d, qp, heq, hspared, hready, hans⟩
  · -- The slot is not pushed when a creation or its command fails.
    rw [heq]
    exact Or.inr ⟨_, e, rfl,
      h.stopped hspared hexit hfault rfl ⟨rfl, rfl, rfl, rfl, rfl, rfl⟩ rfl, h.disabled⟩
  · rw [heq]
    refine Or.inl ⟨_, rfl, ⟨h.frame.trans ⟨rfl, rfl, rfl, rfl, rfl, rfl⟩, h.disabled,
      h.done.succ hspared hready ?_ (fun j hj => ?_) hans rfl⟩, by simp [hlen]⟩
    · -- The new slot is the last one.
      show (t.qps ++ [some qp])[i]? = some (some qp)
      rw [← hlen, List.getElem?_concat_length]
    · show (t.qps ++ [some qp])[j]? = t.qps[j]?
      by_cases hji : j < i
      · exact List.getElem?_append_left (by omega)
      · rw [List.getElem?_eq_none (by simp; omega), List.getElem?_eq_none (by omega)]

/-- One turn of the second loop of `update_local_qpns`. -/
theorem rebuildSlot_cases {ep t : EpBuffer} {setups : ℕ → SetupAnswers} {i : ℕ}
    (h : Setting ep setups i t) (hi : i < t.qps.length) :
    (∃ t', rebuildSlot setups t i = (t', none) ∧ Setting ep setups (i + 1) t' ∧
      t'.qps.length = t.qps.length) ∨
    ∃ t' e, rebuildSlot setups t i = (t', some e) ∧ Stopped ep setups i t t' e ∧
      (e = .failed → t'.ibgdaDisabled = true) ∧
      (e = .threw → t'.ibgdaDisabled = ep.ibgdaDisabled) := by
  unfold rebuildSlot
  rcases setUpQp_cases t i (setups i) with
    ⟨d, e, heq, hspared, hexit, hfault⟩ | ⟨d, qp, heq, hspared, hready, hans⟩
  · rw [heq]
    -- A failure disables IBGDA, and an exception leaves the call before that.
    rcases hexit with rfl | ⟨rfl, hthrow⟩
    · exact Or.inr ⟨_, .failed, rfl, h.stopped hspared (Or.inl rfl) hfault rfl
        ⟨rfl, rfl, rfl, rfl, rfl, rfl⟩ rfl, fun _ => rfl, nofun⟩
    · exact Or.inr ⟨_, .threw, rfl, h.stopped hspared (Or.inr ⟨rfl, hthrow⟩) hfault rfl
        ⟨rfl, rfl, rfl, rfl, rfl, rfl⟩ rfl, nofun, fun _ => h.disabled⟩
  · rw [heq]
    refine Or.inl ⟨_, rfl, ⟨h.frame.trans ⟨rfl, rfl, rfl, rfl, rfl, rfl⟩, h.disabled,
      h.done.succ hspared hready ?_ (fun j hj => ?_) hans rfl⟩, by simp⟩
    · exact List.getElem?_set_self hi
    · exact List.getElem?_set_ne (Ne.symm hj)

/-- The loop of `init_ibgda` ends with `USE_QP_COUNT` slots that are set up, or it leaves with fewer
slots. -/
theorem initSlots_cases {ep : EpBuffer} (setups : ℕ → SetupAnswers) (hqps : ep.qps = []) :
    (∃ t, forEach (initSlot setups) (List.range' 0 ep.useQpCount) ep = (t, none) ∧
      Setting ep setups ep.useQpCount t ∧ t.qps.length = ep.useQpCount) ∨
    ∃ i t t' e, forEach (initSlot setups) (List.range' 0 ep.useQpCount) ep = (t', some e) ∧
      i < ep.useQpCount ∧ Stopped ep setups i t t' e ∧ t'.qps.length = i ∧
      t'.ibgdaDisabled = ep.ibgdaDisabled := by
  -- No slot has a queue pair before the loop.
  have hstart : Setting ep setups 0 ep ∧ ep.qps.length = 0 :=
    ⟨⟨.refl ep, rfl, .zero setups fun j qp => by simp [hqps]⟩, by simp [hqps]⟩
  rcases forEach_range'_turns (I := fun i t => Setting ep setups i t ∧ t.qps.length = i) hstart
    fun i t _ ht => initSlot_cases ht.1 ht.2 with
    hend | ⟨i, t, t', e, hend, hi, ht, hstopped, hflag⟩
  · exact Or.inl hend
  · exact Or.inr ⟨i, t, t', e, hend, hi, hstopped, hstopped.qps ▸ ht.2, hflag⟩

/-- The second loop of `update_local_qpns` ends with all slots set up, or it leaves with as many
slots as before. -/
theorem rebuildQps_cases {ep : EpBuffer} (setups : ℕ → SetupAnswers)
    (hlen : ep.qps.length = ep.useQpCount)
    (hnull : ∀ (j : ℕ) (qp : Qp), ep.qps[j]? ≠ some (some qp)) :
    (∃ t, rebuildQps setups ep = (t, none) ∧ Setting ep setups ep.useQpCount t ∧
      t.qps.length = ep.useQpCount) ∨
    ∃ i t t' e, rebuildQps setups ep = (t', some e) ∧ i < ep.useQpCount ∧
      Stopped ep setups i t t' e ∧ t'.qps.length = ep.useQpCount ∧
      (e = .failed → t'.ibgdaDisabled = true) ∧
      (e = .threw → t'.ibgdaDisabled = ep.ibgdaDisabled) := by
  have hstart : Setting ep setups 0 ep ∧ ep.qps.length = ep.useQpCount :=
    ⟨⟨.refl ep, rfl, .zero setups hnull⟩, hlen⟩
  rcases forEach_range'_turns
    (I := fun i t => Setting ep setups i t ∧ t.qps.length = ep.useQpCount) hstart
    fun i t hi ht => (rebuildSlot_cases ht.1 (by rw [ht.2]; exact hi)).imp_left
      fun ⟨u, heq, hu, hlen'⟩ => ⟨u, heq, hu, hlen'.trans ht.2⟩ with
    hend | ⟨i, t, t', e, hend, hi, ht, hstopped, hflag⟩
  · exact Or.inl hend
  · exact Or.inr ⟨i, t, t', e, hend, hi, hstopped, hstopped.qps ▸ ht.2, hflag⟩

/-! ### `update_local_qpns` -/

/-- After the first loop no slot has a queue pair. -/
theorem Emptied.null {ep t : EpBuffer} (h : Emptied ep ep.useQpCount t)
    (hlen : ep.qps.length = ep.useQpCount) (j : ℕ) (qp : Qp) : t.qps[j]? ≠ some (some qp) := by
  by_cases hj : j < ep.useQpCount
  · rw [h.empty j hj]
    simp
  · rw [List.getElem?_eq_none (by rw [h.length]; omega)]
    simp

/-- `update_local_qpns` has no defined behaviour when slots are missing. Otherwise it destroys every
queue pair, and sets up all slots or stops at one of them. -/
theorem updateLocalQpns_cases {ep : EpBuffer} (setups : ℕ → SetupAnswers)
    (hle : ep.qps.length ≤ ep.useQpCount) :
    (ep.qps.length < ep.useQpCount ∧ ∃ t, ep.updateLocalQpns setups = (t, some .undefined) ∧
      t.device.issued = ep.device.issued) ∨
    ep.qps.length = ep.useQpCount ∧ ∃ t, Emptied ep ep.useQpCount t ∧
      ((∃ t', ep.updateLocalQpns setups = (t', none) ∧ Setting t setups ep.useQpCount t' ∧
        t'.qps.length = ep.useQpCount) ∨
      ∃ i u t' e, ep.updateLocalQpns setups = (t', some e) ∧ i < ep.useQpCount ∧
        Stopped t setups i u t' e ∧ t'.qps.length = ep.useQpCount ∧
        (e = .failed → t'.ibgdaDisabled = true) ∧
        (e = .threw → t'.ibgdaDisabled = ep.ibgdaDisabled)) := by
  unfold updateLocalQpns
  rcases destroyQps_cases hle with ⟨hlen, t, heq, ht⟩ | ⟨hlt, t, heq, hissued⟩
  · -- Both loops run over `useQpCount` slots.
    rw [heq, andThen_none]
    have huse : t.useQpCount = ep.useQpCount := ht.frame.useQpCount
    have hcases := @rebuildQps_cases t setups (by rw [ht.length, huse]; exact hlen)
      (ht.null hlen)
    rw [huse, ht.disabled] at hcases
    exact Or.inr ⟨hlen, t, ht, hcases⟩
  · rw [heq, andThen_some]
    exact Or.inl ⟨hlt, t, rfl, hissued⟩

/-- What every call of `update_local_qpns` with a defined behaviour keeps. -/
structure Updated (ep ep' : EpBuffer) : Prop where
  frame : Frame ep ep'
  length : ep'.qps.length = ep.qps.length
  slots : Slots ep'.device.objects.next ep'.qps
  init : AllInit ep'
  next_le : ep.device.objects.next ≤ ep'.device.objects.next
  issued : ∀ c ∈ ep'.device.issued, c ∈ ep.device.issued ∨ c.Legal

/-- What the first loop emptied and the second one filled again keeps what `Updated` says. -/
theorem Emptied.updated {ep t t' : EpBuffer} (h : Emptied ep ep.useQpCount t)
    (hframe : Frame t t') (hlen : t'.qps.length = ep.qps.length)
    (hspared : Spared t.device t'.device) (hslots : Slots t'.device.objects.next t'.qps)
    (hinit : AllInit t') : Updated ep t' where
  frame := h.frame.trans hframe
  length := hlen
  slots := hslots
  init := hinit
  next_le := h.objects.symm.le.trans hspared.next_le
  issued c hc := by
    rcases hspared.issued c hc with hc | hc
    · exact Or.inl (h.issued ▸ hc)
    · exact Or.inr hc

/-- The heap once all queue pairs were destroyed. -/
def emptiedHeap (ep : EpBuffer) : Heap := freeAll ep.device.heap (ep.qps.flatMap slotOffsets)

/-- After the first loop the heap is the old one with the memory of all queue pairs freed. -/
theorem Emptied.heap_eq {ep t : EpBuffer} (h : Emptied ep ep.useQpCount t)
    (hlen : ep.qps.length = ep.useQpCount) : t.device.heap = ep.emptiedHeap := by
  rw [h.heap, List.take_of_length_le hlen.le]
  rfl

/-- The outcomes of `update_local_qpns` on a vector that has all slots. -/
theorem updateLocalQpns_outcome {ep : EpBuffer} (setups : ℕ → SetupAnswers)
    (hlen : ep.qps.length = ep.useQpCount) :
    (∃ t', ep.updateLocalQpns setups = (t', none) ∧ Updated ep t' ∧
      t'.ibgdaDisabled = ep.ibgdaDisabled ∧ (∀ j < ep.useQpCount, (setups j).Succeed) ∧
      Serves ep.emptiedHeap ep.useQpCount ∧ ∀ j < ep.useQpCount, ∃ qp,
        t'.qps[j]? = some (some qp) ∧ t'.device.qpState qp.mqp = some .init ∧
        ((setups j).memcpy = true → t'.qpDevctxs j = some (.ofQp qp))) ∨
    (∃ t', ep.updateLocalQpns setups = (t', some .failed) ∧ Updated ep t' ∧
      t'.ibgdaDisabled = true) ∨
    ∃ t', ep.updateLocalQpns setups = (t', some .threw) ∧ Updated ep t' ∧
      t'.ibgdaDisabled = ep.ibgdaDisabled ∧
      ∃ i < ep.useQpCount, ThrowsAt setups ep.emptiedHeap i := by
  rcases updateLocalQpns_cases setups hlen.le with
    ⟨hlt, -⟩ | ⟨-, t, ht, ⟨t', heq, hset, hlen'⟩ |
      ⟨i, u, t', e, heq, hi, hstop, hlen', hfail, hkept⟩⟩
  · omega
  · exact Or.inl ⟨t', heq, ht.updated hset.frame (hlen'.trans hlen.symm) hset.done.spared
      hset.done.slots hset.done.allInit, hset.disabled.trans ht.disabled, hset.done.succeeded,
      ht.heap_eq hlen ▸ hset.done.serves, hset.done.ready⟩
  · have hupdated := ht.updated hstop.frame (hlen'.trans hlen.symm) hstop.spared hstop.slots
      hstop.init
    -- The second loop has stopped, by a failure or by an exception.
    rcases hstop.exit with rfl | ⟨rfl, hthrow⟩
    · exact Or.inr (Or.inl ⟨t', heq, hupdated, hfail rfl⟩)
    · exact Or.inr (Or.inr ⟨t', heq, hupdated, hkept rfl, i, hi,
        ht.heap_eq hlen ▸ hthrow⟩)

end EpBuffer

end EpDemo.Lifecycle
