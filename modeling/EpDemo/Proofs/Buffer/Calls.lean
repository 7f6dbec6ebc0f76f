import EpDemo.Proofs.Buffer.Construct

/-!
# `EpDemo.Proofs.Buffer.Calls`: what the other calls do to the queue pairs

`sync_ib` and `sync_roce` issue commands and nothing else: they write the states of queue pairs, and
never back to RESET (`Connecting`). `sync_nvlink_ipc_handles` does not touch the queue pairs
(`SameQueues` up to the pointers to other ranks). With `update_local_qpns` these are all the calls,
so every `EpBuffer` that is reached is `Sound` (`sound_of_reachable`).
-/

set_option autoImplicit false

namespace EpDemo.Lifecycle

open EpDemo.Library EpDemo.Memheap EpDemo.Mlx5gda
open EpDemo.Buffer (IpcBuffer IpcCall peerRank)

/-- The queue pair is alive and went through RST2INIT. -/
def ReachedInit (state : Option QpState) : Prop :=
  state = some .init ∨ state = some .rtr ∨ state = some .rts

/-- What commands to the queue pair `id` do to the device. From INIT they are legal. When one is
sent that finds another state, it is not. -/
structure Commanded (d : Device) (id : ℕ) (sent : Prop) (d' : Device) : Prop where
  heap : d'.heap = d.heap
  objects : d'.objects = d.objects
  others : ∀ j ≠ id, d'.qpState j = d.qpState j
  reached : ReachedInit (d.qpState id) → ReachedInit (d'.qpState id)
  legal : (sent → d.qpState id = some .init) → ∀ c ∈ d'.issued, c ∈ d.issued ∨ c.Legal
  illegal : sent → d.qpState id ≠ some .init → ∃ c ∈ d'.issued, ¬c.Legal

namespace EpBuffer

/-- Without an address handle on Ethernet no command is sent. -/
def SyncAnswers.Send (ans : SyncAnswers) (qp : Qp) : Prop :=
  ¬(qp.linkLayer = .ethernet ∧ ans.createAh = false)

/-- The device and the driver do what is asked of them for a slot. -/
def SyncAnswers.Accept (ans : SyncAnswers) (qp : Qp) : Prop :=
  ans.Send qp ∧ ans.init2rtr = true ∧ ans.rtr2rts = true

/-- The two commands of a slot: they reach RTS, or one of them fails. None fails when the queue pair
is in INIT and the answers are good, and only then. -/
theorem connect_cases (d : Device) (qp : Qp) (ans : SyncAnswers) :
    (∃ d', mlx5gdaModifyRcQpInit2rtr d (some qp) ans.createAh ans.init2rtr = (d', false) ∧
      Commanded d qp.mqp (ans.Send qp) d' ∧
      ¬(d.qpState qp.mqp = some .init ∧ ans.Accept qp)) ∨
    ∃ d₁, mlx5gdaModifyRcQpInit2rtr d (some qp) ans.createAh ans.init2rtr = (d₁, true) ∧
      ((∃ d', mlx5gdaModifyRcQpRtr2rts d₁ (some qp) ans.rtr2rts = (d', false) ∧
        Commanded d qp.mqp (ans.Send qp) d' ∧
        ¬(d.qpState qp.mqp = some .init ∧ ans.Accept qp)) ∨
      ∃ d', mlx5gdaModifyRcQpRtr2rts d₁ (some qp) ans.rtr2rts = (d', true) ∧
        Commanded d qp.mqp (ans.Send qp) d' ∧ d'.qpState qp.mqp = some .rts ∧
        d.qpState qp.mqp = some .init ∧ ans.Accept qp) := by
  simp only [mlx5gdaModifyRcQpInit2rtr, mlx5gdaModifyRcQpRtr2rts, Device.modify]
  by_cases hah : qp.linkLayer = .ethernet ∧ ans.createAh = false
  · rw [if_pos hah]
    exact Or.inl ⟨d, rfl, ⟨rfl, rfl, fun _ _ => rfl, fun h => h, fun _ c hc => Or.inl hc,
      fun hsent => absurd hah hsent⟩, fun h => h.2.1 hah⟩
  rw [if_neg hah]
  have hfirst : d.qpState qp.mqp = some .init →
      ∀ c ∈ ⟨.init2rtr, d.qpState qp.mqp⟩ :: d.issued, c ∈ d.issued ∨ c.Legal := by
    intro hinit c hc
    rcases List.mem_cons.mp hc with rfl | hc
    · exact Or.inr hinit
    · exact Or.inl hc
  by_cases hok : d.qpState qp.mqp = some Command.init2rtr.source ∧ ans.init2rtr = true
  swap
  · rw [if_neg hok]
    exact Or.inl ⟨_, rfl, ⟨rfl, rfl, fun _ _ => rfl, fun h => h, fun h => hfirst (h hah),
      fun _ hno => ⟨_, List.mem_cons_self, hno⟩⟩, fun h => hok ⟨h.1, h.2.2.1⟩⟩
  rw [if_pos hok]
  refine Or.inr ⟨_, rfl, ?_⟩
  have hrtr : Function.update d.qpState qp.mqp (some Command.init2rtr.target) qp.mqp =
      some Command.rtr2rts.source := Function.update_self ..
  -- The second command finds the queue pair in RTR.
  have hsecond : ∀ c ∈ ⟨.rtr2rts, Function.update d.qpState qp.mqp
      (some Command.init2rtr.target) qp.mqp⟩ :: ⟨.init2rtr, d.qpState qp.mqp⟩ :: d.issued,
      c ∈ d.issued ∨ c.Legal := by
    intro c hc
    rcases List.mem_cons.mp hc with rfl | hc
    · exact Or.inr hrtr
    · exact hfirst hok.1 c hc
  cases hans : ans.rtr2rts with
  | false =>
    rw [if_neg (by simp)]
    refine Or.inl ⟨_, rfl, ⟨rfl, rfl, fun j hj => Function.update_of_ne hj .., fun _ => ?_,
      fun _ => hsecond, fun _ hno => absurd hok.1 hno⟩,
      fun h => by simp [hans, SyncAnswers.Accept] at h⟩
    exact Or.inr (Or.inl hrtr)
  | true =>
    rw [if_pos ⟨hrtr, rfl⟩]
    have hrts : Function.update (Function.update d.qpState qp.mqp
        (some Command.init2rtr.target)) qp.mqp (some Command.rtr2rts.target) qp.mqp = some .rts :=
      Function.update_self ..
    refine Or.inr ⟨_, rfl, ⟨rfl, rfl, fun j hj => ?_, fun _ => Or.inr (Or.inr hrts),
      fun _ => hsecond, fun _ hno => absurd hok.1 hno⟩, hrts, hok.1, hah, hok.2, hans⟩
    show Function.update (Function.update _ _ _) _ _ j = _
    rw [Function.update_of_ne hj, Function.update_of_ne hj]

/-! ### `sync_ib` and `sync_roce` -/

/-- The peer of slot `i` is active. -/
def Active (ep : EpBuffer) (args : SyncArgs) (i : ℕ) : Prop :=
  ∃ a, args.activeRanksMask[peerRank ep.config.numRanks ep.useQpCount i]? = some a ∧ a ≠ 0

/-- The vectors that slot `i` is connected with are long enough. -/
def Covered (ep : EpBuffer) (args : SyncArgs) (remote : Remote) (i : ℕ) : Prop :=
  remote.covers args.remoteQpns i (peerRank ep.config.numRanks ep.useQpCount i) = true

/-- One turn of the loop over the slots. A slot whose peer is not active is left alone. An active
slot without a queue pair, or whose vectors are too short, stops the loop; an active slot with a
queue pair gets its two commands. -/
theorem syncSlot_cases (ep : EpBuffer) (args : SyncArgs) (remote : Remote) (i : ℕ) :
    (¬ep.Active args i ∧
      (args.activeRanksMask[peerRank ep.config.numRanks ep.useQpCount i]? = some 0 ∧
          ep.syncSlot args remote i = (ep, none) ∨
        args.activeRanksMask[peerRank ep.config.numRanks ep.useQpCount i]? = none ∧
          ep.syncSlot args remote i = (ep, some .undefined))) ∨
    (ep.Active args i ∧ ¬(ep.Covered args remote i ∧ ∃ qp, ep.qps[i]? = some (some qp)) ∧
      ∃ e, ep.syncSlot args remote i = (ep, some e) ∧
        (e = .undefined ∨ e = .exited ∧ ep.qps[i]? = some none)) ∨
    ep.Active args i ∧ ep.Covered args remote i ∧ ∃ qp d, ep.qps[i]? = some (some qp) ∧
      Commanded ep.device qp.mqp ((args.answers i).Send qp) d ∧
      (ep.syncSlot args remote i = ({ ep with device := d }, none) ∧
          d.qpState qp.mqp = some .rts ∧ ep.device.qpState qp.mqp = some .init ∧
          (args.answers i).Accept qp ∨
        ep.syncSlot args remote i = ({ ep with device := d }, some .exited) ∧
          ¬(ep.device.qpState qp.mqp = some .init ∧ (args.answers i).Accept qp)) := by
  unfold syncSlot Active Covered
  dsimp only
  -- The loop first looks at the entry of the rank in the mask.
  cases hmask : args.activeRanksMask[peerRank ep.config.numRanks ep.useQpCount i]? with
  | none => exact Or.inl ⟨by simp, Or.inr ⟨rfl, rfl⟩⟩
  | some active =>
    by_cases hzero : active = 0
    · simp only [hzero, if_true]
      exact Or.inl ⟨by simp, Or.inl ⟨trivial, trivial⟩⟩
    have hactive : ∃ a, some active = some a ∧ a ≠ 0 := ⟨active, rfl, hzero⟩
    simp only [if_neg hzero]
    refine Or.inr ?_
    -- Then it reads its own arguments, which may be too short.
    cases hslot : ep.qps[i]? with
    | none => exact Or.inl ⟨hactive, by simp, .undefined, rfl, Or.inl rfl⟩
    | some slot =>
    cases hcovers : remote.covers args.remoteQpns i
        (peerRank ep.config.numRanks ep.useQpCount i) with
    | false => exact Or.inl ⟨hactive, by simp, .undefined, rfl, Or.inl rfl⟩
    | true =>
    -- Of an empty slot `sync_roce` reads a member, and `sync_ib` fails in its first command.
    cases slot with
    | none =>
      cases hreads : remote.readsQp with
      | true => exact Or.inl ⟨hactive, by simp, .undefined, rfl, Or.inl rfl⟩
      | false => exact Or.inl ⟨hactive, by simp, .exited, rfl, Or.inr ⟨rfl, rfl⟩⟩
    | some qp =>
      simp only [Bool.not_true, Option.isNone_some, Bool.and_false, Bool.or_self,
        Bool.false_eq_true, if_false]
      refine Or.inr ⟨hactive, trivial, qp, ?_⟩
      -- The two commands in a row: each of them can fail.
      rcases connect_cases ep.device qp (args.answers i) with
        ⟨d, heq, hcom, hno⟩ | ⟨d₁, heq, ⟨d, heq', hcom, hno⟩ | ⟨d, heq', hcom, hdone⟩⟩
      · rw [heq]
        exact ⟨d, rfl, hcom, Or.inr ⟨rfl, hno⟩⟩
      · simp only [heq, heq']
        exact ⟨d, trivial, hcom, Or.inr ⟨rfl, hno⟩⟩
      · simp only [heq, heq']
        exact ⟨d, trivial, hcom, Or.inl ⟨rfl, hdone⟩⟩

/-- What `sync_ib` and `sync_roce` leave alone. -/
structure Connecting (ep ep' : EpBuffer) : Prop where
  frame : Frame ep ep'
  qps : ep'.qps = ep.qps
  qpDevctxs : ep'.qpDevctxs = ep.qpDevctxs
  ibgdaDisabled : ep'.ibgdaDisabled = ep.ibgdaDisabled
  heap : ep'.device.heap = ep.device.heap
  objects : ep'.device.objects = ep.device.objects
  reached : ∀ id, ReachedInit (ep.device.qpState id) → ReachedInit (ep'.device.qpState id)

/-- Nothing was done yet. -/
theorem Connecting.refl (ep : EpBuffer) : Connecting ep ep :=
  ⟨.refl ep, rfl, rfl, rfl, rfl, rfl, fun _ h => h⟩

/-- One turn of the loop after the other. -/
theorem Connecting.trans {ep ep' ep'' : EpBuffer} (h : Connecting ep ep')
    (h' : Connecting ep' ep'') : Connecting ep ep'' :=
  ⟨h.frame.trans h'.frame, h'.qps.trans h.qps, h'.qpDevctxs.trans h.qpDevctxs,
    h'.ibgdaDisabled.trans h.ibgdaDisabled, h'.heap.trans h.heap, h'.objects.trans h.objects,
    fun id hid => h'.reached id (h.reached id hid)⟩

/-- The commands to one queue pair. -/
theorem Commanded.connecting {ep : EpBuffer} {id : ℕ} {sent : Prop} {d : Device}
    (h : Commanded ep.device id sent d) : Connecting ep { ep with device := d } where
  frame := ⟨rfl, rfl, rfl, rfl, rfl, rfl⟩
  qps := rfl
  qpDevctxs := rfl
  ibgdaDisabled := rfl
  heap := h.heap
  objects := h.objects
  reached j hj := by
    by_cases hjid : j = id
    · rw [hjid] at hj ⊢
      exact h.reached hj
    · rw [show ({ ep with device := d } : EpBuffer).device.qpState j = _ from h.others j hjid]
      exact hj

/-- A turn of `sync_ib` or `sync_roce` changes the states of queue pairs and no more. -/
theorem syncSlot_connecting (ep : EpBuffer) (args : SyncArgs) (remote : Remote) (i : ℕ) :
    Connecting ep (ep.syncSlot args remote i).1 := by
  rcases ep.syncSlot_cases args remote i with
    ⟨-, ⟨-, heq⟩ | ⟨-, heq⟩⟩ | ⟨-, -, e, heq, -⟩ | ⟨-, -, qp, d, -, hcom, ⟨heq, -⟩ | ⟨heq, -⟩⟩
  · rw [heq]
    exact .refl ep
  · rw [heq]
    exact .refl ep
  · rw [heq]
    exact .refl ep
  · rw [heq]
    exact Commanded.connecting hcom
  · rw [heq]
    exact Commanded.connecting hcom

/-- The loop over the ranks writes no member that is modelled. -/
theorem publishRank_fst (ep : EpBuffer) (args : SyncArgs) (i : ℕ) :
    (ep.publishRank args i).1 = ep := by
  unfold publishRank
  split
  · rfl
  · split_ifs <;> rfl

/-- The loop over all slots changes no more than its turns. -/
theorem syncQps_connecting (ep : EpBuffer) (args : SyncArgs) (remote : Remote) :
    Connecting ep (ep.syncQps args remote).1 := by
  have hslots : Connecting ep
      (forEach (syncSlot args remote) (List.range' 0 ep.useQpCount) ep).1 :=
    forEach_invariant (.refl ep) fun i _ t ht => ht.trans (t.syncSlot_connecting args remote i)
  unfold syncQps
  rcases heq : forEach (syncSlot args remote) (List.range' 0 ep.useQpCount) ep with ⟨t, _ | e⟩
  · rw [heq] at hslots
    rw [andThen_none]
    exact forEach_invariant hslots fun i _ u hu => by rwa [publishRank_fst]
  · rw [heq] at hslots
    exact hslots

/-! ### `sync_nvlink_ipc_handles` -/

/-- What `sync_nvlink_ipc_handles` leaves alone. -/
structure Opening (ep ep' : EpBuffer) : Prop where
  config : ep'.config = ep.config
  device : ep'.device = ep.device
  pointers : ep'.pointers = ep.pointers
  pdInitialised : ep'.pdInitialised = ep.pdInitialised
  qps : ep'.qps = ep.qps
  qpDevctxs : ep'.qpDevctxs = ep.qpDevctxs
  ibgdaDisabled : ep'.ibgdaDisabled = ep.ibgdaDisabled

/-- To open the memory of one rank writes neither queue pairs nor pointers. -/
theorem openMapping_opening (ep : EpBuffer) (call : IpcCall) (dstRank : ℕ) :
    Opening ep (openMapping call ep dstRank) := by
  unfold openMapping
  split
  · exact ⟨rfl, rfl, rfl, rfl, rfl, rfl, rfl⟩
  · exact ⟨rfl, rfl, rfl, rfl, rfl, rfl, rfl⟩

/-- The loop over the ranks does not write them either. -/
theorem openMappings_opening (ep : EpBuffer) (call : IpcCall) :
    Opening ep (ep.openMappings call) := by
  unfold openMappings
  split
  · exact ⟨rfl, rfl, rfl, rfl, rfl, rfl, rfl⟩
  · refine foldl_range'_invariant (I := fun _ t => Opening ep t)
      ⟨rfl, rfl, rfl, rfl, rfl, rfl, rfl⟩ fun i t _ _ ht => ?_
    have hnext := openMapping_opening t call i
    exact ⟨hnext.config.trans ht.config, hnext.device.trans ht.device,
      hnext.pointers.trans ht.pointers, hnext.pdInitialised.trans ht.pdInitialised,
      hnext.qps.trans ht.qps, hnext.qpDevctxs.trans ht.qpDevctxs,
      hnext.ibgdaDisabled.trans ht.ibgdaDisabled⟩

/-- The same of the whole call, however it ends. -/
theorem syncNvlinkIpcHandles_opening (ep : EpBuffer) (call : IpcCall) (ans : IpcAnswers) :
    Opening ep (ep.syncNvlinkIpcHandles call ans).1 := by
  obtain ⟨hconfig, hdevice, hpointers, hpd, hqps, hctx, hflag⟩ := ep.openMappings_opening call
  unfold syncNvlinkIpcHandles
  split_ifs
  · exact ⟨rfl, rfl, rfl, rfl, rfl, rfl, rfl⟩
  · exact ⟨hconfig, hdevice, hpointers, hpd, hqps, hctx, hflag⟩
  · exact ⟨hconfig, hdevice, hpointers, hpd, hqps, hctx, hflag⟩
  · exact ⟨hconfig, hdevice, hpointers, hpd, hqps, hctx, hflag⟩

/-! ### Runs -/

/-- The slots stay sound when they are kept. -/
theorem Sound.of_kept {ep ep' : EpBuffer} (h : Sound ep) (hconfig : ep'.config = ep.config)
    (hobjects : ep'.device.objects = ep.device.objects) (hqps : ep'.qps = ep.qps)
    (hflag : ep'.ibgdaDisabled = ep.ibgdaDisabled) : Sound ep' := by
  have huse : ep'.useQpCount = ep.useQpCount := by rw [useQpCount, useQpCount, hconfig]
  refine ⟨?_, ?_, fun henabled => ?_⟩
  · rw [hobjects, hqps]
    exact h.slots
  · rw [hqps, huse]
    exact h.length_le
  · rw [hqps, huse]
    exact h.enabled (hflag ▸ henabled)

/-- Every call after which the caller goes on keeps the slots sound. -/
theorem Sound.call {ep : EpBuffer} (h : Sound ep) {c : Call} (hc : Continues (ep.call c).2) :
    (ep.call c).1.config = ep.config ∧ Sound (ep.call c).1 := by
  -- Only `update_local_qpns` makes new queue pairs, and it makes as many as there were.
  cases c with
  | updateLocalQpns setups =>
    simp only [EpBuffer.call] at hc ⊢
    by_cases hlen : ep.qps.length = ep.useQpCount
    · obtain ⟨t, e, heq, hupdated⟩ : ∃ t e, ep.updateLocalQpns setups = (t, e) ∧ Updated ep t := by
        rcases updateLocalQpns_outcome setups hlen with
          ⟨t, heq, hup, -⟩ | ⟨t, heq, hup, -⟩ | ⟨t, heq, hup, -⟩
        · exact ⟨t, _, heq, hup⟩
        · exact ⟨t, _, heq, hup⟩
        · exact ⟨t, _, heq, hup⟩
      have huse := hupdated.frame.useQpCount
      have hlen' : t.qps.length = t.useQpCount := by rw [hupdated.length, huse, hlen]
      rw [heq]
      exact ⟨hupdated.frame.config, hupdated.slots, hlen'.le, fun _ => hlen'⟩
    · -- With another number of slots the call leaves the array, and does not continue.
      rcases updateLocalQpns_cases setups h.length_le with ⟨-, t, heq, -⟩ | ⟨hlen', -⟩
      · rw [heq] at hc
        exact absurd hc id
      · exact absurd hlen' hlen
  | syncIb args lids =>
    -- The other calls keep the slots.
    have hcon := ep.syncQps_connecting args (.ib lids)
    exact ⟨hcon.frame.config, h.of_kept hcon.frame.config hcon.objects hcon.qps hcon.ibgdaDisabled⟩
  | syncRoce args subnetPrefixes interfaceIds =>
    have hcon := ep.syncQps_connecting args (.roce subnetPrefixes interfaceIds)
    exact ⟨hcon.frame.config, h.of_kept hcon.frame.config hcon.objects hcon.qps hcon.ibgdaDisabled⟩
  | syncNvlinkIpcHandles ipc ans =>
    have hopen := ep.syncNvlinkIpcHandles_opening ipc ans
    exact ⟨hopen.config, h.of_kept hopen.config (congrArg Device.objects hopen.device) hopen.qps
      hopen.ibgdaDisabled⟩

/-- The slots of every `EpBuffer` that is reached are sound. -/
theorem sound_of_reachable {config : IpcBuffer} {start : NewAnswers → Prop} {ep : EpBuffer}
    (h : (lives config start).Reachable ep) : ep.config = config ∧ Sound ep := by
  refine TransitionSystem.Reachable.invariant
    (I := fun ep => ep.config = config ∧ Sound ep) ?_ ?_ h
  · rintro ep ⟨ans, -, hnew⟩
    obtain ⟨hconfig, hsound, -⟩ := new_cases hnew
    exact ⟨hconfig, hsound⟩
  · rintro ep c ep' - ⟨hconfig, hsound⟩ ⟨hc, rfl⟩
    obtain ⟨hconfig', hsound'⟩ := hsound.call hc
    exact ⟨hconfig'.trans hconfig, hsound'⟩

end EpBuffer

end EpDemo.Lifecycle
