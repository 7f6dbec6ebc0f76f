import EpDemo.Buffer.NvlinkIpc
import EpDemo.Library.Loop

/-!
# `EpDemo.Proofs.Buffer.NvlinkIpc`: when an available peer has a mapped buffer

The loop over the ranks of the node visits each rank once, and a turn changes the entries of its
own rank only. So the entries of a rank after a call are those of its turn (`available_iff`,
`ptr_of_open`), and the flag stands without a mapping exactly where the handle is missing or too
short. In fabric mode no other rank ever gets a pointer (`mapped_iff_usable`).
-/

set_option autoImplicit false

namespace EpDemo.Buffer

open EpDemo.Library

variable {ep : IpcBuffer} {call : IpcCall}

/-- A rank of the node that the loop opens. -/
def Peer (ep : IpcBuffer) (call : IpcCall) (d : ℕ) : Prop :=
  groupStart ep call ≤ d ∧ d < groupEnd ep call ∧ d ≠ ep.rank ∧ call.activeRanksMask d ≠ 0 ∧
    peerAccess ep call d = true

/-- The handle that a call received for a rank, if it has the size of one. -/
def IpcCall.handle (call : IpcCall) (d : ℕ) : Option (List (BitVec 32)) :=
  match call.remoteHandles[d]? with
  | none => none
  | some handleInts => if handleInts.length < numInt32s then none else some handleInts

/-- After the call, the pointer to every available peer is one to its buffer: the mapping of the
handle that this call received for it, or `fabric d` in fabric mode, which is not null. -/
def Mapped (ep : IpcBuffer) (fabric : ℕ → PeerPtr) (call : IpcCall) (s : IpcState) : Prop :=
  ∀ d < ep.numRanks, d ≠ ep.rank → s.nvlinkAvailable d ≠ 0 → s.ipcPeerPtrs d ≠ .null ∧
    if ep.useFabricMem then s.ipcPeerPtrs d = fabric d
    else ∃ handleInts, call.handle d = some handleInts ∧
      s.ipcPeerPtrs d = .mapping (handleInts.take numInt32s)

/-- The ranks that the call declares available can be used: in fabric mode there are none, and
otherwise each of them comes with a handle. -/
def Usable (ep : IpcBuffer) (call : IpcCall) : Prop :=
  if ep.useFabricMem then ∀ d < ep.numRanks, d ≠ ep.rank → call.activeRanksMask d = 0
  else ∀ d, Peer ep call d → (call.handle d).isSome = true

/-! ### The loops -/

/-- A turn changes the entries of its own rank only. -/
theorem openPeer_of_ne {s : IpcArrays} {i d : ℕ} (hd : d ≠ i) :
    (openPeer ep call s i).nvlinkArray d = s.nvlinkArray d ∧
      (openPeer ep call s i).ipcPeerPtrsHost d = s.ipcPeerPtrsHost d := by
  -- Every branch of the turn writes entry `i` and no other.
  unfold openPeer
  split
  · exact ⟨rfl, rfl⟩
  · split
    · exact ⟨rfl, Function.update_of_ne hd ..⟩
    · split
      · dsimp only
        cases call.remoteHandles[i]? with
        | none => exact ⟨Function.update_of_ne hd .., rfl⟩
        | some handleInts =>
          dsimp only
          split
          · exact ⟨Function.update_of_ne hd .., rfl⟩
          · split
            · exact ⟨Function.update_of_ne hd .., Function.update_of_ne hd ..⟩
            · simp only [Function.update_of_ne hd, and_self]
      · exact ⟨rfl, rfl⟩

/-- The turn of a peer. -/
theorem openPeer_self {s : IpcArrays} {d : ℕ} (hpeer : Peer ep call d) :
    (openPeer ep call s d).nvlinkArray d =
        (if (call.handle d).isSome = true ∧ call.openMemHandle d ≠ .success then 0 else 1) ∧
      (openPeer ep call s d).ipcPeerPtrsHost d =
        match call.handle d with
        | some handleInts =>
          if call.openMemHandle d = .success then .mapping (handleInts.take numInt32s)
          else s.ipcPeerPtrsHost d
        | none => s.ipcPeerPtrsHost d := by
  obtain ⟨-, -, hrank, hactive, haccess⟩ := hpeer
  unfold openPeer IpcCall.handle
  rw [if_neg hactive, if_neg hrank, if_pos haccess]
  dsimp only
  -- A handle that is missing or too short sets the flag, and no mapping is opened.
  cases call.remoteHandles[d]? with
  | none => simp
  | some handleInts =>
    by_cases hsize : handleInts.length < numInt32s
    · simp [hsize]
    · by_cases hopen : call.openMemHandle d = .success
      · simp [hsize, hopen]
      · simp [hsize, hopen]

/-- A turn of a rank that is no peer does not declare it available. -/
theorem openPeer_of_not_peer {s : IpcArrays} {d : ℕ} (hgroup : groupStart ep call ≤ d ∧
    d < groupEnd ep call) (hpeer : ¬Peer ep call d) :
    (openPeer ep call s d).nvlinkArray d = s.nvlinkArray d := by
  unfold openPeer
  split
  · rfl
  · rename_i hactive
    split
    · rfl
    · rename_i hrank
      rw [if_neg fun haccess => hpeer ⟨hgroup.1, hgroup.2, hrank, hactive, haccess⟩]

/-- What the loop over the node leaves for a rank: the entries of its turn. -/
theorem entries_of_loop {s : IpcArrays} {d : ℕ} (hs : s.nvlinkArray d = 0) :
    let after := (List.range' (groupStart ep call) (groupEnd ep call - groupStart ep call)).foldl
      (openPeer ep call) s
    (Peer ep call d → ∃ t : IpcArrays, after.nvlinkArray d = (openPeer ep call t d).nvlinkArray d ∧
      after.ipcPeerPtrsHost d = (openPeer ep call t d).ipcPeerPtrsHost d) ∧
    (¬Peer ep call d → after.nvlinkArray d = 0) := by
  -- The turn for `d` alone decides its entry, and later turns keep it.
  have key := foldl_range'_invariant (f := openPeer ep call) (a := groupStart ep call)
    (n := groupEnd ep call - groupStart ep call) (s := s) (I := fun i t =>
      (i ≤ d → t.nvlinkArray d = 0) ∧
      (d < i → Peer ep call d → ∃ u : IpcArrays,
        t.nvlinkArray d = (openPeer ep call u d).nvlinkArray d ∧
        t.ipcPeerPtrsHost d = (openPeer ep call u d).ipcPeerPtrsHost d) ∧
      (¬Peer ep call d → t.nvlinkArray d = 0)) ?_ ?_
  · refine ⟨fun hpeer => key.2.1 ?_ hpeer, key.2.2⟩
    have := hpeer.1
    have := hpeer.2.1
    omega
  · refine ⟨fun _ => hs, fun hlt hpeer => ?_, fun _ => hs⟩
    have := hpeer.1
    omega
  · rintro i t hlo hhi ⟨hbefore, hafter, hnot⟩
    by_cases hd : d = i
    · -- Before this turn the entry was zero.
      subst hd
      refine ⟨fun hle => absurd hle (by omega), fun _ _ => ⟨t, rfl, rfl⟩, fun hpeer => ?_⟩
      rw [openPeer_of_not_peer ⟨hlo, by omega⟩ hpeer]
      exact hnot hpeer
    · -- Another turn keeps it.
      have hkeep : (openPeer ep call t i).nvlinkArray d = t.nvlinkArray d ∧
          (openPeer ep call t i).ipcPeerPtrsHost d = t.ipcPeerPtrsHost d := openPeer_of_ne hd
      obtain ⟨hflag, hptr⟩ := hkeep
      rw [hflag, hptr]
      exact ⟨fun hle => hbefore (by omega), fun hlt => hafter (by omega), hnot⟩

/-- What the loop in fabric mode leaves for another rank. -/
theorem entries_of_fabric (call : IpcCall) {s : IpcArrays} {d : ℕ} (hs : s.nvlinkArray d = 0)
    (hd : d < ep.numRanks) (hrank : d ≠ ep.rank) :
    let after := (List.range' 0 ep.numRanks).foldl (fabricPeer ep call) s
    (call.activeRanksMask d ≠ 0 → after.nvlinkArray d = 1 ∧ after.ipcPeerPtrsHost d = .null) ∧
    (call.activeRanksMask d = 0 → after.nvlinkArray d = 0) := by
  have key := foldl_range'_invariant (f := fabricPeer ep call) (a := 0) (n := ep.numRanks) (s := s)
    (I := fun i t =>
      (d < i → call.activeRanksMask d ≠ 0 →
        t.nvlinkArray d = 1 ∧ t.ipcPeerPtrsHost d = .null) ∧
      (call.activeRanksMask d = 0 → t.nvlinkArray d = 0)) ?_ ?_
  · exact ⟨key.1 (by omega), key.2⟩
  · exact ⟨fun hlt => absurd hlt (Nat.not_lt_zero d), fun _ => hs⟩
  · rintro i t - - ⟨hdone, hinactive⟩
    unfold fabricPeer
    split
    · -- An inactive rank is skipped.
      rename_i hzero
      refine ⟨fun hlt hactive => hdone ?_ hactive, hinactive⟩
      by_contra hge
      exact hactive ((show d = i by omega) ▸ hzero)
    · rename_i hactive
      by_cases hdi : d = i
      · -- The turn for `d` itself.
        subst hdi
        simp only [Function.update_self, if_neg hrank, and_self, implies_true, true_and]
        exact fun hzero => absurd hzero hactive
      · simp only [Function.update_of_ne hdi]
        exact ⟨fun hlt => hdone (by omega), hinactive⟩

/-! ### Calls -/

/-- After a call from any state, the available peers are mapped if and only if the call could use
them. -/
theorem mapped_sync_iff (fabric : ℕ → PeerPtr) (s : IpcState) :
    Mapped ep fabric call (syncNvlinkIpcHandles ep call s) ↔ Usable ep call := by
  have hstart : ∀ d, d ≠ ep.rank → (startArrays ep s.ipcPeerPtrsHost).nvlinkArray d = 0 :=
    fun d hd => Function.update_of_ne (f := fun _ => (0 : ℤ)) hd 1
  unfold Mapped Usable syncNvlinkIpcHandles ipcArrays
  dsimp only
  by_cases hfabric : ep.useFabricMem = true
  · simp only [hfabric, if_true]
    constructor
    · intro hmapped d hd hrank
      by_contra hactive
      obtain ⟨hflag, hnull⟩ := (entries_of_fabric call (hstart d hrank) hd hrank).1 hactive
      exact (hmapped d hd hrank (by rw [hflag]; decide)).1 hnull
    · intro husable d hd hrank havailable
      have hentries := (entries_of_fabric call (hstart d hrank) hd hrank).2
      exact absurd (hentries (husable d hd hrank)) havailable
  · simp only [hfabric, Bool.false_eq_true, if_false]
    constructor
    · intro hmapped d hpeer
      obtain ⟨hlo, hhi, hrank, -⟩ := id hpeer
      have hd : d < ep.numRanks := by
        unfold groupEnd at hhi
        omega
      by_contra hnone
      obtain ⟨t, hflag, -⟩ := (entries_of_loop (hstart d hrank)).1 hpeer
      rw [(openPeer_self hpeer).1, if_neg fun h => hnone h.1] at hflag
      obtain ⟨-, handleInts, hhandle, -⟩ := hmapped d hd hrank (by rw [hflag]; decide)
      exact hnone (by rw [hhandle]; rfl)
    · intro husable d hd hrank havailable
      -- A flag is set in the turn of a peer, whose handle was opened.
      have hpeer : Peer ep call d := by
        by_contra hnot
        exact havailable ((entries_of_loop (hstart d hrank)).2 hnot)
      obtain ⟨t, hflag, hptr⟩ := (entries_of_loop (hstart d hrank)).1 hpeer
      obtain ⟨handleInts, hhandle⟩ := Option.isSome_iff_exists.mp (husable d hpeer)
      have hself := openPeer_self (s := t) hpeer
      simp only [hhandle, Option.isSome_some, true_and] at hself
      rw [hself.1] at hflag
      have hopen : call.openMemHandle d = .success := by
        by_contra hfailed
        rw [if_pos hfailed] at hflag
        exact havailable hflag
      rw [hself.2, if_pos hopen] at hptr
      rw [hptr]
      exact ⟨by simp, handleInts, hhandle, rfl⟩

/-- After each of any sequence of calls, the peers that the kernels take for available are mapped
if and only if this call could use the ranks that it declared available. -/
theorem mapped_iff_usable (ep : IpcBuffer) (fabric : ℕ → PeerPtr) (calls : List IpcCall)
    (call : IpcCall) :
    Mapped ep fabric call (syncCalls ep (calls ++ [call])) ↔ Usable ep call := by
  rw [syncCalls, List.foldl_append]
  exact mapped_sync_iff fabric _

/-- Rank 0 of two ranks on one node. -/
def twoPeers : IpcBuffer where
  rank := 0
  numRanks := 2
  deviceId := 0
  useFabricMem := false
  rank_lt := Nat.zero_lt_two

/-- A call without handles, when peer access is possible. -/
def withoutHandles : IpcCall where
  remoteHandles := []
  activeRanksMask _ := 1
  deviceCount := 2
  deviceCount_pos := Nat.zero_lt_two
  canAccessPeer _ _ := (.success, 1)
  enablePeerAccess _ := .success
  openMemHandle _ := .success

/-- Rank 1 is available, and its pointer is null. -/
theorem not_mapped_withoutHandles :
    ¬Mapped twoPeers (fun _ => .gdrBuffer) withoutHandles
      (syncCalls twoPeers [withoutHandles]) := by
  intro h
  have hnull : (syncCalls twoPeers [withoutHandles]).ipcPeerPtrs 1 = .null := by decide
  exact (h 1 (by decide) (by decide) (by decide)).1 hnull

end EpDemo.Buffer
