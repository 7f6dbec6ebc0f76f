import EpDemo.Buffer.Sync
import EpDemo.Library.Loop
import Mathlib.Data.List.GetD
import Mathlib.Data.List.Nodup
import Mathlib.Tactic.Ring

/-!
# `EpDemo.Proofs.Buffer.Matching`: the queue pairs do not form a matching

`sync_ib` and `sync_roce` index `remote_qpns` (and `sync_ib` also `remote_lids`) by queue
pair slot, and their callers fill these vectors by rank, with the first queue pair of each
rank. With at most `MAX_QP_COUNT / 2` ranks there are more slots than ranks, and the sync
call reads past the end of the vector. With more ranks there is one slot for each rank and
every read is inside, but slot `b` of every rank is then connected to the first queue pair
of rank `b`, and only rank 0 has its slot answered.

`of_connectSlots` is the specification of the loop over the slots, from which both cases
follow (`not_matching_of_firstQpns`).
-/

set_option autoImplicit false

namespace EpDemo.Buffer

/-! ### The two loops -/

/-- One slot: the mask has an entry for the peer, and the slot is connected when the peer is
active. -/
theorem of_connectSlot {ep ep' : EpBuffer} {i : ℕ} {activeRanksMask : List (BitVec 32)}
    {connection : ℕ → ℕ → Option Connection}
    (h : ep.connectSlot activeRanksMask connection i = some ep') :
    ∃ active, activeRanksMask[peerRank ep.numRanks ep.useQpCount i]? = some active ∧
      ((active = 0 ∧ ep' = ep) ∨
        (active ≠ 0 ∧ ∃ c, connection i (peerRank ep.numRanks ep.useQpCount i) = some c ∧
          ep' = ep.connect i c)) := by
  obtain ⟨active, hactive, hbody⟩ := Option.bind_eq_some_iff.mp h
  refine ⟨active, hactive, ?_⟩
  split_ifs at hbody with hzero
  · exact Or.inl ⟨hzero, (Option.some.inj hbody).symm⟩
  · obtain ⟨qp, -, hbody⟩ := Option.bind_eq_some_iff.mp hbody
    obtain ⟨c, hc, hbody⟩ := Option.bind_eq_some_iff.mp hbody
    exact Or.inr ⟨hzero, c, hc, (Option.some.inj hbody).symm⟩

/-- What a completed loop over the slots says about each slot. -/
theorem of_connectSlots {ep ep' : EpBuffer} {activeRanksMask : List (BitVec 32)}
    {connection : ℕ → ℕ → Option Connection}
    (h : ep.connectSlots activeRanksMask connection = some ep') :
    ∀ i < ep.useQpCount, ∃ active,
      activeRanksMask[peerRank ep.numRanks ep.useQpCount i]? = some active ∧
      (active ≠ 0 → ∃ c, connection i (peerRank ep.numRanks ep.useQpCount i) = some c ∧
        ep'.connections i = some c) := by
  -- What each slot done so far got, with the sizes that the next slot reads unchanged.
  refine (Library.foldlM_range_invariant
    (I := fun n (e : EpBuffer) => (e.numRanks = ep.numRanks ∧ e.useQpCount = ep.useQpCount) ∧
      ∀ i < n, ∃ active,
        activeRanksMask[peerRank ep.numRanks ep.useQpCount i]? = some active ∧
        (active ≠ 0 → ∃ c, connection i (peerRank ep.numRanks ep.useQpCount i) = some c ∧
          e.connections i = some c)) ?start ?step h).2
  case start => exact ⟨⟨rfl, rfl⟩, fun i hi => absurd hi (Nat.not_lt_zero i)⟩
  case step =>
    rintro n e e' - ⟨⟨hranks, hcount⟩, hslots⟩ hslot
    obtain ⟨active, hactive, ⟨hzero, rfl⟩ | ⟨hne, c, hc, rfl⟩⟩ := of_connectSlot hslot
    all_goals rw [hranks, hcount] at hactive
    · refine ⟨⟨hranks, hcount⟩, fun i hi => ?_⟩
      rcases Nat.lt_succ_iff_lt_or_eq.mp hi with hi | rfl
      · exact hslots i hi
      · exact ⟨active, hactive, fun hne => absurd hzero hne⟩
    · rw [hranks, hcount] at hc
      refine ⟨⟨hranks, hcount⟩, fun i hi => ?_⟩
      rcases Nat.lt_succ_iff_lt_or_eq.mp hi with hi | rfl
      · obtain ⟨a, ha, hconn⟩ := hslots i hi
        refine ⟨a, ha, fun hne => ?_⟩
        obtain ⟨c', hc', hin⟩ := hconn hne
        have hkeep : (e.connect n c).connections i = e.connections i :=
          Function.update_of_ne hi.ne _ _
        exact ⟨c', hc', hkeep.trans hin⟩
      · exact ⟨active, hactive, fun _ => ⟨c, hc, Function.update_self _ _ _⟩⟩

/-- The loop over the ranks leaves the connections alone. -/
theorem publishRanks_connections {ep ep' : EpBuffer} {remoteAddrs : List (BitVec 64)}
    {remoteKeys activeRanksMask : List (BitVec 32)}
    (h : ep.publishRanks remoteAddrs remoteKeys activeRanksMask = some ep') :
    ep'.connections = ep.connections := by
  unfold EpBuffer.publishRanks at h
  generalize List.range ep.numRanks = ranks at h
  -- One rank after the other. Each turn writes two arrays, which are no connections.
  induction ranks generalizing ep with
  | nil => rw [Option.some.inj h]
  | cons i rest ih =>
    rw [List.foldlM_cons] at h
    obtain ⟨e, he, hrest⟩ := Option.bind_eq_some_iff.mp h
    rw [ih hrest]
    obtain ⟨active, -, hbody⟩ := Option.bind_eq_some_iff.mp he
    by_cases hzero : active = 0
    · rw [if_pos hzero] at hbody
      rw [Option.some.inj hbody]
    · rw [if_neg hzero] at hbody
      obtain ⟨raddr, -, hbody⟩ := Option.bind_eq_some_iff.mp hbody
      obtain ⟨rkey, -, hbody⟩ := Option.bind_eq_some_iff.mp hbody
      rw [← Option.some.inj hbody]

/-! ### Ranks that connect to each other -/

/-- `R` ranks after construction: each has `USE_QP_COUNT` queue pairs with distinct numbers. -/
structure Ready (R : ℕ) (ranks : ℕ → EpBuffer) : Prop where
  rank : ∀ a < R, (ranks a).rank = a
  numRanks : ∀ a < R, (ranks a).numRanks = R
  useQpCount : ∀ a < R, (ranks a).useQpCount = useQpCount maxQpCount R
  qps : ∀ a < R, (ranks a).qps.length = Buffer.useQpCount maxQpCount R
  distinct : ∀ a < R, (ranks a).getLocalQpns.Nodup
  enabled : ∀ a < R, (ranks a).ibgdaDisabled = false

/-- `all_info` after the exchange. -/
def allInfo (R : ℕ) (ranks : ℕ → EpBuffer) : List RankInfo :=
  (List.range R).map fun a => collectRankInfo (ranks a)

/-- The mask of the callers: every rank is active. -/
def allActive (R : ℕ) : List (BitVec 32) := List.replicate R 1

/-- Slot `i` was connected to the queue pair in slot `j` of the remote rank. -/
def ConnectedTo (ep : EpBuffer) (i : ℕ) (remote : EpBuffer) (j : ℕ) : Prop :=
  ∃ c qp, ep.connections i = some c ∧ remote.qps[j]? = some qp ∧ c.remoteQpn = qp.qpn

/-- The sync call of every rank reads inside its vectors, and afterwards slot `b * q + k` of
rank `a` and slot `a * q + k` of rank `b` are connected to each other. -/
def Matching (R : ℕ) (ranks : ℕ → EpBuffer)
    (sync : EpBuffer → List RankInfo → List (BitVec 32) → Option EpBuffer) : Prop :=
  ∃ post : ℕ → EpBuffer,
    (∀ a < R, sync (ranks a) (allInfo R ranks) (allActive R) = some (post a)) ∧
    ∀ a < R, ∀ b < R, a ≠ b → ∀ k < maxQpCount / R,
      ConnectedTo (post a) (b * (maxQpCount / R) + k) (ranks b) (a * (maxQpCount / R) + k) ∧
      ConnectedTo (post b) (a * (maxQpCount / R) + k) (ranks a) (b * (maxQpCount / R) + k)

section

variable {R : ℕ} {ranks : ℕ → EpBuffer}

/-- With every rank active, a completed sync call connected every slot. -/
theorem connections_of_allActive {ep mid post : EpBuffer} {connection : ℕ → ℕ → Option Connection}
    {remoteAddrs : List (BitVec 64)} {remoteKeys : List (BitVec 32)}
    (hslots : ep.connectSlots (allActive R) connection = some mid)
    (hranks : mid.publishRanks remoteAddrs remoteKeys (allActive R) = some post) :
    ∀ i < ep.useQpCount, ∃ c,
      connection i (peerRank ep.numRanks ep.useQpCount i) = some c ∧
      post.connections i = some c := by
  intro i hi
  obtain ⟨active, hactive, hconn⟩ := of_connectSlots hslots i hi
  have hone : active = 1 := List.eq_of_mem_replicate (List.mem_of_getElem? hactive)
  rw [publishRanks_connections hranks]
  exact hconn (by rw [hone]; decide)

/-- A sync call that takes the queue pair number of slot `i` from entry `i` of the callers'
vector of first queue pairs cannot produce a matching. -/
theorem not_matching_of_firstQpns (hR : 2 ≤ R) (hcap : R ≤ maxQpCount) (hready : Ready R ranks)
    {sync : EpBuffer → List RankInfo → List (BitVec 32) → Option EpBuffer}
    (hsync : ∀ a < R, ∀ post, sync (ranks a) (allInfo R ranks) (allActive R) = some post →
      ∀ i < useQpCount maxQpCount R, ∃ c, post.connections i = some c ∧
        ((allInfo R ranks).map fun info => firstOrZero info.qpns)[i]? = some c.remoteQpn) :
    ¬Matching R ranks sync := by
  rintro ⟨post, hpost, hmatch⟩
  by_cases hhalf : 2 * R ≤ maxQpCount
  · -- There are at least `2 * R` slots, and the vector has an entry for each rank only.
    have hq : 2 ≤ maxQpCount / R := (Nat.le_div_iff_mul_le (by omega)).mpr hhalf
    have hslots : R < useQpCount maxQpCount R := by
      have := Nat.mul_le_mul_right R hq
      unfold useQpCount
      omega
    obtain ⟨c, -, hread⟩ := hsync 0 (by omega) _ (hpost 0 (by omega)) R hslots
    have hend := (List.getElem?_eq_some_iff.mp hread).1
    simp [allInfo] at hend
  · -- Each rank has one slot for each rank. Slot 0 of rank 1 got the first queue pair of
    -- rank 0 and should have got the one in slot 1.
    have hq : maxQpCount / R = 1 := by
      refine Nat.div_eq_of_lt_le ?_ ?_ <;> omega
    have hslots : 0 < useQpCount maxQpCount R := by
      unfold useQpCount
      rw [hq]
      omega
    obtain ⟨c, hc, hread⟩ := hsync 1 (by omega) _ (hpost 1 (by omega)) 0 hslots
    obtain ⟨c', qp, hc', hqp, hnum⟩ := (hmatch 1 (by omega) 0 (by omega) one_ne_zero 0 (by omega)).1
    rw [hq] at hc' hqp
    obtain rfl : c = c' := Option.some.inj (hc.symm.trans (by simpa using hc'))
    have hlen := hready.qps 0 (by omega)
    obtain ⟨hlt, hget⟩ := List.getElem?_eq_some_iff.mp hqp
    have hone : (ranks 0).getLocalQpns[1]? = some c.remoteQpn := by
      simp only [EpBuffer.getLocalQpns, List.getElem?_map]
      rw [show (1 : ℕ) = 1 * 1 + 0 from rfl, hqp, hnum]
      rfl
    have hzero : (ranks 0).getLocalQpns[0]? = some c.remoteQpn := by
      have hhead : firstOrZero (ranks 0).getLocalQpns = c.remoteQpn := by
        simpa [allInfo, collectRankInfo, show 0 < R by omega] using hread
      have hpos : 0 < (ranks 0).getLocalQpns.length := by
        simp only [EpBuffer.getLocalQpns, List.length_map]
        omega
      rw [← hhead, firstOrZero, List.headD_eq_head?_getD, List.head?_eq_getElem?,
        List.getElem?_eq_getElem hpos]
      rfl
    have hshort : 0 < (ranks 0).getLocalQpns.length := (List.getElem?_eq_some_iff.mp hzero).1
    exact absurd ((List.getElem?_inj hshort (hready.distinct 0 (by omega))).mp
      (hzero.trans hone.symm)) (by decide)

/-- `sync_ib` called the way the repository does. -/
theorem testSyncIb_connections (hready : Ready R ranks) {a : ℕ} (ha : a < R) {post : EpBuffer}
    (h : testSyncIb (ranks a) (allInfo R ranks) (allActive R) = some post) :
    ∀ i < useQpCount maxQpCount R, ∃ c, post.connections i = some c ∧
      ((allInfo R ranks).map fun info => firstOrZero info.qpns)[i]? = some c.remoteQpn := by
  rw [testSyncIb, hready.enabled a ha] at h
  obtain ⟨mid, hslots, hranks⟩ := Option.bind_eq_some_iff.mp h
  intro i hi
  obtain ⟨c, hc, hin⟩ := connections_of_allActive hslots hranks i (hready.useQpCount a ha ▸ hi)
  obtain ⟨lid, -, hc⟩ := Option.bind_eq_some_iff.mp hc
  obtain ⟨qpn, hqpn, hc⟩ := Option.bind_eq_some_iff.mp hc
  exact ⟨c, hin, by rw [hqpn, ← Option.some.inj hc]⟩

/-- `sync_roce` called the way the repository does. -/
theorem testSyncRoce_connections (hready : Ready R ranks) {a : ℕ} (ha : a < R)
    (hroce : (ranks a).isRoce = true) {post : EpBuffer}
    (h : testSyncRoce (ranks a) (allInfo R ranks) (allActive R) = some post) :
    ∀ i < useQpCount maxQpCount R, ∃ c, post.connections i = some c ∧
      ((allInfo R ranks).map fun info => firstOrZero info.qpns)[i]? = some c.remoteQpn := by
  rw [testSyncRoce, hroce] at h
  obtain ⟨mid, hslots, hranks⟩ := Option.bind_eq_some_iff.mp h
  intro i hi
  obtain ⟨c, hc, hin⟩ := connections_of_allActive hslots hranks i (hready.useQpCount a ha ▸ hi)
  obtain ⟨subnetPrefix, -, hc⟩ := Option.bind_eq_some_iff.mp hc
  obtain ⟨interfaceId, -, hc⟩ := Option.bind_eq_some_iff.mp hc
  obtain ⟨qpn, hqpn, hc⟩ := Option.bind_eq_some_iff.mp hc
  exact ⟨c, hin, by rw [hqpn, ← Option.some.inj hc]⟩

end

/-- For no number of ranks and no assignment of distinct queue pair numbers does either sync
call, made the way the repository does, connect the ranks to each other. -/
theorem sync_not_matching (R : ℕ) (hR : 2 ≤ R) (hcap : R ≤ maxQpCount) (ranks : ℕ → EpBuffer)
    (hready : Ready R ranks) :
    ¬Matching R ranks testSyncIb ∧
      ((∀ a < R, (ranks a).isRoce = true) → ¬Matching R ranks testSyncRoce) :=
  ⟨not_matching_of_firstQpns hR hcap hready fun _ ha _ h => testSyncIb_connections hready ha h,
    fun hroce => not_matching_of_firstQpns hR hcap hready fun a ha _ h =>
      testSyncRoce_connections hready ha (hroce a ha) h⟩

/-- A rank of a two-rank RoCE run after construction. -/
def twoRanks (a : ℕ) : EpBuffer where
  rank := a
  numRanks := 2
  useQpCount := 256
  qps := (List.range 256).map fun i => ⟨BitVec.ofNat 32 (1000 * (a + 1) + i), 7⟩
  mrAddr := 0x10000
  mrRkey := 11
  mrLkey := 12
  gid := (0xfe80, BitVec.ofNat 64 a)
  gidIndex := 3
  ipcHandle := []
  isRoce := true
  ibgdaDisabled := false
  connections := fun _ => none
  raddrs := fun _ => none
  rkeys := fun _ => none

/-- The two ranks are ready to connect to each other. -/
theorem twoRanks_ready : Ready 2 twoRanks where
  rank _ _ := rfl
  numRanks _ _ := rfl
  useQpCount _ _ := rfl
  qps _ _ := by simp [twoRanks, useQpCount, maxQpCount]
  distinct a ha := by
    have hqpns : (twoRanks a).getLocalQpns =
        (List.range 256).map fun i => BitVec.ofNat 32 (1000 * (a + 1) + i) := by
      simp only [EpBuffer.getLocalQpns, twoRanks, List.map_map]
      rfl
    rw [hqpns]
    refine List.Nodup.map_on (fun i hi j hj heq => ?_) List.nodup_range
    have hnum := congrArg BitVec.toNat heq
    simp only [List.mem_range] at hi hj
    simp only [BitVec.toNat_ofNat] at hnum
    omega
  enabled _ _ := rfl

/-- Two ranks are not connected to each other. -/
theorem twoRanks_not_matching :
    ¬Matching 2 twoRanks testSyncIb ∧
      ((∀ a < 2, (twoRanks a).isRoce = true) → ¬Matching 2 twoRanks testSyncRoce) :=
  sync_not_matching 2 (by decide) (by decide) twoRanks twoRanks_ready

/-- `sync_ib` on two ranks reads `remote_lids[2]` of a vector of length 2. -/
theorem sync_reads_out_of_bounds :
    ¬∀ (R : ℕ) (ranks : ℕ → EpBuffer), 2 ≤ R → R ≤ maxQpCount → Ready R ranks →
      Matching R ranks testSyncIb := by
  intro h
  obtain ⟨post, hpost, -⟩ := h 2 twoRanks (by decide) (by decide) twoRanks_ready
  have hnone : (testSyncIb (twoRanks 0) (allInfo 2 twoRanks) (allActive 2)).isNone = true := by
    decide +kernel
  rw [hpost 0 (by decide)] at hnone
  simp at hnone

end EpDemo.Buffer
