import EpDemo.Buffer.Bootstrap
import EpDemo.Library.Loop
import EpDemo.Proofs.Buffer.Matching
import Mathlib.Data.List.Nodup
import Mathlib.Data.Finset.Card
import Mathlib.Order.Interval.Finset.Nat

/-!
# `EpDemo.Proofs.Buffer.Bootstrap`: whose data `exchange_rank_info` assigns to a rank

`Exchange.Invariant` says what the tables hold: rank 0 has its own record and then those of the
clients in the order of their connections, and what a client has read or has yet to read is the
part of this table that was sent to it. So when the exchange has completed, every rank has the
record of the client that came `i`-th as entry `i` (`allInfo_of_completed`), and the addresses and
keys are right if and only if every client in this order registered what rank `i` registered
(`assigned_iff_inOrder`).
-/

set_option autoImplicit false

namespace EpDemo.Buffer

open EpDemo.Library

namespace Exchange

variable {numRanks : ℕ} {info : ℕ → RankInfo} {s : Exchange} {a : ExchangeAction}

/-- What the connections and the tables hold. -/
structure Invariant (numRanks : ℕ) (info : ℕ → RankInfo) (s : Exchange) : Prop where
  nodup : s.arrived.Nodup
  range : ∀ r ∈ s.arrived, 0 < r ∧ r < numRanks
  socks : s.clientSocks = s.arrived.take s.clientSocks.length
  socks_lt : s.clientSocks.length < numRanks
  toServer : ∀ r, ∀ x ∈ s.toServer r, x = info r
  table_pos : 0 < (s.allInfo 0).length
  table_le : (s.allInfo 0).length ≤ s.clientSocks.length + 1
  table : s.allInfo 0 = ((0 :: s.clientSocks).take (s.allInfo 0).length).map info
  sentBack : ∀ i, (s.allInfo 0).length < numRanks → s.sentBack i = 0
  client : ∀ i r, s.clientSocks[i]? = some r →
    s.allInfo r ++ s.toClient r = (s.allInfo 0).take (s.sentBack i)
  others : ∀ r, r ≠ 0 → r ∉ s.clientSocks → s.allInfo r = [] ∧ s.toClient r = []

namespace Invariant

/-- Before the exchange rank 0 has its own record, and nobody has connected. -/
theorem of_init (hn : 0 < numRanks) (hs : s.Init info) : Invariant numRanks info s where
  nodup := by rw [hs.arrived]; exact List.nodup_nil
  range r hr := by
    rw [hs.arrived] at hr
    cases hr
  socks := by rw [hs.clientSocks]; rfl
  socks_lt := by rw [hs.clientSocks]; exact hn
  toServer r x hx := by
    rw [hs.toServer] at hx
    cases hx
  table_pos := by rw [hs.allInfo]; exact Nat.one_pos
  table_le := by rw [hs.allInfo, hs.clientSocks]; exact le_rfl
  table := by rw [hs.allInfo, hs.clientSocks]; rfl
  sentBack i _ := hs.sentBack i
  client i r hr := by
    rw [hs.clientSocks] at hr
    cases hr
  others r hr _ := by
    rw [hs.allInfo, if_neg hr]
    exact ⟨rfl, hs.toClient r⟩

/-- The accepted connections are of different clients. -/
theorem socks_nodup (h : Invariant numRanks info s) : s.clientSocks.Nodup := by
  rw [h.socks]
  exact h.nodup.sublist (List.take_sublist ..)

/-- An accepted client is one that connected. -/
theorem mem_arrived (h : Invariant numRanks info s) {r : ℕ} (hr : r ∈ s.clientSocks) :
    r ∈ s.arrived := by
  rw [h.socks] at hr
  exact List.mem_of_mem_take hr

/-- Rank 0 is not one of its clients. -/
theorem pos_of_mem (h : Invariant numRanks info s) {r : ℕ} (hr : r ∈ s.clientSocks) : r ≠ 0 :=
  (h.range r (h.mem_arrived hr)).1.ne'

/-- The connection with index `i` is that of the client that came `i`-th. -/
theorem sock_eq {i : ℕ} (hi : i < s.clientSocks.length) : s.clientSocks[i]? = some (s.sock i) := by
  rw [sock, List.getD_eq_getElem?_getD, List.getElem?_eq_getElem hi, Option.getD_some]

/-- A connection reaches rank 0. -/
theorem connect (h : Invariant numRanks info s) {r : ℕ} (hen : enabled numRanks s (.connect r)) :
    Invariant numRanks info (fire info s (.connect r)) := by
  obtain ⟨hpos, hlt, hnew⟩ := hen
  have hle : s.clientSocks.length ≤ s.arrived.length := by
    have hlen := congrArg List.length h.socks
    rw [List.length_take] at hlen
    omega
  refine { h with nodup := ?_, range := ?_, socks := ?_ }
  · show (s.arrived ++ [r]).Nodup
    exact h.nodup.append (List.nodup_singleton r) (by simpa using hnew)
  · -- The new client is the last one, and it has not come before.
    intro q hq
    cases List.mem_append.mp hq with
    | inl hq => exact h.range q hq
    | inr hq =>
      rw [List.mem_singleton.mp hq]
      exact ⟨hpos, hlt⟩
  · -- The accepted ones are still the first of those that came.
    show s.clientSocks = (s.arrived ++ [r]).take s.clientSocks.length
    rw [List.take_append_of_le_length hle]
    exact h.socks

/-- Rank 0 accepts a connection. -/
theorem accept (h : Invariant numRanks info s) (hen : enabled numRanks s .accept) :
    Invariant numRanks info (fire info s .accept) := by
  obtain ⟨hlt, hwaiting⟩ := hen
  -- The next client to be accepted is the first one that was not.
  have hnext : s.arrived.getD s.clientSocks.length 0 = s.arrived[s.clientSocks.length] := by
    rw [List.getD_eq_getElem?_getD, List.getElem?_eq_getElem hwaiting, Option.getD_some]
  have hsocks : (fire info s .accept).clientSocks =
      s.clientSocks ++ [s.arrived[s.clientSocks.length]] := by
    simp only [fire, hnext]
  -- It has no connection yet, since no client comes twice.
  have hnew : s.arrived[s.clientSocks.length] ∉ s.clientSocks := by
    intro hmem
    have hmem : s.arrived[s.clientSocks.length] ∈ s.arrived.take s.clientSocks.length := by
      rw [← h.socks]
      exact hmem
    obtain ⟨i, hi, heq⟩ := List.mem_take_iff_getElem.mp hmem
    have := h.nodup.getElem_inj_iff.mp heq
    omega
  have hne : s.arrived[s.clientSocks.length] ≠ 0 := (h.range _ (List.getElem_mem ..)).1.ne'
  have htable := h.table_le
  refine { h with
    socks := ?_, socks_lt := ?_, table_le := ?_, table := ?_, client := ?_, others := ?_ }
  · rw [hsocks, List.length_append, List.length_singleton]
    show _ = s.arrived.take (s.clientSocks.length + 1)
    rw [List.take_succ_eq_append_getElem hwaiting, ← h.socks]
  · rw [hsocks, List.length_append, List.length_singleton]
    exact hlt
  · rw [hsocks, List.length_append, List.length_singleton]
    exact htable.trans (Nat.le_succ _)
  · rw [hsocks]
    -- The table is no longer than the connections were, so it does not reach the new one.
    show s.allInfo 0 = ((0 :: s.clientSocks ++ [_]).take (s.allInfo 0).length).map info
    rw [List.take_append_of_le_length (by simpa using htable)]
    exact h.table
  · intro i r hr
    rw [hsocks] at hr
    show s.allInfo r ++ s.toClient r = (s.allInfo 0).take (s.sentBack i)
    -- An old connection keeps its client, and the new one has had no record sent.
    by_cases hi : i < s.clientSocks.length
    · rw [List.getElem?_append_left hi] at hr
      exact h.client i r hr
    · have hr : r = s.arrived[s.clientSocks.length] := by
        have hmem := List.mem_of_getElem? hr
        by_contra hdiff
        obtain ⟨hlen, -⟩ := List.getElem?_eq_some_iff.mp hr
        rw [List.length_append, List.length_singleton] at hlen
        have hi : i = s.clientSocks.length := by omega
        rw [hi, List.getElem?_concat_length] at hr
        exact hdiff (Option.some.inj hr).symm
      rw [hr, (h.others _ hne hnew).1, (h.others _ hne hnew).2, h.sentBack i (by omega)]
      rfl
  · intro r hr hnot
    rw [hsocks] at hnot
    exact h.others r hr fun hmem => hnot (List.mem_append_left _ hmem)

/-- A client sends its record. -/
theorem sendInfo (h : Invariant numRanks info s) {r : ℕ} :
    Invariant numRanks info (fire info s (.sendInfo r)) := by
  refine { h with toServer := ?_ }
  intro q x hx
  have hx : x ∈ Function.update s.toServer r (s.toServer r ++ [info r]) q := hx
  by_cases hq : q = r
  · subst hq
    rw [Function.update_self] at hx
    cases List.mem_append.mp hx with
    | inl hx => exact h.toServer q x hx
    | inr hx => exact List.mem_singleton.mp hx
  · rw [Function.update_of_ne hq] at hx
    exact h.toServer q x hx

/-- Rank 0 reads a record. -/
theorem recvInfo (h : Invariant numRanks info s) (hen : enabled numRanks s .recvInfo) :
    Invariant numRanks info (fire info s .recvInfo) := by
  obtain ⟨hall, hlt, hne⟩ := hen
  obtain ⟨x, rest, hcons⟩ := List.exists_cons_of_ne_nil hne
  have hfire : fire info s .recvInfo =
      { s with
        toServer := Function.update s.toServer (s.sock ((s.allInfo 0).length - 1)) rest
        allInfo := Function.update s.allInfo 0 (s.allInfo 0 ++ [x]) } := by
    simp only [fire, hcons]
  have hx := h.toServer _ x (by rw [hcons]; exact List.mem_cons_self)
  have hpos := h.table_pos
  -- The record is that of the client whose connection has the next index.
  have hsock := sock_eq (s := s) (i := (s.allInfo 0).length - 1) (by omega)
  rw [hfire]
  refine { h with
    toServer := ?_, table_pos := ?_, table_le := ?_, table := ?_, sentBack := ?_, client := ?_,
    others := ?_ }
  · intro q y hy
    have hy : y ∈ Function.update s.toServer (s.sock ((s.allInfo 0).length - 1)) rest q := hy
    by_cases hq : q = s.sock ((s.allInfo 0).length - 1)
    · rw [hq, Function.update_self] at hy
      rw [hq]
      exact h.toServer _ y (by rw [hcons]; exact List.mem_cons_of_mem _ hy)
    · rw [Function.update_of_ne hq] at hy
      exact h.toServer q y hy
  · simp only [Function.update_self, List.length_append, List.length_singleton]
    omega
  · simp only [Function.update_self, List.length_append, List.length_singleton]
    omega
  · -- So it becomes the next entry of the table.
    simp only [Function.update_self, List.length_append, List.length_singleton]
    have hget : (0 :: s.clientSocks)[(s.allInfo 0).length]? =
        some (s.sock ((s.allInfo 0).length - 1)) := by
      rw [← hsock, ← Nat.sub_add_cancel hpos]
      exact List.getElem?_cons_succ
    rw [List.take_add_one, hget, Option.toList_some, List.map_append, ← h.table, hx]
    rfl
  · -- No record is sent back before the table is complete.
    intro i _
    exact h.sentBack i hlt
  · intro i r hr
    have hr0 := h.pos_of_mem (List.mem_of_getElem? hr)
    have hclient := h.client i r hr
    rw [h.sentBack i hlt] at hclient
    simp only [Function.update_of_ne hr0, h.sentBack i hlt]
    exact hclient
  · -- Clients without a connection have nothing.
    intro r hr hnot
    simp only [Function.update_of_ne hr]
    exact h.others r hr hnot

/-- Rank 0 sends a record back. -/
theorem sendBack (h : Invariant numRanks info s) {i : ℕ} (hen : enabled numRanks s (.sendBack i)) :
    Invariant numRanks info (fire info s (.sendBack i)) := by
  obtain ⟨hi, hall, -, hlt⟩ := hen
  have hle := h.table_le
  have hsock := sock_eq (s := s) (i := i) (by omega)
  refine { h with sentBack := ?_, client := ?_, others := ?_ }
  · intro k hk
    exact absurd hall (by exact hk.ne)
  · intro k r hr
    show s.allInfo r ++ Function.update s.toClient (s.sock i)
      (s.toClient (s.sock i) ++ ((s.allInfo 0)[s.sentBack i]?).toList) r =
        (s.allInfo 0).take (Function.update s.sentBack i (s.sentBack i + 1) k)
    -- The connection that the record goes to, and the others.
    by_cases hk : k = i
    · subst hk
      have hr : r = s.sock k := Option.some.inj (hr.symm.trans hsock)
      subst hr
      rw [Function.update_self, Function.update_self, ← List.append_assoc, h.client k _ hsock,
        List.take_add_one]
    · have hne : r ≠ s.sock i := by
        rintro rfl
        exact hk ((List.getElem?_inj (List.getElem?_eq_some_iff.mp hr).1 h.socks_nodup).mp
          -- Two connections are not of one client.
          (hr.trans hsock.symm))
      rw [Function.update_of_ne hne, Function.update_of_ne hk]
      exact h.client k r hr
  · intro r hr hnot
    have hne : r ≠ s.sock i := by
      rintro rfl
      exact hnot (List.mem_of_getElem? hsock)
    show s.allInfo r = [] ∧ Function.update s.toClient _ _ r = []
    rw [Function.update_of_ne hne]
    exact h.others r hr hnot

/-- A client reads a record. -/
theorem recvBack (h : Invariant numRanks info s) {r : ℕ} (hen : enabled numRanks s (.recvBack r)) :
    Invariant numRanks info (fire info s (.recvBack r)) := by
  obtain ⟨harrived, -, -, hne⟩ := hen
  obtain ⟨x, rest, hcons⟩ := List.exists_cons_of_ne_nil hne
  have hr0 : 0 ≠ r := (h.range r harrived).1.ne
  have hfire : fire info s (.recvBack r) =
      { s with
        toClient := Function.update s.toClient r rest
        allInfo := Function.update s.allInfo r (s.allInfo r ++ [x]) } := by
    simp only [fire, hcons]
  rw [hfire]
  -- A client does not read into the table of rank 0.
  have hzero : Function.update s.allInfo r (s.allInfo r ++ [x]) 0 = s.allInfo 0 :=
    Function.update_of_ne hr0 ..
  refine { h with
    table_pos := ?_, table_le := ?_, table := ?_, sentBack := ?_, client := ?_, others := ?_ }
  · simp only [hzero]
    exact h.table_pos
  · simp only [hzero]
    exact h.table_le
  · simp only [hzero]
    exact h.table
  · simp only [hzero]
    exact h.sentBack
  · intro i q hq
    simp only [hzero]
    -- What the client has read and what it has yet to read is the same as before.
    by_cases hqr : q = r
    · subst hqr
      simp only [Function.update_self]
      rw [← h.client i q hq, hcons, List.append_assoc, List.singleton_append]
    · simp only [Function.update_of_ne hqr]
      exact h.client i q hq
  · intro q hq hnot
    have hqr : q ≠ r := by
      rintro rfl
      exact hne (h.others q hq hnot).2
    simp only [Function.update_of_ne hqr]
    exact h.others q hq hnot

/-- Every step of the exchange keeps the invariant. -/
theorem fire (h : Invariant numRanks info s) (hen : enabled numRanks s a) :
    Invariant numRanks info (fire info s a) := by
  cases a with
  | connect r => exact h.connect hen
  | accept => exact h.accept hen
  | sendInfo r => exact h.sendInfo
  | recvInfo => exact h.recvInfo hen
  | sendBack i => exact h.sendBack hen
  | recvBack r => exact h.recvBack hen

end Invariant

/-- The invariant holds in every state of the exchange. -/
theorem invariant_of_reachable (hn : 0 < numRanks) (h : (system numRanks info).Reachable s) :
    Invariant numRanks info s := by
  refine h.invariant (fun _ hs => .of_init hn hs) ?_
  rintro q a q' - hq ⟨hen, rfl⟩
  exact hq.fire hen

/-! ### The tables of a completed exchange -/

/-- All clients have connected, once each. -/
theorem Invariant.arrived_of_completed (h : Invariant numRanks info s)
    (hdone : Completed numRanks s) :
    s.clientSocks = s.arrived ∧ s.arrived.length + 1 = numRanks := by
  have hzero := hdone.allInfo 0 (Nat.zero_lt_of_lt h.socks_lt)
  have hsocks : s.clientSocks.length + 1 = numRanks := by
    have := h.table_le
    have := h.socks_lt
    omega
  -- There are no more than `numRanks - 1` clients.
  have hcard : s.arrived.length ≤ numRanks - 1 := by
    have hsub : s.arrived.toFinset ⊆ Finset.Ico 1 numRanks := by
      intro r hr
      have hr := h.range r (List.mem_toFinset.mp hr)
      exact Finset.mem_Ico.mpr ⟨hr.1, hr.2⟩
    have hle := Finset.card_le_card hsub
    rwa [List.toFinset_card_of_nodup h.nodup, Nat.card_Ico] at hle
  have hlen := congrArg List.length h.socks
  rw [List.length_take] at hlen
  refine ⟨?_, by omega⟩
  rw [h.socks]
  exact List.take_of_length_le (by omega)

/-- Every rank has the table of rank 0: its record, and those of the clients in the order in which
they came. -/
theorem Invariant.allInfo_of_completed (h : Invariant numRanks info s)
    (hdone : Completed numRanks s) {r : ℕ} (hr : r < numRanks) :
    s.allInfo r = (0 :: s.arrived).map info := by
  obtain ⟨hsocks, hlen⟩ := h.arrived_of_completed hdone
  have hzero : s.allInfo 0 = (0 :: s.arrived).map info := by
    have htable := h.table
    rwa [hdone.allInfo 0 (by omega), hsocks, List.take_of_length_le (by simp only
      [List.length_cons, hlen, le_refl])] at htable
  by_cases hr0 : r = 0
  · rw [hr0, hzero]
  · have hmem : r ∈ s.clientSocks := by
      by_contra hnot
      have hempty := (h.others r hr0 hnot).1
      have hfull := hdone.allInfo r hr
      rw [hempty, List.length_nil] at hfull
      omega
    obtain ⟨i, hi, hget⟩ := List.mem_iff_getElem.mp hmem
    have hclient := h.client i r (by rw [List.getElem?_eq_getElem hi, hget])
    -- What the client has read has the length of the table, which it is a part of.
    have hprefix : s.allInfo r <+: s.allInfo 0 := by
      refine List.IsPrefix.trans ⟨s.toClient r, hclient⟩ (List.take_prefix ..)
    rw [← hzero]
    exact hprefix.eq_of_length (by rw [hdone.allInfo r hr, hdone.allInfo 0 (by omega)])

end Exchange

/-! ### Addresses and keys -/

/-- The loop over the slots changes the connections only. -/
theorem connectSlots_eq {ep ep' : EpBuffer} {activeRanksMask : List (BitVec 32)}
    {connection : ℕ → ℕ → Option Connection}
    (h : ep.connectSlots activeRanksMask connection = some ep') :
    ∃ connections, ep' = { ep with connections := connections } := by
  refine foldlM_range_invariant (I := fun _ e => ∃ connections, e = { ep with
    connections := connections }) ⟨ep.connections, rfl⟩ ?_ h
  rintro i _ e' - ⟨connections, rfl⟩ hi
  obtain ⟨-, -, ⟨-, rfl⟩ | ⟨-, c, -, rfl⟩⟩ := of_connectSlot hi
  · exact ⟨connections, rfl⟩
  · exact ⟨_, rfl⟩

/-- What a completed loop over the ranks says about an active rank. -/
theorem of_publishRanks {ep ep' : EpBuffer} {remoteAddrs : List (BitVec 64)}
    {remoteKeys activeRanksMask : List (BitVec 32)}
    (h : ep.publishRanks remoteAddrs remoteKeys activeRanksMask = some ep') {i : ℕ}
    (hi : i < ep.numRanks) {active : BitVec 32} (hactive : activeRanksMask[i]? = some active)
    (hne : active ≠ 0) :
    ep'.raddrs i = (if i = ep.rank then some ep.mrAddr else remoteAddrs[i]?) ∧
      ep'.rkeys i = if i = ep.rank then some ep.mrLkey else remoteKeys[i]? := by
  -- The turn for rank `i` writes its entries, and later turns write others.
  have key := foldlM_range_invariant (I := fun n e =>
    (e.rank = ep.rank ∧ e.mrAddr = ep.mrAddr ∧ e.mrLkey = ep.mrLkey) ∧ (i < n →
      e.raddrs i = (if i = ep.rank then some ep.mrAddr else remoteAddrs[i]?) ∧
        e.rkeys i = if i = ep.rank then some ep.mrLkey else remoteKeys[i]?))
    ⟨⟨rfl, rfl, rfl⟩, fun hlt => absurd hlt (Nat.not_lt_zero i)⟩ ?_ h
  · exact key.2 hi
  · rintro n e e' - ⟨⟨hrank, haddr, hkey⟩, hold⟩ hturn
    obtain ⟨active', hactive', hbody⟩ := Option.bind_eq_some_iff.mp hturn
    by_cases hzero : active' = 0
    · rw [if_pos hzero] at hbody
      rw [← Option.some.inj hbody]
      refine ⟨⟨hrank, haddr, hkey⟩, fun hlt => hold ?_⟩
      by_contra hn
      have hin : i = n := by omega
      subst hin
      rw [hactive] at hactive'
      exact hne (Option.some.inj hactive' ▸ hzero)
    · rw [if_neg hzero] at hbody
      obtain ⟨raddr, hraddr, hbody⟩ := Option.bind_eq_some_iff.mp hbody
      obtain ⟨rkey, hrkey, hbody⟩ := Option.bind_eq_some_iff.mp hbody
      rw [← Option.some.inj hbody]
      refine ⟨⟨hrank, haddr, hkey⟩, fun hlt => ?_⟩
      by_cases hin : i = n
      · subst hin
        rw [hrank, haddr] at hraddr
        rw [hrank, hkey] at hrkey
        simp only [Function.update_self, hraddr, hrkey, and_self]
      · simp only [Function.update_of_ne hin]
        exact hold (by omega)

/-- Every rank has its own buffer under its own number, and the address and key of every other
rank under the number of that rank. -/
def Assigned (numRanks : ℕ) (ranks synced : ℕ → EpBuffer) : Prop :=
  ∀ r < numRanks, (synced r).raddrs r = some (ranks r).mrAddr ∧
    ∀ j < numRanks, j ≠ r → (synced r).raddrs j = some (ranks j).mrAddr ∧
      (synced r).rkeys j = some (ranks j).mrRkey

/-- The client that comes `i`-th registered what rank `i` registered. -/
def InOrder (ranks : ℕ → EpBuffer) (arrived : List ℕ) : Prop :=
  ∀ i j, (0 :: arrived)[i]? = some j →
    (ranks j).mrAddr = (ranks i).mrAddr ∧ (ranks j).mrRkey = (ranks i).mrRkey

/-- What `sync_ib` is called with after the exchange. -/
structure Synced (numRanks : ℕ) (ranks : ℕ → EpBuffer) (s : Exchange) (synced : ℕ → EpBuffer) :
    Prop where
  rank : ∀ r < numRanks, (ranks r).rank = r
  size : ∀ r < numRanks, (ranks r).numRanks = numRanks
  /-- All ranks are active, and the addresses and keys are those of `all_info`. -/
  syncIb : ∀ r < numRanks, ∃ remoteQpns remoteLids activeRanksMask,
    (∀ j < numRanks, ∃ active, activeRanksMask[j]? = some active ∧ active ≠ 0) ∧
    (ranks r).syncIb ((s.allInfo r).map RankInfo.mrAddr) ((s.allInfo r).map RankInfo.mrRkey)
      remoteQpns remoteLids activeRanksMask = some (synced r)

/-- The entries that a rank has after `sync_ib`. -/
theorem Synced.entry {numRanks : ℕ} {ranks synced : ℕ → EpBuffer} {s : Exchange}
    (h : Synced numRanks ranks s synced) {r j : ℕ} (hr : r < numRanks) (hj : j < numRanks) :
    (synced r).raddrs j =
        (if j = r then some (ranks r).mrAddr else ((s.allInfo r)[j]?).map RankInfo.mrAddr) ∧
      (synced r).rkeys j =
        if j = r then some (ranks r).mrLkey else ((s.allInfo r)[j]?).map RankInfo.mrRkey := by
  obtain ⟨qpns, lids, mask, hmask, hsync⟩ := h.syncIb r hr
  obtain ⟨ep, hconnect, hpublish⟩ := Option.bind_eq_some_iff.mp hsync
  obtain ⟨connections, rfl⟩ := connectSlots_eq hconnect
  obtain ⟨active, hactive, hne⟩ := hmask j hj
  have hentry := of_publishRanks hpublish (i := j) (by rw [← h.size r hr] at hj; exact hj)
    hactive hne
  rw [h.rank r hr, List.getElem?_map, List.getElem?_map] at hentry
  exact hentry

/-- In every completed exchange the assignment is right if and only if the clients came in order. -/
theorem assigned_iff {numRanks : ℕ} (hn : 2 ≤ numRanks) {ranks synced : ℕ → EpBuffer}
    {s : Exchange}
    (hs : (Exchange.system numRanks fun r => collectRankInfo (ranks r)).Reachable s)
    (hdone : s.Completed numRanks) (hsync : Synced numRanks ranks s synced) :
    Assigned numRanks ranks synced ↔ InOrder ranks s.arrived := by
  have hinv := Exchange.invariant_of_reachable (by omega) hs
  obtain ⟨-, hlen⟩ := hinv.arrived_of_completed hdone
  -- The entry of rank `j` on another rank is the record of the client that came `j`-th.
  have hentry : ∀ r < numRanks, ∀ j < numRanks, j ≠ r → ∃ k, (0 :: s.arrived)[j]? = some k ∧
      (synced r).raddrs j = some (ranks k).mrAddr ∧
      (synced r).rkeys j = some (ranks k).mrRkey := by
    intro r hr j hj hjr
    have hlt : j < (0 :: s.arrived).length := by
      rw [List.length_cons]
      omega
    refine ⟨(0 :: s.arrived)[j], List.getElem?_eq_getElem hlt, ?_⟩
    have h := hsync.entry hr hj
    rw [if_neg hjr, if_neg hjr, hinv.allInfo_of_completed hdone hr, List.getElem?_map,
      List.getElem?_eq_getElem hlt] at h
    exact h
  constructor
  · intro hassigned i k hk
    have hi : i < numRanks := by
      have hlt := (List.getElem?_eq_some_iff.mp hk).1
      rw [List.length_cons] at hlt
      omega
    -- Some other rank has an entry for rank `i`.
    obtain ⟨r, hr, hri⟩ : ∃ r < numRanks, i ≠ r := by
      by_cases hzero : i = 0
      · exact ⟨1, by omega, by omega⟩
      · exact ⟨0, by omega, hzero⟩
    obtain ⟨k', hk', haddr, hkey⟩ := hentry r hr i hi hri
    obtain rfl : k = k' := Option.some.inj (hk.symm.trans hk')
    obtain ⟨haddr', hkey'⟩ := (hassigned r hr).2 i hi hri
    exact ⟨Option.some.inj (haddr.symm.trans haddr'), Option.some.inj (hkey.symm.trans hkey')⟩
  · intro horder r hr
    refine ⟨?_, fun j hj hjr => ?_⟩
    · have h := (hsync.entry hr hr).1
      rwa [if_pos rfl] at h
    · obtain ⟨k, hk, haddr, hkey⟩ := hentry r hr j hj hjr
      obtain ⟨haddr', hkey'⟩ := horder j k hk
      rw [haddr, hkey, haddr', hkey']
      exact ⟨rfl, rfl⟩

/-- No two ranks registered the same buffer. -/
def Distinct (numRanks : ℕ) (ranks : ℕ → EpBuffer) : Prop :=
  ∀ j < numRanks, ∀ k < numRanks, (ranks j).mrAddr = (ranks k).mrAddr →
    (ranks j).mrRkey = (ranks k).mrRkey → j = k

/-- When no two ranks registered the same, the clients have to come in the order of their ranks. -/
theorem arrived_eq_of_inOrder {numRanks : ℕ} {ranks : ℕ → EpBuffer} {arrived : List ℕ}
    (hlt : ∀ j ∈ arrived, j < numRanks) (hlen : arrived.length + 1 = numRanks)
    (hdistinct : Distinct numRanks ranks)
    (h : InOrder ranks arrived) : arrived = List.range' 1 (numRanks - 1) := by
  refine List.ext_getElem (by rw [List.length_range']; omega) ?_
  intro i hi _
  obtain ⟨haddr, hkey⟩ := h (i + 1) arrived[i] (by
    rw [List.getElem?_cons_succ, List.getElem?_eq_getElem hi])
  rw [List.getElem_range', hdistinct _ (hlt _ (List.getElem_mem hi)) _ (by omega) haddr hkey]
  omega

/-- The order of the ranks is in order. -/
theorem inOrder_of_arrived_eq {numRanks : ℕ} {ranks : ℕ → EpBuffer} {arrived : List ℕ}
    (h : arrived = List.range' 1 (numRanks - 1)) : InOrder ranks arrived := by
  intro i j hj
  cases i with
  | zero =>
    cases hj
    exact ⟨rfl, rfl⟩
  | succ i =>
    rw [List.getElem?_cons_succ, h] at hj
    obtain ⟨hi, hget⟩ := List.getElem?_eq_some_iff.mp hj
    rw [List.getElem_range', Nat.one_mul, Nat.add_comm] at hget
    rw [hget]
    exact ⟨rfl, rfl⟩

/-- The exchange assigns every rank its own data if and only if the clients come in the order of
their ranks, up to clients that registered the same. -/
theorem assigned_iff_inOrder (numRanks : ℕ) (hn : 2 ≤ numRanks) (ranks synced : ℕ → EpBuffer)
    (s : Exchange)
    (hs : (Exchange.system numRanks fun r => collectRankInfo (ranks r)).Reachable s)
    (hdone : s.Completed numRanks) (hsync : Synced numRanks ranks s synced) :
    (Assigned numRanks ranks synced ↔ InOrder ranks s.arrived) ∧
      (Distinct numRanks ranks →
        (Assigned numRanks ranks synced ↔ s.arrived = List.range' 1 (numRanks - 1))) := by
  have hinv := Exchange.invariant_of_reachable (by omega) hs
  obtain ⟨-, hlen⟩ := hinv.arrived_of_completed hdone
  have hiff := assigned_iff hn hs hdone hsync
  refine ⟨hiff, fun hdistinct => hiff.trans ⟨fun h => ?_, fun h => ?_⟩⟩
  · exact arrived_eq_of_inOrder (fun j hj => (hinv.range j hj).2) hlen hdistinct h
  · exact inOrder_of_arrived_eq h

/-! ### Three ranks -/

/-- A rank of three that has registered its buffer. -/
def threeRanks (r : ℕ) : EpBuffer where
  rank := r
  numRanks := 3
  useQpCount := 3
  qps := [⟨0, 0⟩, ⟨1, 0⟩, ⟨2, 0⟩]
  mrAddr := BitVec.ofNat 64 (4096 * (r + 1))
  mrRkey := BitVec.ofNat 32 (r + 1)
  mrLkey := BitVec.ofNat 32 (r + 11)
  gid := (0, 0)
  gidIndex := 0
  ipcHandle := []
  isRoce := false
  ibgdaDisabled := false
  connections _ := none
  raddrs _ := none
  rkeys _ := none

/-- An exchange in which the clients come in the given order, and everything else happens as early
as it can. -/
def schedule (arrival : List ℕ) : List ExchangeAction :=
  arrival.map ExchangeAction.connect ++ ([.accept, .accept] : List ExchangeAction) ++
    arrival.map ExchangeAction.sendInfo ++ ([.recvInfo, .recvInfo] : List ExchangeAction) ++
    List.replicate 3 (ExchangeAction.sendBack 0) ++ List.replicate 3 (ExchangeAction.sendBack 1) ++
    arrival.flatMap fun r => List.replicate 3 (ExchangeAction.recvBack r)

/-- The state before the first connection. -/
def threeRanksStart : Exchange where
  arrived := []
  clientSocks := []
  sent _ := false
  toServer _ := []
  sentBack _ := 0
  toClient _ := []
  allInfo r := if r = 0 then [collectRankInfo (threeRanks 0)] else []

/-- The state after the exchange. -/
def threeRanksExchange (arrival : List ℕ) : Exchange :=
  (Exchange.machine 3 fun r => collectRankInfo (threeRanks r)).exec threeRanksStart
    (schedule arrival)

/-- The call of `sync_ib` that follows, on one rank. -/
def threeRanksSync (arrival : List ℕ) (r : ℕ) : Option EpBuffer :=
  (threeRanks r).syncIb (((threeRanksExchange arrival).allInfo r).map RankInfo.mrAddr)
    (((threeRanksExchange arrival).allInfo r).map RankInfo.mrRkey) [0, 1, 2] [0, 0, 0] [1, 1, 1]

/-- A rank after `sync_ib`. -/
def threeRanksSynced (arrival : List ℕ) (r : ℕ) : EpBuffer :=
  (threeRanksSync arrival r).getD (threeRanks r)

/-- The exchange is a run when its schedule is legal. -/
theorem threeRanks_reachable {arrival : List ℕ}
    (hlegal : (Exchange.machine 3 fun r => collectRankInfo (threeRanks r)).Legal threeRanksStart
      (schedule arrival)) :
    (Exchange.system 3 fun r => collectRankInfo (threeRanks r)).Reachable
      (threeRanksExchange arrival) :=
  Machine.reachable_exec _ (.init ⟨rfl, rfl, fun _ => rfl, fun _ => rfl, fun _ => rfl, fun _ => rfl,
    fun _ => rfl⟩) hlegal

/-- The three ranks call `sync_ib` with what the exchange gave them, when every call goes well. -/
theorem threeRanks_synced {arrival : List ℕ}
    (hsome : ∀ r < 3, (threeRanksSync arrival r).isSome = true) :
    Synced 3 threeRanks (threeRanksExchange arrival) (threeRanksSynced arrival) where
  rank _ _ := rfl
  size _ _ := rfl
  syncIb r hr := by
    have hmask : ∀ j < 3, ([1, 1, 1] : List (BitVec 32))[j]? = some 1 := by decide
    refine ⟨[0, 1, 2], [0, 0, 0], [1, 1, 1], fun j hj => ⟨1, hmask j hj, by decide⟩, ?_⟩
    obtain ⟨ep, hep⟩ := Option.isSome_iff_exists.mp (hsome r hr)
    have hsynced : threeRanksSynced arrival r = ep := by
      rw [threeRanksSynced, hep, Option.getD_some]
    rw [hsynced]
    exact hep

/-- The clients come in order. -/
theorem assigned_iff_inOrder_threeRanks :
    (Assigned 3 threeRanks (threeRanksSynced [1, 2]) ↔
        InOrder threeRanks (threeRanksExchange [1, 2]).arrived) ∧
      (Distinct 3 threeRanks → (Assigned 3 threeRanks (threeRanksSynced [1, 2]) ↔
        (threeRanksExchange [1, 2]).arrived = List.range' 1 2)) :=
  assigned_iff_inOrder 3 (by decide) threeRanks _ _ (threeRanks_reachable (by decide +kernel))
    ⟨by decide +kernel, by decide +kernel⟩ (threeRanks_synced (by decide +kernel))

/-- Rank 2 connects before rank 1, and rank 0 takes its record for that of rank 1. -/
theorem threeRanks_swapped :
    (Exchange.system 3 fun r => collectRankInfo (threeRanks r)).Reachable
        (threeRanksExchange [2, 1]) ∧
      (threeRanksExchange [2, 1]).Completed 3 ∧
      Synced 3 threeRanks (threeRanksExchange [2, 1]) (threeRanksSynced [2, 1]) ∧
      ¬Assigned 3 threeRanks (threeRanksSynced [2, 1]) := by
  refine ⟨threeRanks_reachable (by decide +kernel), ⟨by decide +kernel, by decide +kernel⟩,
    threeRanks_synced (by decide +kernel), fun h => ?_⟩
  have haddr : (threeRanksSynced [2, 1] 0).raddrs 1 = some (threeRanks 1).mrAddr :=
    ((h 0 (by decide)).2 1 (by decide) (by decide)).1
  revert haddr
  decide +kernel

end EpDemo.Buffer
