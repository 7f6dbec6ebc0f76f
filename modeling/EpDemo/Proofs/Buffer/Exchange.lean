import EpDemo.Proofs.Buffer.Bootstrap
import EpDemo.Proofs.Buffer.Wire

/-!
# `EpDemo.Proofs.Buffer.Exchange`: `exchange_rank_info` completes

There is one schedule in which all ranks get through (`exists_completed`): the clients connect one
after the other, rank 0 reads the record of each, and sends the table to each. The ranks and their
sockets are a network, so this is what all runs lead to, in whatever pieces the bytes move
(`exchange_completes`), and what a rank returns in a run in which others fail (`exchange_agrees`).
-/

set_option autoImplicit false

namespace EpDemo.Buffer

open EpDemo.Library Net

/-- What a rank returns when the connections reach rank 0 in the given order. What was sent is cut,
and only rank 0 has its own record as it is. -/
def agreedTable (info : ℕ → RankInfo) (order : List ℕ) (r : ℕ) : List RankInfo :=
  (if r = 0 then info 0 else (info 0).cut) :: order.map fun j => (info j).cut

/-- How many connections and bytes an exchange takes: every client sends its record, and rank 0
sends its table to every client. -/
def exchangeSize (info : ℕ → RankInfo) (order : List ℕ) : ℕ :=
  order.length + (order.flatMap fun r => rankInfoBytes (info r)).length +
    order.length * ((agreedTable info order 0).flatMap rankInfoBytes).length

section

variable {numRanks : ℕ} {info : ℕ → RankInfo} {order : List ℕ} {room : ℕ → ℕ → ℕ} {backlog : ℕ}

variable (room) in
/-- Rank 0 accepts the clients in their order. -/
theorem exists_accepted (hbacklog : 0 < backlog) {κ : Type} {k : ℕ → Sock → Program (List RankInfo)}
    (l : List ℕ) : ∀ {s : WireState} {turns : List κ} {g : List Sock → Program (List RankInfo)},
      turns.length = l.length → order.drop (s.count .listen) = l → l.Nodup → 0 ∉ l → s.Quiet →
      s.procs 0 = (Proc.forEach (fun _ => accept) turns).bind g →
      (∀ r ∈ l, s.procs r = (createClientSocket r).bind (k r)) →
      ∃ t, Path (Moves (sockets order room backlog)) s (2 * l.length) t ∧ t.Quiet ∧
        t.procs 0 = g (l.map fun r => ⟨0, r⟩) ∧ (∀ r ∈ l, t.procs r = k r ⟨r, 0⟩) ∧
        ∀ q, q ≠ 0 → q ∉ l → t.procs q = s.procs q := by
  induction l with
  | nil =>
    intro s turns g hlen _ _ _ hs h0 _
    rw [List.eq_nil_of_length_eq_zero hlen] at h0
    exact ⟨s, .refl s, hs, h0, fun r hr => absurd hr List.not_mem_nil, fun _ _ _ => rfl⟩
  | cons r l ih =>
    intro s turns g hlen horder hnodup hnot hs h0 hclients
    cases turns with
    | nil => cases hlen
    | cons turn turns =>
      rw [List.nodup_cons] at hnodup
      rw [List.mem_cons, not_or] at hnot
      rw [List.forall_mem_cons] at hclients
      have h0 : s.procs 0 = accept.bind fun sock =>
          (Proc.forEach (fun _ => accept) turns).bind fun socks => g (sock :: socks) := by
        rw [h0]
        show (accept.bind fun x => (Proc.forEach _ turns).bind fun xs => .ret (x :: xs)).bind g = _
        simp only [Proc.bind_assoc]
        rfl
      -- It is the turn of this client.
      have hturn : order.getD (s.count .listen) 0 = r := by
        rw [List.getD_eq_getElem?_getD, ← List.head?_drop, horder]
        rfl
      have hwriter : ∀ i < [r].length,
          (sockets order room backlog).writer .listen (s.count .listen + i) = r := by
        intro i hi
        rw [Nat.lt_one_iff.mp hi]
        exact hturn
      have hconnect : Proc.Sends Port.listen (createClientSocket r) [r] ⟨r, 0⟩ := .put .ret
      have haccept : Proc.Receives Port.listen accept [r] (⟨0, r⟩ : Sock) :=
        Proc.Receives.getAll (E := Port.Item) (c := .listen) (l := [r]) (n := 1) rfl .ret
      have hfirst := path_transfer (T := sockets order room backlog) (q := 0) (c := .listen)
        (Ne.symm hnot.1) rfl hbacklog [r] hconnect haccept hwriter hs hclients.1 h0
      let t : WireState :=
        { s with
          procs := Function.update (Function.update s.procs r (k r ⟨r, 0⟩)) 0
            ((Proc.forEach (fun _ => accept) turns).bind fun socks => g (⟨0, r⟩ :: socks))
          count := Function.update s.count .listen (s.count .listen + 1) }
      have hothers : ∀ q, q ≠ 0 → q ≠ r → t.procs q = s.procs q := fun q hq hqr =>
        (Function.update_of_ne hq ..).trans (Function.update_of_ne hqr ..)
      have horder' : order.drop (t.count .listen) = l := by
        show order.drop (Function.update s.count .listen (s.count .listen + 1) .listen) = l
        rw [Function.update_self, ← List.drop_drop, horder]
        rfl
      have hclients' : ∀ q ∈ l, t.procs q = (createClientSocket q).bind (k q) := by
        intro q hq
        have hq0 : q ≠ 0 := by
          rintro rfl
          exact hnot.2 hq
        have hqr : q ≠ r := by
          rintro rfl
          exact hnodup.1 hq
        rw [hothers q hq0 hqr]
        exact hclients.2 q hq
      have hserver : t.procs 0 =
          (Proc.forEach (fun _ => accept) turns).bind fun socks => g (⟨0, r⟩ :: socks) := by
        show Function.update (Function.update s.procs r (k r ⟨r, 0⟩)) 0 _ 0 = _
        exact Function.update_self ..
      obtain ⟨t', hpath, ht', h0', hl', hothers'⟩ := ih (Nat.succ.inj hlen) horder' hnodup.2
        hnot.2 (s := t) ⟨hs.queue, hs.failed⟩ hserver hclients'
      rw [List.length_cons, Nat.mul_succ, Nat.add_comm]
      refine ⟨t', hfirst.trans hpath, ht', h0', ?_, ?_⟩
      · rw [List.forall_mem_cons]
        refine ⟨?_, hl'⟩
        rw [hothers' r (Ne.symm hnot.1) hnodup.1]
        exact (Function.update_of_ne (Ne.symm hnot.1) ..).trans (Function.update_self ..)
      · intro q hq0 hq
        rw [List.mem_cons, not_or] at hq
        rw [hothers' q hq0 hq.2, hothers q hq0 hq.1]

/-- What a client does once it is connected. -/
def afterConnect (numRanks : ℕ) (info : ℕ → RankInfo) (r : ℕ) (sock : Sock) :
    Program (List RankInfo) :=
  (sendRankInfo sock (info r)).bind fun _ =>
    Proc.forEach (fun _ => recvRankInfo sock) (List.range numRanks)

/-- What rank 0 does once it has accepted the clients. -/
def afterAccept (info : ℕ → RankInfo) (socks : List Sock) : Program (List RankInfo) :=
  (Proc.forEach recvRankInfo socks).bind fun infos =>
    (Proc.forEach (fun sock => Proc.forEach (sendRankInfo sock) (info 0 :: infos)) socks).bind
      fun _ => .ret (info 0 :: infos)

/-- Rank 0 reads the record of a client. -/
theorem meets_record (hroom : ∀ p q, 0 < room p q) {r : ℕ} (hr : r ≠ 0) :
    Meets (List RankInfo) (sockets order room backlog) 0 r (recvRankInfo ⟨0, r⟩)
      (sendRankInfo ⟨r, 0⟩ (info r)) (info r).cut () (2 * (rankInfoBytes (info r)).length) := by
  refine Meets.symm hr (Meets.of_sends (T := sockets order room backlog) (E := Port.Item)
    (c := Port.stream r 0) (l := rankInfoBytes (info r)) hr rfl (fun _ => rfl) (hroom r 0) ?_ ?_)
  · exact sends_sendRankInfo ⟨r, 0⟩ (info r)
  · exact receives_recvRankInfo ⟨0, r⟩ (info r)

/-- Rank 0 sends the table to a client. -/
theorem meets_table (hroom : ∀ p q, 0 < room p q) {r : ℕ} (hr : r ≠ 0) (table : List RankInfo) :
    Meets (List RankInfo) (sockets order room backlog) 0 r
      (Proc.forEach (sendRankInfo ⟨0, r⟩) table)
      (Proc.forEach (fun _ => recvRankInfo ⟨r, 0⟩) (List.range table.length))
      (table.map fun _ => ()) (table.map RankInfo.cut)
      (2 * (table.flatMap rankInfoBytes).length) := by
  refine Meets.of_sends (T := sockets order room backlog) (E := Port.Item) (c := Port.stream 0 r)
    (l := table.flatMap rankInfoBytes) hr.symm rfl (fun _ => rfl) (hroom 0 r) ?_ ?_
  · exact Proc.Sends.forEach fun x _ => sends_sendRankInfo ⟨0, r⟩ x
  · exact Proc.Receives.forEach (fun x _ => receives_recvRankInfo ⟨r, 0⟩ x)
      List.length_range

/-- Where every rank has returned, nothing moves. -/
theorem stuck_of_completed {t : WireState} (hdone : ∀ r, ∃ table, t.procs r = .ret table) :
    Stuck (Moves (sockets order room backlog)) t := by
  rintro n _ ⟨r, hr, -⟩
  obtain ⟨table, htable⟩ := hdone r
  exact not_enabled_ret htable hr

/-- The sizes of what rank 0 does with its clients. -/
theorem sum_sizes (f : ℕ → List (BitVec 8)) (n : ℕ) (l : List ℕ) :
    ((l.map fun r => (⟨0, r⟩ : Sock)).map fun sock => 2 * (f sock.peer).length).sum +
        ((l.map fun r => (⟨0, r⟩ : Sock)).map fun _ => 2 * n).sum =
      2 * ((l.flatMap f).length + l.length * n) := by
  induction l with
  | nil => rw [List.length_nil, Nat.zero_mul]; rfl
  | cons r l ih =>
    simp only [List.map_cons, List.sum_cons, List.flatMap_cons, List.length_append,
      List.length_cons, Nat.succ_mul] at ih ⊢
    omega

variable (numRanks info order room backlog) in
/-- There is a schedule in which every rank returns. -/
theorem exists_completed (hn : 0 < numRanks)
    (horder : order.Perm (List.range' 1 (numRanks - 1))) (hroom : ∀ p q, 0 < room p q)
    (hbacklog : 0 < backlog) :
    ∃ t, Path (Moves (sockets order room backlog)) (startExchange numRanks info)
        (2 * exchangeSize info order) t ∧ Stuck (Moves (sockets order room backlog)) t ∧
      ∀ r < numRanks, t.procs r = .ret (agreedTable info order r) := by
  have hmem : ∀ r, r ∈ order ↔ 0 < r ∧ r < numRanks := by
    intro r
    rw [horder.mem_iff, List.mem_range'_1]
    omega
  have hlen : order.length = numRanks - 1 := by rw [horder.length_eq, List.length_range']
  have hnodup : order.Nodup := horder.nodup_iff.mpr List.nodup_range'
  have h0 : 0 ∉ order := fun h => absurd ((hmem 0).mp h).1 (Nat.lt_irrefl 0)
  have hne : ∀ r ∈ order, r ≠ 0 := fun r hr => ((hmem r).mp hr).1.ne'
  have hstart : ∀ r ∈ order, (startExchange numRanks info).procs r =
      (createClientSocket r).bind (afterConnect numRanks info r) := by
    intro r hr
    show (if r < numRanks then exchangeRankInfo numRanks r (info r) else _) = _
    rw [if_pos ((hmem r).mp hr).2, exchangeRankInfo, if_neg (hne r hr)]
    rfl
  have hserver : (startExchange numRanks info).procs 0 =
      (Proc.forEach (fun _ => accept) (List.range' 1 (numRanks - 1))).bind (afterAccept info) := by
    show (if 0 < numRanks then exchangeRankInfo numRanks 0 (info 0) else _) = _
    rw [if_pos hn]
    rfl
  obtain ⟨t₁, hpath₁, ht₁, hserver₁, hclients₁, hothers₁⟩ :=
    exists_accepted room hbacklog order (by rw [List.length_range', hlen]) rfl hnodup h0
      ⟨fun _ => rfl, fun _ => rfl⟩ hserver hstart
  -- Rank 0 reads the records.
  let socks : List Sock := order.map fun r => ⟨0, r⟩
  have hpeers : socks.map Sock.peer = order := by
    rw [List.map_map]
    exact List.map_id order
  have hsocks : ∀ {Q : Sock → Prop}, (∀ r ∈ order, Q ⟨0, r⟩) → ∀ sock ∈ socks, Q sock := by
    intro Q hQ sock hsock
    obtain ⟨r, hr, rfl⟩ := List.mem_map.mp hsock
    exact hQ r hr
  have hnodup' : (socks.map Sock.peer).Nodup := hpeers.symm ▸ hnodup
  have h0' : 0 ∉ socks.map Sock.peer := hpeers.symm ▸ h0
  have hrecords : ∀ sock ∈ socks, Meets (List RankInfo) (sockets order room backlog) 0 sock.peer
      (recvRankInfo sock) (sendRankInfo ⟨sock.peer, 0⟩ (info sock.peer)) (info sock.peer).cut ()
      (2 * (rankInfoBytes (info sock.peer)).length) :=
    hsocks fun r hr => meets_record hroom (hne r hr)
  obtain ⟨t₂, hpath₂, ht₂, hserver₂, hclients₂, hothers₂⟩ :=
    exists_meetings socks hnodup' h0' hrecords ht₁ hserver₁
      (g := fun (sock : Sock) _ =>
        Proc.forEach (fun _ => recvRankInfo ⟨sock.peer, 0⟩) (List.range numRanks))
      (hsocks hclients₁)
  -- It sends the table to all.
  let table : List RankInfo := info 0 :: socks.map fun sock => (info sock.peer).cut
  have htable : table.length = numRanks := by
    rw [List.length_cons, List.length_map, List.length_map, hlen]
    omega
  have htables : ∀ sock ∈ socks, Meets (List RankInfo) (sockets order room backlog) 0 sock.peer
      (Proc.forEach (sendRankInfo sock) table)
      (Proc.forEach (fun _ => recvRankInfo ⟨sock.peer, 0⟩) (List.range table.length))
      (table.map fun _ => ()) (table.map RankInfo.cut) (2 * (table.flatMap rankInfoBytes).length) :=
    hsocks fun r hr => meets_table hroom (hne r hr) table
  obtain ⟨t₃, hpath₃, -, hserver₃, hclients₃, hothers₃⟩ :=
    exists_meetings socks hnodup' h0' htables ht₂ hserver₂ (g := fun _ => .ret) (by
      intro sock hsock
      rw [hclients₂ sock hsock, htable, Proc.bind_ret])
  have hinfos : socks.map (fun sock => (info sock.peer).cut) = order.map fun j => (info j).cut := by
    rw [List.map_map]
    rfl
  have htable₀ : table = agreedTable info order 0 := by
    rw [agreedTable, if_pos rfl, ← hinfos]
  have hdone : ∀ r < numRanks, t₃.procs r = .ret (agreedTable info order r) := by
    intro r hr
    by_cases hr0 : r = 0
    · rw [hr0, hserver₃, ← htable₀]
    · have hr' : r ∈ order := (hmem r).mpr ⟨Nat.pos_of_ne_zero hr0, hr⟩
      have h := hclients₃ ⟨0, r⟩ (List.mem_map_of_mem hr')
      rw [show t₃.procs r = _ from h, agreedTable, if_neg hr0, List.map_cons, hinfos, List.map_map]
      congr 2
      exact List.map_congr_left fun j _ => (info j).cut_cut
  have hothers : ∀ r, numRanks ≤ r → t₃.procs r = .ret [] := by
    intro r hr
    have hr0 : r ≠ 0 := by omega
    have hr' : r ∉ order := fun h => absurd ((hmem r).mp h).2 (Nat.not_lt.mpr hr)
    rw [hothers₃ r hr0 (hpeers.symm ▸ hr'), hothers₂ r hr0 (hpeers.symm ▸ hr'),
      hothers₁ r hr0 hr']
    exact if_neg (Nat.not_lt.mpr hr)
  refine ⟨t₃, ?_, stuck_of_completed fun r => ?_, hdone⟩
  · have hsize : 2 * exchangeSize info order = 2 * order.length +
        ((socks.map fun sock => 2 * (rankInfoBytes (info sock.peer)).length).sum +
          (socks.map fun _ => 2 * (table.flatMap rankInfoBytes).length).sum) := by
      rw [sum_sizes (fun r => rankInfoBytes (info r)), exchangeSize, ← htable₀]
      omega
    rw [hsize]
    exact hpath₁.trans (hpath₂.trans hpath₃)
  · by_cases hr : r < numRanks
    · exact ⟨_, hdone r hr⟩
    · exact ⟨_, hothers r (Nat.le_of_not_lt hr)⟩

/-- `exchange_rank_info` completes on all ranks, however the bytes move on the sockets. A connection
and a byte are sent once and received once: no run moves more than these, and a run that cannot go
on has moved them all and has brought every rank to its table. -/
theorem exchange_completes (numRanks : ℕ) (hn : 0 < numRanks) (info : ℕ → RankInfo)
    (order : List ℕ) (horder : order.Perm (List.range' 1 (numRanks - 1))) (room : ℕ → ℕ → ℕ)
    (hroom : ∀ p q, 0 < room p q) (backlog : ℕ) (hbacklog : 0 < backlog) (n : ℕ) (s : WireState)
    (hs : Path (Moves (sockets order room backlog)) (startExchange numRanks info) n s) :
    n ≤ 2 * exchangeSize info order ∧
      (n = 2 * exchangeSize info order ↔ Stuck (Moves (sockets order room backlog)) s) ∧
      (n = 2 * exchangeSize info order ↔
        ∀ r < numRanks, s.procs r = .ret (agreedTable info order r)) := by
  obtain ⟨t, hend, hstuck, hdone⟩ :=
    exists_completed numRanks info order room backlog hn horder hroom hbacklog
  obtain ⟨hle, hiff, hlast⟩ := (balanced_moves _).stuck_iff hend hstuck hs
  refine ⟨hle, hiff, fun hnN => ?_, fun hall => hiff.mpr (stuck_of_completed fun r => ?_)⟩
  · rw [hlast.mp hnN]
    exact hdone
  · by_cases hr : r < numRanks
    · exact ⟨_, hall r hr⟩
    · exact ⟨[], procs_of_path hs (if_neg hr)⟩

/-- The tables are those of an exchange of whole records, when no vector is cut. -/
theorem agreedTable_eq (hn : 0 < numRanks) {e : Exchange}
    (he : (Exchange.system numRanks info).Reachable e) (hdone : e.Completed numRanks)
    (hshort : ∀ r < numRanks, (info r).Short) {r : ℕ} (hr : r < numRanks) :
    agreedTable info e.arrived r = e.allInfo r := by
  have hinv := Exchange.invariant_of_reachable hn he
  have hcut : ∀ j < numRanks, (info j).cut = info j := fun j hj =>
    (info j).cut_eq_iff.mpr (hshort j hj)
  rw [hinv.allInfo_of_completed hdone hr, agreedTable, List.map_cons, hcut 0 hn, ite_self]
  congr 1
  exact List.map_congr_left fun j hj => hcut j (hinv.range j hj).2

/-- Whatever fails, a rank that returns a table returns the one for the order of the connections. It
differs between the ranks only in the record of rank 0, which rank 0 itself has uncut, and is what
the exchange of whole records gives for the same order, when no vector is cut. -/
theorem exchange_agrees (numRanks : ℕ) (hn : 0 < numRanks) (info : ℕ → RankInfo) (order : List ℕ)
    (horder : order.Perm (List.range' 1 (numRanks - 1))) (room : ℕ → ℕ → ℕ)
    (hroom : ∀ p q, 0 < room p q) (backlog : ℕ) (hbacklog : 0 < backlog) (s : WireState)
    (hs : ((machine (sockets order room backlog)).system
      (· = startExchange numRanks info)).Reachable s)
    (r : ℕ) (hr : r < numRanks) (table : List RankInfo) (hret : s.procs r = .ret table) :
    table = agreedTable info order r ∧
      ∀ e : Exchange, (Exchange.system numRanks info).Reachable e → e.Completed numRanks →
        e.arrived = order → (∀ q < numRanks, (info q).Short) → table = e.allInfo r := by
  obtain ⟨t, hend, hstuck, hdone⟩ :=
    exists_completed numRanks info order room backlog hn horder hroom hbacklog
  obtain ⟨s₀, n, rfl, hpath⟩ := path_of_reachable hs
  have hsame := returned_eq hend hstuck hpath hret
  rw [hdone r hr] at hsame
  cases hsame
  refine ⟨rfl, fun e he hdone he' hshort => ?_⟩
  rw [← he']
  exact agreedTable_eq hn he hdone hshort hr

end

/-! ### Three ranks -/

/-- The records of three ranks. -/
def threeInfos (r : ℕ) : RankInfo := collectRankInfo (threeRanks r)

/-- Sockets that hold one byte, on which rank 2 connects first. -/
def narrowSockets : Topology ℕ Port := sockets [2, 1] (fun _ _ => 1) 1

/-- The exchange of three ranks to its end. -/
theorem exchange_completes_threeRanks :
    ∃ s, Path (Moves narrowSockets) (startExchange 3 threeInfos)
        (2 * exchangeSize threeInfos [2, 1]) s ∧
      Stuck (Moves narrowSockets) s ∧
      ∀ r < 3, s.procs r = .ret (agreedTable threeInfos [2, 1] r) := by
  obtain ⟨t, hend, -, -⟩ := exists_completed 3 threeInfos [2, 1] (fun _ _ => 1) 1 (by decide)
    (by decide) (fun _ _ => Nat.one_pos) Nat.one_pos
  obtain ⟨-, hstuck, hdone⟩ := exchange_completes 3 (by decide) threeInfos [2, 1] (by decide)
    (fun _ _ => 1) (fun _ _ => Nat.one_pos) 1 Nat.one_pos _ t hend
  exact ⟨t, hend, hstuck.mp rfl, hdone.mp rfl⟩

/-- One rank fails in its last step, and the two others return the same table. -/
theorem exchange_agrees_threeRanks :
    ∃ s p, ((machine narrowSockets).system (· = startExchange 3 threeInfos)).Reachable s ∧
      (p < 3 ∧ s.failed p = true) ∧ ∀ r < 3, r ≠ p →
        ∃ table, s.procs r = .ret table ∧ table = agreedTable threeInfos [2, 1] r := by
  obtain ⟨t, hend, -, hdone⟩ := exists_completed 3 threeInfos [2, 1] (fun _ _ => 1) 1 (by decide)
    (by decide) (fun _ _ => Nat.one_pos) Nat.one_pos
  have hne : startExchange 3 threeInfos ≠ t := by
    rintro rfl
    cases hdone 0 (by decide)
  have hinit : ((machine narrowSockets).system (· = startExchange 3 threeInfos)).Reachable
      (startExchange 3 threeInfos) := .init rfl
  obtain ⟨s, p, hreach, hfailed, hrun, hothers⟩ := exists_failed hend hne hinit
  refine ⟨s, p, hreach, ⟨?_, hfailed⟩, fun r hr hrp => ?_⟩
  · by_contra hp
    exact hrun [] (if_neg hp)
  · have hret := (hothers r hrp).trans (hdone r hr)
    exact ⟨_, hret, (exchange_agrees 3 (by decide) threeInfos [2, 1] (by decide) (fun _ _ => 1)
      (fun _ _ => Nat.one_pos) 1 Nat.one_pos s hreach r hr _ hret).1⟩

end EpDemo.Buffer
