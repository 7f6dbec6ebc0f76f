import EpDemo.Buffer.Sync
import EpDemo.Library.Transition

/-!
# `EpDemo.Buffer.Bootstrap`: how the ranks exchange their `RankInfo`

`exchange_rank_info` is a star: every other rank connects to rank 0 and sends its record, and rank
0 sends the whole table back on every connection. A record does not say whose it is. Rank 0 reads
entry `i` of its table from the connection that it accepted as the `i`-th.

A record goes over a connection as one message here. The connections keep messages in order, and
the system leaves it open when a client connects, sends and reads.
-/

set_option autoImplicit false

namespace EpDemo.Buffer

open EpDemo.Library

/-- A state of the exchange. `allInfo` is what each rank has filled of its table. -/
structure Exchange where
  /-- The clients, in the order in which their connections reach rank 0. -/
  arrived : List ℕ
  /-- `client_socks` of rank 0, as the clients that they lead to. -/
  clientSocks : List ℕ
  /-- The client has sent its record. -/
  sent : ℕ → Bool
  /-- What a client has sent and rank 0 has not read. -/
  toServer : ℕ → List RankInfo
  /-- How many records rank 0 has sent on each connection. -/
  sentBack : ℕ → ℕ
  /-- What rank 0 has sent to a client and the client has not read. -/
  toClient : ℕ → List RankInfo
  allInfo : ℕ → List RankInfo

/-- What can happen next. -/
inductive ExchangeAction
  /-- The connection of client `r` reaches rank 0. -/
  | connect (r : ℕ)
  /-- Rank 0 accepts the next connection. -/
  | accept
  /-- Client `r` sends its record. -/
  | sendInfo (r : ℕ)
  /-- Rank 0 reads the next entry of its table. -/
  | recvInfo
  /-- Rank 0 sends the next record of its table on connection `i`. -/
  | sendBack (i : ℕ)
  /-- Client `r` reads the next entry of its table. -/
  | recvBack (r : ℕ)
  deriving DecidableEq, Repr

namespace Exchange

section

variable (numRanks : ℕ) (info : ℕ → RankInfo)

/-- The client of connection `i`. -/
def sock (s : Exchange) (i : ℕ) : ℕ := s.clientSocks.getD i 0

/-- The guard of an action. -/
def enabled (s : Exchange) : ExchangeAction → Prop
  | .connect r => 0 < r ∧ r < numRanks ∧ r ∉ s.arrived
  | .accept => s.clientSocks.length + 1 < numRanks ∧ s.clientSocks.length < s.arrived.length
  | .sendInfo r => r ∈ s.arrived ∧ s.sent r = false
  | .recvInfo => s.clientSocks.length + 1 = numRanks ∧ (s.allInfo 0).length < numRanks ∧
      s.toServer (s.sock ((s.allInfo 0).length - 1)) ≠ []
  | .sendBack i => i + 1 < numRanks ∧ (s.allInfo 0).length = numRanks ∧
      (∀ k < i, s.sentBack k = numRanks) ∧ s.sentBack i < numRanks
  | .recvBack r => r ∈ s.arrived ∧ s.sent r = true ∧ (s.allInfo r).length < numRanks ∧
      s.toClient r ≠ []

instance decidableEnabled (s : Exchange) : (a : ExchangeAction) → Decidable (enabled numRanks s a)
  | .connect _ | .accept | .sendInfo _ | .recvInfo | .sendBack _ | .recvBack _ => by
    dsimp only [enabled]; infer_instance

/-- The state after an action. -/
def fire (s : Exchange) : ExchangeAction → Exchange
  | .connect r => { s with arrived := s.arrived ++ [r] }
  | .accept => { s with clientSocks := s.clientSocks ++ [s.arrived.getD s.clientSocks.length 0] }
  | .sendInfo r =>
    { s with
      toServer := Function.update s.toServer r (s.toServer r ++ [info r])
      sent := Function.update s.sent r true }
  | .recvInfo =>
    let r := s.sock ((s.allInfo 0).length - 1)
    match s.toServer r with
    | [] => s
    | x :: rest =>
      { s with
        toServer := Function.update s.toServer r rest
        allInfo := Function.update s.allInfo 0 (s.allInfo 0 ++ [x]) }
  | .sendBack i =>
    { s with
      toClient := Function.update s.toClient (s.sock i)
        (s.toClient (s.sock i) ++ ((s.allInfo 0)[s.sentBack i]?).toList)
      sentBack := Function.update s.sentBack i (s.sentBack i + 1) }
  | .recvBack r =>
    match s.toClient r with
    | [] => s
    | x :: rest =>
      { s with
        toClient := Function.update s.toClient r rest
        allInfo := Function.update s.allInfo r (s.allInfo r ++ [x]) }

/-- Before the first connection: rank 0 has entered its own record. -/
structure Init (s : Exchange) : Prop where
  arrived : s.arrived = []
  clientSocks : s.clientSocks = []
  sent : ∀ r, s.sent r = false
  toServer : ∀ r, s.toServer r = []
  sentBack : ∀ i, s.sentBack i = 0
  toClient : ∀ r, s.toClient r = []
  allInfo : ∀ r, s.allInfo r = if r = 0 then [info 0] else []

/-- `exchange_rank_info` of all ranks. -/
def machine : Machine Exchange ExchangeAction where
  enabled := enabled numRanks
  decEnabled := decidableEnabled numRanks
  fire := fire info

/-- The runs of the exchange. -/
def system : TransitionSystem Exchange ExchangeAction := (machine numRanks info).system (Init info)

/-- `exchange_rank_info` has completed on all ranks. -/
structure Completed (s : Exchange) : Prop where
  allInfo : ∀ r < numRanks, (s.allInfo r).length = numRanks
  sentBack : ∀ i < numRanks - 1, s.sentBack i = numRanks

end

end Exchange

end EpDemo.Buffer
