import EpDemo.Buffer.Sync
import EpDemo.Library.Bytes
import EpDemo.Library.Channels

/-!
# `EpDemo.Buffer.Wire`: `exchange_rank_info` on its sockets

`send_vector` sends the size of a vector as 32 bits and then the elements, all little end first,
and `recv_vector` reads them back. A `RankInfo` goes over a socket field by field. The socket
between two ranks is two streams of bytes, and `send` and `recv` move as many bytes as they like of
those that `send_all` and `recv_all` still have to move. A call that fails ends the function with
`false`.

The connections reach rank 0 in some order, and that order is what the `i`-th `accept` goes by.
-/

set_option autoImplicit false

namespace EpDemo.Buffer

open EpDemo.Library

/-! ### Bytes -/

/-- The low `n` bytes of a word as they lie in memory. -/
def bytesOf {w : ℕ} (n : ℕ) (x : BitVec w) : List (BitVec 8) := (List.range n).map (byte x)

/-- The word whose bytes are the first `n` of a list. -/
def ofBytes : (n : ℕ) → List (BitVec 8) → BitVec (8 * n)
  | 0, _ => 0#0
  | n + 1, l => ofBytes n l.tail ++ l.headD 0

/-- `n` words in a row. -/
def wordsOf : ℕ → List (BitVec 8) → List (BitVec 32)
  | 0, _ => []
  | n + 1, l => ofBytes 4 l :: wordsOf n (l.drop 4)

/-! ### Sockets -/

/-- What the ranks communicate over: a stream of bytes for each direction between two ranks, and
the connections that reach rank 0. -/
inductive Port
  | stream (source target : ℕ)
  | listen
  deriving DecidableEq

/-- A stream carries bytes, and a connection is from a rank. -/
@[reducible] def Port.Item : Port → Type
  | .stream _ _ => BitVec 8
  | .listen => ℕ

/-- A function of a rank. -/
abbrev Program := Proc Port.Item

/-- A socket of rank `own` to rank `peer`. -/
structure Sock where
  own : ℕ
  peer : ℕ

/-- `create_client_socket`: connect to rank 0. -/
def createClientSocket (own : ℕ) : Program Sock :=
  Proc.putAll .listen [own] (.ret ⟨own, 0⟩)

/-- `accept`: the next connection. -/
def accept : Program Sock :=
  Proc.getAll .listen 1 fun (l : List ℕ) => .ret ⟨0, l.headD 0⟩

/-- `send_all`. -/
def sendAll (sock : Sock) (data : List (BitVec 8)) : Program Unit :=
  Proc.putAll (.stream sock.own sock.peer) data (.ret ())

/-- `recv_all`. -/
def recvAll (sock : Sock) (len : ℕ) : Program (List (BitVec 8)) :=
  Proc.getAll (.stream sock.peer sock.own) len .ret

/-- `send_vector`. The size is a `uint32_t`. -/
def sendVector (sock : Sock) (vec : List (BitVec 32)) : Program Unit := do
  let size := BitVec.ofNat 32 vec.length
  sendAll sock (bytesOf 4 size)
  if 0 < size.toNat then
    sendAll sock ((vec.take size.toNat).flatMap (bytesOf 4))

/-- `recv_vector`. -/
def recvVector (sock : Sock) : Program (List (BitVec 32)) := do
  let bytes ← recvAll sock 4
  let size := (ofBytes 4 bytes).toNat
  if 0 < size then
    let data ← recvAll sock (size * 4)
    return wordsOf size data
  else
    return []

/-- A record is sent field by field. -/
def sendRankInfo (sock : Sock) (info : RankInfo) : Program Unit := do
  sendVector sock info.qpns
  sendVector sock info.lids
  sendAll sock (bytesOf 8 info.mrAddr)
  sendAll sock (bytesOf 4 info.mrRkey)
  sendAll sock (bytesOf 8 info.gidSubnetPrefix)
  sendAll sock (bytesOf 8 info.gidInterfaceId)
  sendVector sock info.ipcHandle
  sendAll sock [if info.isRoce then 1 else 0]

/-- A record is read field by field. -/
def recvRankInfo (sock : Sock) : Program RankInfo := do
  let qpns ← recvVector sock
  let lids ← recvVector sock
  let mrAddr ← recvAll sock 8
  let mrRkey ← recvAll sock 4
  let gidSubnetPrefix ← recvAll sock 8
  let gidInterfaceId ← recvAll sock 8
  let ipcHandle ← recvVector sock
  let isRoce ← recvAll sock 1
  return {
    qpns, lids
    mrAddr := ofBytes 8 mrAddr
    mrRkey := ofBytes 4 mrRkey
    gidSubnetPrefix := ofBytes 8 gidSubnetPrefix
    gidInterfaceId := ofBytes 8 gidInterfaceId
    ipcHandle
    isRoce := decide (isRoce.headD 0 ≠ 0) }

/-- `exchange_rank_info` of rank 0: accept the others, read a record from each, and send all
records to each. -/
def serveRankInfo (numRanks : ℕ) (myInfo : RankInfo) : Program (List RankInfo) := do
  let clientSocks ← Proc.forEach (fun _ => accept) (List.range' 1 (numRanks - 1))
  let infos ← Proc.forEach recvRankInfo clientSocks
  let allInfo := myInfo :: infos
  let _ ← Proc.forEach (fun sock => Proc.forEach (sendRankInfo sock) allInfo) clientSocks
  return allInfo

/-- `exchange_rank_info` of another rank: send the own record and read all records. -/
def requestRankInfo (numRanks myRank : ℕ) (myInfo : RankInfo) : Program (List RankInfo) := do
  let clientSock ← createClientSocket myRank
  sendRankInfo clientSock myInfo
  Proc.forEach (fun _ => recvRankInfo clientSock) (List.range numRanks)

/-- `exchange_rank_info`: the table that the rank returns `true` with. -/
def exchangeRankInfo (numRanks myRank : ℕ) (myInfo : RankInfo) : Program (List RankInfo) :=
  if myRank = 0 then serveRankInfo numRanks myInfo else requestRankInfo numRanks myRank myInfo

/-! ### All ranks together -/

/-- The sockets of an exchange in which the connections reach rank 0 in the given order. A
direction of a socket holds `room` bytes, and `backlog` connections can wait. -/
def sockets (order : List ℕ) (room : ℕ → ℕ → ℕ) (backlog : ℕ) : Topology ℕ Port where
  reader
    | .stream _ target => target
    | .listen => 0
  writer
    | .stream source _, _ => source
    | .listen, k => order.getD k 0
  capacity
    | .stream source target => room source target
    | .listen => backlog

/-- A state of the exchange. -/
abbrev WireState := Net ℕ Port.Item (List RankInfo)

/-- The ranks call `exchange_rank_info`. -/
def startExchange (numRanks : ℕ) (info : ℕ → RankInfo) : WireState where
  procs r := if r < numRanks then exchangeRankInfo numRanks r (info r) else .ret []
  queue _ := []
  count _ := 0
  failed _ := false

end EpDemo.Buffer
