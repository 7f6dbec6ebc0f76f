import EpDemo.Buffer.Wire

/-!
# `EpDemo.Proofs.Buffer.Wire`: how a `RankInfo` goes over a socket

A vector whose size does not fit into the 32 bits that are sent for it arrives cut (`cutVector`),
and everything else as it is. Both directions are here: what is sent is received
(`receives_recvRankInfo`), and what is received is what is sent for it (`of_recvRankInfo`).
-/

set_option autoImplicit false

namespace EpDemo.Buffer

open EpDemo.Library

/-! ### Bytes -/

/-- The bytes of a value are as many as its size says. -/
@[simp] theorem length_bytesOf {w : ℕ} (n : ℕ) (x : BitVec w) : (bytesOf n x).length = n := by
  rw [bytesOf, List.length_map, List.length_range]

/-- Byte `i` of the value made of a list is the `i`-th of the list, or zero behind its end. -/
theorem byte_ofBytes (n : ℕ) : ∀ (l : List (BitVec 8)) {i : ℕ}, i < n →
    byte (ofBytes n l) i = l.getD i 0 := by
  induction n with
  | zero => exact fun _ _ h => absurd h (Nat.not_lt_zero _)
  | succ n ih =>
    intro l i hi
    -- The first byte of the list is the low byte, which was appended last.
    cases i with
    | zero =>
      show byte (ofBytes n l.tail ++ l.headD 0) 0 = _
      rw [byte_append_zero]
      cases l with
      | nil => rfl
      | cons b l => rfl
    | succ i =>
      show byte (ofBytes n l.tail ++ l.headD 0) (i + 1) = _
      rw [byte_append_succ, ih _ (Nat.lt_of_succ_lt_succ hi)]
      cases l with
      | nil => rfl
      | cons b l => rfl

/-- A word is read as it was sent, whatever comes after it. -/
theorem ofBytes_bytesOf {n : ℕ} (x : BitVec (8 * n)) (l : List (BitVec 8)) :
    ofBytes n (bytesOf n x ++ l) = x := by
  apply eq_of_byte_eq
  intro i hi
  rw [byte_ofBytes n _ hi, List.getD_eq_getElem?_getD,
    List.getElem?_append_left (by simpa using hi),
    bytesOf, List.getElem?_map, List.getElem?_range hi]
  rfl

/-- Bytes become a value and the same bytes again. -/
theorem bytesOf_ofBytes {n : ℕ} {l : List (BitVec 8)} (h : l.length = n) :
    bytesOf n (ofBytes n l) = l := by
  apply List.ext_getElem
  · rw [length_bytesOf, h]
  · intro i hi hi'
    simp only [bytesOf, List.getElem_map, List.getElem_range]
    rw [byte_ofBytes n l (by simpa using hi), List.getD_eq_getElem?_getD,
      List.getElem?_eq_getElem hi', Option.getD_some]

/-- The words of a vector are read as they were sent. -/
theorem wordsOf_flatMap (vec : List (BitVec 32)) :
    wordsOf vec.length (vec.flatMap (bytesOf 4)) = vec := by
  induction vec with
  | nil => rfl
  | cons x vec ih =>
    show ofBytes 4 (bytesOf 4 x ++ vec.flatMap (bytesOf 4)) ::
      wordsOf vec.length ((bytesOf 4 x ++ vec.flatMap (bytesOf 4)).drop 4) = _
    have hlen := length_bytesOf 4 x
    rw [ofBytes_bytesOf (n := 4) x, List.drop_append_of_le_length (Nat.le_of_eq hlen.symm),
      List.drop_of_length_le (Nat.le_of_eq hlen), List.nil_append, ih]

/-- A vector of 32-bit elements has four bytes for each. -/
theorem length_flatMap_bytesOf (vec : List (BitVec 32)) :
    (vec.flatMap (bytesOf 4)).length = vec.length * 4 := by
  induction vec with
  | nil => rfl
  | cons x vec ih =>
    rw [List.flatMap_cons, List.length_append, length_bytesOf, ih, List.length_cons]
    omega

/-- `wordsOf n` makes `n` elements of any bytes. -/
theorem length_wordsOf (n : ℕ) : ∀ l : List (BitVec 8), (wordsOf n l).length = n := by
  induction n with
  | zero => exact fun _ => rfl
  | succ n ih => exact fun l => congrArg (· + 1) (ih (l.drop 4))

/-- A value of `n` bytes depends on the first `n` bytes only. -/
theorem ofBytes_take (n : ℕ) : ∀ l : List (BitVec 8), ofBytes n (l.take n) = ofBytes n l := by
  intro l
  apply eq_of_byte_eq
  intro i hi
  rw [byte_ofBytes n _ hi, byte_ofBytes n _ hi, List.getD_eq_getElem?_getD,
    List.getD_eq_getElem?_getD, List.getElem?_take_of_lt hi]

/-- The bytes of a vector become its elements and the same bytes again. -/
theorem flatMap_wordsOf (n : ℕ) : ∀ {l : List (BitVec 8)}, l.length = n * 4 →
    (wordsOf n l).flatMap (bytesOf 4) = l := by
  induction n with
  | zero =>
    intro l h
    rw [List.eq_nil_of_length_eq_zero (h.trans (Nat.zero_mul 4))]
    rfl
  | succ n ih =>
    intro l h
    show bytesOf 4 (ofBytes 4 l) ++ (wordsOf n (l.drop 4)).flatMap (bytesOf 4) = l
    rw [ih (by rw [List.length_drop, h]; omega), ← ofBytes_take,
      bytesOf_ofBytes (by rw [List.length_take, h]; omega), List.take_append_drop]

/-! ### Vectors -/

/-- What arrives of a vector: as many elements as its size says in 32 bits. -/
def cutVector (vec : List (BitVec 32)) : List (BitVec 32) := vec.take (vec.length % 2 ^ 32)

/-- A vector on a socket. -/
def vectorBytes (vec : List (BitVec 32)) : List (BitVec 8) :=
  bytesOf 4 (BitVec.ofNat 32 vec.length) ++ (cutVector vec).flatMap (bytesOf 4)

/-- A vector is cut to its length modulo `2 ^ 32`, since the length travels in 32 bits. -/
theorem length_cutVector (vec : List (BitVec 32)) :
    (cutVector vec).length = vec.length % 2 ^ 32 := by
  rw [cutVector, List.length_take]
  exact Nat.min_eq_left (Nat.mod_le ..)

/-- A vector is not cut exactly when its length is below `2 ^ 32`. -/
theorem cutVector_eq_iff (vec : List (BitVec 32)) : cutVector vec = vec ↔ vec.length < 2 ^ 32 := by
  constructor
  · intro h
    rw [← h, length_cutVector]
    exact Nat.mod_lt _ (by decide)
  · intro h
    rw [cutVector, Nat.mod_eq_of_lt h, List.take_length]

/-- A cut vector is one whose length fits. -/
theorem length_cutVector_lt (vec : List (BitVec 32)) : (cutVector vec).length < 2 ^ 32 := by
  rw [length_cutVector]
  exact Nat.mod_lt _ (by decide)

section

variable {sock : Sock}

/-- What a program sends on a socket. -/
abbrev SendsOn {α : Type} (sock : Sock) (p : Program α) (l : List (BitVec 8)) (a : α) : Prop :=
  Proc.Sends (Port.stream sock.own sock.peer) p l a

/-- What a program receives on a socket. -/
abbrev ReceivesOn {α : Type} (sock : Sock) (p : Program α) (l : List (BitVec 8)) (a : α) : Prop :=
  Proc.Receives (Port.stream sock.peer sock.own) p l a

/-- `send_all` sends the bytes it was given, whatever pieces `send` takes. -/
theorem sends_sendAll (l : List (BitVec 8)) :
    SendsOn sock (sendAll sock l) l () := by
  have h : SendsOn sock (sendAll sock l) (l ++ []) () :=
    Proc.Sends.putAll (E := Port.Item) (c := Port.stream sock.own sock.peer) l .ret
  rwa [List.append_nil] at h

/-- `recv_all` receives as many bytes as it was asked for, whatever pieces `recv` gives, and
returns them. -/
theorem receives_recvAll {n : ℕ} {l : List (BitVec 8)} (h : l.length = n) :
    ReceivesOn sock (recvAll sock n) l l := by
  have hget : ReceivesOn sock (recvAll sock n) (l ++ []) l := Proc.Receives.getAll h .ret
  rwa [List.append_nil] at hget

/-- What `recv_all` returns is what it received. -/
theorem of_recvAll {n : ℕ} {l l' : List (BitVec 8)}
    (h : ReceivesOn sock (recvAll sock n) l l') : l = l' ∧ l.length = n := by
  obtain ⟨l₁, l₂, rfl, hlen, h⟩ := h.of_getAll
  cases h
  rw [List.append_nil]
  exact ⟨rfl, hlen⟩

/-- `send_vector` sends the length of the vector and then as many elements as the length says. -/
theorem sends_sendVector (vec : List (BitVec 32)) :
    SendsOn sock (sendVector sock vec) (vectorBytes vec) () := by
  have hsize : (BitVec.ofNat 32 vec.length).toNat = vec.length % 2 ^ 32 := BitVec.toNat_ofNat ..
  refine (sends_sendAll _).bind ?_
  show SendsOn sock (if 0 < (BitVec.ofNat 32 vec.length).toNat then _ else _) _ _
  rw [hsize]
  by_cases hpos : 0 < vec.length % 2 ^ 32
  · rw [if_pos hpos]
    exact sends_sendAll _
  · rw [if_neg hpos, cutVector, Nat.eq_zero_of_not_pos hpos]
    exact .ret

/-- `recv_vector` receives the bytes that `send_vector` sends, and returns the vector cut. -/
theorem receives_recvVector (vec : List (BitVec 32)) :
    ReceivesOn sock (recvVector sock) (vectorBytes vec) (cutVector vec) := by
  refine (receives_recvAll (length_bytesOf 4 _)).bind ?_
  -- The size that is received is the one that was sent, modulo `2 ^ 32`.
  have hsize : (ofBytes 4 (bytesOf 4 (BitVec.ofNat 32 vec.length))).toNat =
      (cutVector vec).length := by
    have h := ofBytes_bytesOf (n := 4) (BitVec.ofNat 32 vec.length) []
    rw [List.append_nil] at h
    rw [h, length_cutVector]
    exact BitVec.toNat_ofNat ..
  show ReceivesOn sock (if 0 < (ofBytes 4 _).toNat then _ else _) _ _
  rw [hsize]
  -- A vector without elements has no second part.
  by_cases hpos : 0 < (cutVector vec).length
  · rw [if_pos hpos]
    have hlen := length_flatMap_bytesOf (cutVector vec)
    have hret : ReceivesOn sock
        (.ret (wordsOf (cutVector vec).length ((cutVector vec).flatMap (bytesOf 4)))) []
        (cutVector vec) := by
      rw [wordsOf_flatMap]
      exact .ret
    -- The elements come in one call of `recv_all`.
    have hdata : ReceivesOn sock (recvAll sock ((cutVector vec).length * 4)) _ _ :=
      receives_recvAll hlen
    have h := hdata.bind (f := fun data => .ret (wordsOf (cutVector vec).length data)) hret
    rwa [List.append_nil] at h
  · rw [if_neg hpos, List.eq_nil_of_length_eq_zero (Nat.eq_zero_of_not_pos hpos)]
    exact .ret

/-- What is received as a vector is what is sent for it. -/
theorem of_recvVector {l : List (BitVec 8)} {vec : List (BitVec 32)}
    (h : ReceivesOn sock (recvVector sock) l vec) :
    vec.length < 2 ^ 32 ∧ l = vectorBytes vec := by
  obtain ⟨bytes, l₁, l₂, rfl, h₁, h₂⟩ := Proc.Receives.of_bind h
  obtain ⟨rfl, hlen⟩ := of_recvAll h₁
  -- The size is what the first four bytes say.
  have hlt : (ofBytes 4 l₁).toNat < 2 ^ 32 := (ofBytes 4 l₁).isLt
  suffices hvec : vec.length = (ofBytes 4 l₁).toNat ∧ l₂ = vec.flatMap (bytesOf 4) by
    refine ⟨by omega, ?_⟩
    have hsize : BitVec.ofNat 32 vec.length = ofBytes 4 l₁ := by
      rw [hvec.1]
      exact BitVec.ofNat_toNat ..
    rw [vectorBytes, hsize, bytesOf_ofBytes hlen, (cutVector_eq_iff vec).mpr (by omega), hvec.2]
  have h₂ : ReceivesOn sock (if 0 < (ofBytes 4 l₁).toNat then _ else _) l₂ vec := h₂
  by_cases hpos : 0 < (ofBytes 4 l₁).toNat
  · rw [if_pos hpos] at h₂
    obtain ⟨data, l₃, l₄, rfl, h₃, h₄⟩ := Proc.Receives.of_bind h₂
    obtain ⟨rfl, hdata⟩ := of_recvAll h₃
    cases h₄
    rw [List.append_nil, length_wordsOf, flatMap_wordsOf _ hdata]
    exact ⟨rfl, rfl⟩
  · rw [if_neg hpos] at h₂
    cases h₂
    exact ⟨(Nat.eq_zero_of_not_pos hpos).symm, rfl⟩

/-! ### Records -/

/-- What arrives of a record. -/
def RankInfo.cut (info : RankInfo) : RankInfo :=
  { info with
    qpns := cutVector info.qpns
    lids := cutVector info.lids
    ipcHandle := cutVector info.ipcHandle }

/-- No vector of the record has more elements than its size can say. -/
structure RankInfo.Short (info : RankInfo) : Prop where
  qpns : info.qpns.length < 2 ^ 32
  lids : info.lids.length < 2 ^ 32
  ipcHandle : info.ipcHandle.length < 2 ^ 32

/-- A record on a socket, up to its last byte. -/
def fieldBytes (info : RankInfo) : List (BitVec 8) :=
  vectorBytes info.qpns ++ (vectorBytes info.lids ++ (bytesOf 8 info.mrAddr ++
    (bytesOf 4 info.mrRkey ++ (bytesOf 8 info.gidSubnetPrefix ++
      (bytesOf 8 info.gidInterfaceId ++ vectorBytes info.ipcHandle)))))

/-- A record on a socket. -/
def rankInfoBytes (info : RankInfo) : List (BitVec 8) :=
  fieldBytes info ++ [if info.isRoce then 1 else 0]

/-- A cut record has vectors whose lengths fit. -/
theorem RankInfo.cut_short (info : RankInfo) : info.cut.Short :=
  ⟨length_cutVector_lt _, length_cutVector_lt _, length_cutVector_lt _⟩

/-- A record is not cut exactly when the lengths of its vectors fit. -/
theorem RankInfo.cut_eq_iff (info : RankInfo) : info.cut = info ↔ info.Short := by
  constructor
  · intro h
    rw [← h]
    exact info.cut_short
  · intro h
    rw [RankInfo.cut, (cutVector_eq_iff _).mpr h.qpns, (cutVector_eq_iff _).mpr h.lids,
      (cutVector_eq_iff _).mpr h.ipcHandle]

/-- A rank sends the bytes of its record, field by field. -/
theorem sends_sendRankInfo (sock : Sock) (info : RankInfo) :
    SendsOn sock (sendRankInfo sock info) (rankInfoBytes info) () := by
  simp only [rankInfoBytes, fieldBytes, List.append_assoc]
  refine (sends_sendVector info.qpns).bind ?_
  refine (sends_sendVector info.lids).bind ?_
  refine (sends_sendAll (bytesOf 8 info.mrAddr)).bind ?_
  refine (sends_sendAll (bytesOf 4 info.mrRkey)).bind ?_
  refine (sends_sendAll (bytesOf 8 info.gidSubnetPrefix)).bind ?_
  refine (sends_sendAll (bytesOf 8 info.gidInterfaceId)).bind ?_
  refine (sends_sendVector info.ipcHandle).bind ?_
  exact sends_sendAll _

/-- A rank receives the bytes of a record and has the record, cut. -/
theorem receives_recvRankInfo (sock : Sock) (info : RankInfo) :
    ReceivesOn sock (recvRankInfo sock) (rankInfoBytes info) info.cut := by
  -- Every fixed field is read back as it was sent.
  have hword : ∀ {n : ℕ} (x : BitVec (8 * n)), ofBytes n (bytesOf n x) = x := by
    intro n x
    have h := ofBytes_bytesOf x []
    rwa [List.append_nil] at h
  -- A bool travels as a byte of zero or one.
  have hflag : decide ((if info.isRoce then (1 : BitVec 8) else 0) ≠ 0) = info.isRoce := by
    cases info.isRoce with
    | false => decide
    | true => decide
  have hlast : ∀ b : BitVec 8, ReceivesOn sock (recvAll sock 1) [b] [b] :=
    fun b => receives_recvAll rfl
  -- The eight fields, in the order in which `exchange_rank_info` sends them.
  simp only [rankInfoBytes, fieldBytes, List.append_assoc]
  refine (receives_recvVector info.qpns).bind ?_
  refine (receives_recvVector info.lids).bind ?_
  refine (receives_recvAll (length_bytesOf 8 info.mrAddr)).bind ?_
  refine (receives_recvAll (length_bytesOf 4 info.mrRkey)).bind ?_
  refine (receives_recvAll (length_bytesOf 8 info.gidSubnetPrefix)).bind ?_
  refine (receives_recvAll (length_bytesOf 8 info.gidInterfaceId)).bind ?_
  refine (receives_recvVector info.ipcHandle).bind ?_
  rw [← List.append_nil [_]]
  refine (hlast _).bind ?_
  rw [hword (n := 8) info.mrAddr, hword (n := 4) info.mrRkey, hword (n := 8) info.gidSubnetPrefix,
    hword (n := 8) info.gidInterfaceId, List.headD_cons, hflag]
  exact .ret

/-- What is received as a record is what is sent for it, up to the last byte. -/
theorem of_recvRankInfo {l : List (BitVec 8)} {info : RankInfo}
    (h : ReceivesOn sock (recvRankInfo sock) l info) :
    info.Short ∧ ∃ b : BitVec 8, l = fieldBytes info ++ [b] ∧ info.isRoce = decide (b ≠ 0) := by
  -- Eight calls in a row, so the bytes fall into eight parts.
  obtain ⟨qpns, l₁, _, rfl, h₁, h⟩ := Proc.Receives.of_bind h
  obtain ⟨lids, l₂, _, rfl, h₂, h⟩ := Proc.Receives.of_bind h
  obtain ⟨mrAddr, l₃, _, rfl, h₃, h⟩ := Proc.Receives.of_bind h
  obtain ⟨mrRkey, l₄, _, rfl, h₄, h⟩ := Proc.Receives.of_bind h
  obtain ⟨gidSubnetPrefix, l₅, _, rfl, h₅, h⟩ := Proc.Receives.of_bind h
  obtain ⟨gidInterfaceId, l₆, _, rfl, h₆, h⟩ := Proc.Receives.of_bind h
  obtain ⟨ipcHandle, l₇, _, rfl, h₇, h⟩ := Proc.Receives.of_bind h
  obtain ⟨isRoce, l₈, _, rfl, h₈, h⟩ := Proc.Receives.of_bind h
  -- Each part is what its field sends. Only the last one, the bool, is not determined by what is
  -- read.
  obtain ⟨hqpns, rfl⟩ := of_recvVector h₁
  obtain ⟨hlids, rfl⟩ := of_recvVector h₂
  obtain ⟨rfl, hlen₃⟩ := of_recvAll h₃
  obtain ⟨rfl, hlen₄⟩ := of_recvAll h₄
  obtain ⟨rfl, hlen₅⟩ := of_recvAll h₅
  obtain ⟨rfl, hlen₆⟩ := of_recvAll h₆
  obtain ⟨hipc, rfl⟩ := of_recvVector h₇
  obtain ⟨rfl, hlen₈⟩ := of_recvAll h₈
  obtain ⟨b, rfl⟩ := List.length_eq_one_iff.mp hlen₈
  cases h
  refine ⟨⟨hqpns, hlids, hipc⟩, b, ?_, rfl⟩
  simp only [fieldBytes, bytesOf_ofBytes hlen₃, bytesOf_ofBytes hlen₄, bytesOf_ofBytes hlen₅,
    bytesOf_ofBytes hlen₆, List.append_assoc, List.append_nil]

end

/-- A record that was cut is cut no further. -/
@[simp] theorem RankInfo.cut_cut (info : RankInfo) : info.cut.cut = info.cut :=
  info.cut.cut_eq_iff.mpr info.cut_short

/-- The format of a record on a socket. The byte strings that are read as a record with short
vectors, and whose flag is a `bool`, are exactly those that are sent for one. What is sent for a
record is read, whatever comes after it, up to its end and as the record with its vectors cut. -/
theorem rankInfo_roundTrip (p q : ℕ) (l : List (BitVec 8)) (info : RankInfo) :
    (ReceivesOn ⟨q, p⟩ (recvRankInfo ⟨q, p⟩) l info ∧ l.getLastD 0 ≤ 1 ↔
      info.Short ∧ SendsOn ⟨p, q⟩ (sendRankInfo ⟨p, q⟩ info) l ()) ∧
    (SendsOn ⟨p, q⟩ (sendRankInfo ⟨p, q⟩ info) l () →
      ∀ l' rest rest' x, l ++ rest = l' ++ rest' →
        (ReceivesOn ⟨q, p⟩ (recvRankInfo ⟨q, p⟩) l' x ↔ l' = l ∧ x = info.cut)) := by
  have hsent := sends_sendRankInfo ⟨p, q⟩ info
  have hread : ReceivesOn ⟨q, p⟩ (recvRankInfo ⟨q, p⟩) (rankInfoBytes info) info.cut :=
    receives_recvRankInfo ⟨q, p⟩ info
  refine ⟨⟨fun ⟨h, hflag⟩ => ?_, fun ⟨hshort, h⟩ => ?_⟩, fun h l' rest rest' x heq => ?_⟩
  · obtain ⟨hshort, b, rfl, hroce⟩ := of_recvRankInfo h
    rw [List.getLastD_eq_getLast?, List.getLast?_concat, Option.getD_some] at hflag
    -- The flag is one of two bytes.
    have hb : b = if info.isRoce then 1 else 0 := by
      have hcases : ∀ b : BitVec 8, b ≤ 1 → b = 0 ∨ b = 1 := by decide
      cases hcases b hflag with
      | inl h0 =>
        subst h0
        rw [hroce]
        rfl
      | inr h1 =>
        subst h1
        rw [hroce]
        rfl
    refine ⟨hshort, ?_⟩
    rw [hb]
    exact hsent
  · obtain ⟨rfl, -⟩ := h.unique hsent
    rw [info.cut_eq_iff.mpr hshort] at hread
    refine ⟨hread, ?_⟩
    rw [rankInfoBytes, List.getLastD_eq_getLast?, List.getLast?_concat, Option.getD_some]
    cases info.isRoce with
    | false => decide
    | true => decide
  · obtain ⟨rfl, -⟩ := h.unique hsent
    constructor
    · intro h'
      obtain ⟨rfl, rfl⟩ := hread.unique h' heq
      exact ⟨rfl, rfl⟩
    · intro h'
      rw [h'.1, h'.2]
      exact hread

end EpDemo.Buffer
