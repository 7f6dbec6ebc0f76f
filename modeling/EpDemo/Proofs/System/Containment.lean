import EpDemo.Proofs.Buffer.Layout
import EpDemo.Proofs.System.Outputs

/-!
# `EpDemo.Proofs.System.Containment`: every access of the kernels is inside its region

The regions of a `BufferPair` have room for `num_experts * num_max_dispatch_tokens_per_rank`
rows of `2 * sizeof(int4) + hidden * sizeof(nv_bfloat16)` bytes. A message of `dispatch` is not
larger than that (`numBytesPerMsg_le`), nor is a slot of `combine`, and both kernels number their
rows below that number. So what the kernels access is inside the region that it is addressed from,
and different messages are at different bytes (`layout_contains`).
-/

set_option autoImplicit false

namespace EpDemo.System.Config

open EpDemo.Buffer EpDemo.Kernel EpDemo.Library

variable {A : Type} {c : Config A}

/-- The buffers are those of the `BufferPair` for the sizes of the system. -/
structure LaidOut (c : Config A) : Prop where
  numExperts_pos : 1 ≤ c.numExperts
  numMaxDispatchTokensPerRank_pos : 1 ≤ c.numMaxDispatchTokensPerRank
  dvd : c.numRanks ∣ c.numExperts
  supported : c.shape.Supported
  noOverflow : NoOverflow c.numMaxDispatchTokensPerRank c.shape.hidden c.numExperts
  buffers : ∀ b < 2, c.fabric.buffers b = (BufferPair.new 0 c.numMaxDispatchTokensPerRank
    c.shape.hidden c.numRanks c.numExperts).buffers b

/-- The bytes of a region of buffer `b`. -/
def region (c : Config A) (b : Fin 2) (k : Region) : Set ℤ :=
  regionBytes (BufferPair.new 0 c.numMaxDispatchTokensPerRank c.shape.hidden c.numRanks
    c.numExperts) c.numMaxDispatchTokensPerRank c.shape.hidden c.numExperts b k

/-- What `dispatch` accesses in buffer `b` on rank `r`: the staging rows of its tokens, the
message slots, and the entries that signals come from and go to. -/
structure DispatchContained (c : Config A) (b : Fin 2) (r : ℕ) : Prop where
  staging : ∀ numTokens ≤ c.numMaxDispatchTokensPerRank, ∀ t < numTokens,
    bytes (c.fabric.sendData b r (t * c.shape.numBytesPerMsg)).offset c.shape.numBytesPerMsg ⊆
      c.region b .sendData
  message : ∀ le < c.numLocalExperts, ∀ s < c.numRanks, ∀ slot < c.numMaxDispatchTokensPerRank,
    bytes (c.fabric.recvData b r (c.messageOffset le s slot)).offset c.shape.numBytesPerMsg ⊆
      c.region b .recvData
  signal : ∀ le < c.numLocalExperts, ∀ s < c.numRanks,
    bytes (c.fabric.sendSignal b r (le * c.numRanks + s)).offset 4 ⊆ c.region b .sendSignal ∧
      bytes (c.fabric.recvSignal b r (le * c.numRanks + s)).offset 4 ⊆ c.region b .recvSignal
  disjoint : ∀ le < c.numLocalExperts, ∀ s < c.numRanks, ∀ slot < c.numMaxDispatchTokensPerRank,
    ∀ le' < c.numLocalExperts, ∀ s' < c.numRanks, ∀ slot' < c.numMaxDispatchTokensPerRank,
    (le, s, slot) ≠ (le', s', slot') →
    Disjoint
      (bytes (c.fabric.recvData b r (c.messageOffset le s slot)).offset c.shape.numBytesPerMsg)
      (bytes (c.fabric.recvData b r (c.messageOffset le' s' slot')).offset c.shape.numBytesPerMsg)

/-- What `combine` accesses in buffer `b` on rank `r`: the staging rows of the packed rows, the
slots of experts and tokens, and the entries that signals come from and go to. -/
structure CombineContained (c : Config A) (b : Fin 2) (r : ℕ) : Prop where
  staging : ∀ le < c.numLocalExperts, ∀ row : ℕ, row < c.numRanks * c.numMaxDispatchTokensPerRank →
    bytes (c.fabric.sendData b r (c.packedRow le row * c.shape.numBytesPerSlot)).offset
      c.shape.numBytesPerSlot ⊆ c.region b .sendData
  slot : ∀ e < c.numExperts, ∀ t : ℕ, t < c.numMaxDispatchTokensPerRank →
    bytes (c.fabric.recvData b r (c.slotOffset e t)).offset c.shape.numBytesPerSlot ⊆
      c.region b .recvData
  signal : ∀ e < c.numExperts,
    bytes (c.fabric.sendSignal b r e).offset 4 ⊆ c.region b .sendSignal ∧
      bytes (c.fabric.recvSignal b r e).offset 4 ⊆ c.region b .recvSignal
  disjoint : ∀ e < c.numExperts, ∀ t : ℕ, t < c.numMaxDispatchTokensPerRank →
    ∀ e' < c.numExperts, ∀ t' : ℕ, t' < c.numMaxDispatchTokensPerRank → (e, t) ≠ (e', t') →
    Disjoint (bytes (c.fabric.recvData b r (c.slotOffset e t)).offset c.shape.numBytesPerSlot)
      (bytes (c.fabric.recvData b r (c.slotOffset e' t')).offset c.shape.numBytesPerSlot)

/-! ### Sizes -/

/-- A message of `dispatch` fits a row, in both formats. -/
theorem numBytesPerMsg_le (p : Shape) : p.numBytesPerMsg ≤ 2 * 16 + p.hidden * 2 := by
  have hscales : p.numScales * 4 ≤ p.hidden := by
    unfold Shape.numScales
    omega
  unfold Shape.numBytesPerMsg
  cases p.useFp8 with
  | true => simp only [if_true]; omega
  | false => simp only [Bool.false_eq_true, if_false]; omega

/-- So does a slot of `combine`. -/
theorem numBytesPerSlot_le (p : Shape) : p.numBytesPerSlot ≤ 2 * 16 + p.hidden * 2 := by
  unfold Shape.numBytesPerSlot
  omega

namespace LaidOut

/-- The experts are the local experts of all ranks. -/
theorem numExperts_eq (h : c.LaidOut) : c.numLocalExperts * c.numRanks = c.numExperts :=
  Nat.div_mul_cancel h.dvd

/-- Where a region is. -/
theorem region_eq (h : c.LaidOut) (b : Fin 2) (k : Region) :
    c.region b k = bytes (k.start (c.fabric.buffers b))
      (k.size c.numMaxDispatchTokensPerRank c.shape.hidden c.numExperts) := by
  rw [region, regionBytes, h.buffers b b.isLt]

/-- A row of a data region. -/
theorem row_subset_data (h : c.LaidOut) (b : Fin 2) {k : Region}
    (hk : k = .sendData ∨ k = .recvData)
    {i : ℤ} {n : ℕ} (hlo : 0 ≤ i) (hhi : i < (c.numExperts * c.numMaxDispatchTokensPerRank : ℕ))
    (hn : n ≤ 2 * 16 + c.shape.hidden * 2) :
    bytes (k.start (c.fabric.buffers b) + i * n) n ⊆ c.region b k := by
  have hsize : k.size c.numMaxDispatchTokensPerRank c.shape.hidden c.numExperts =
      c.numExperts * c.numMaxDispatchTokensPerRank * (2 * 16 + c.shape.hidden * 2) := by
    cases hk with
    | inl hk => rw [hk, size_eq h.noOverflow]
    | inr hk => rw [hk, size_eq h.noOverflow]
  rw [h.region_eq, hsize]
  exact row_subset hlo hhi (Nat.mul_le_mul_left _ hn)

/-- An entry of a signal region. -/
theorem entry_subset_signal (h : c.LaidOut) (b : Fin 2) {k : Region}
    (hk : k = .sendSignal ∨ k = .recvSignal) {i : ℕ} (hi : i < c.numExperts) :
    bytes (k.start (c.fabric.buffers b) + 4 * i) 4 ⊆ c.region b k := by
  have hsize : k.size c.numMaxDispatchTokensPerRank c.shape.hidden c.numExperts =
      c.numExperts * 4 := by
    cases hk with
    | inl hk => rw [hk, size_eq h.noOverflow]
    | inr hk => rw [hk, size_eq h.noOverflow]
  rw [h.region_eq, hsize, show (4 * i : ℤ) = (i : ℤ) * (4 : ℕ) from Int.mul_comm ..]
  exact row_subset (Int.natCast_nonneg i) (by exact_mod_cast hi) le_rfl

/-! ### Addresses -/

/-- Where an entry of the send signals lies in the memory. -/
theorem offset_sendSignal (b r i : ℕ) : (c.fabric.sendSignal b r i).offset =
    Region.sendSignal.start (c.fabric.buffers b) + 4 * i := Int.zero_add _

/-- Where an entry of the receive signals lies in the memory. -/
theorem offset_recvSignal (b r i : ℕ) : (c.fabric.recvSignal b r i).offset =
    Region.recvSignal.start (c.fabric.buffers b) + 4 * i := Int.zero_add _

/-- Where the send data lies in the memory. -/
theorem offset_sendData (b r : ℕ) (x : ℤ) : (c.fabric.sendData b r x).offset =
    Region.sendData.start (c.fabric.buffers b) + x := Int.zero_add _

/-- Where the receive data lies in the memory. -/
theorem offset_recvData (b r : ℕ) (x : ℤ) : (c.fabric.recvData b r x).offset =
    Region.recvData.start (c.fabric.buffers b) + x := Int.zero_add _

/-- The number of a message slot, of which the local expert, the source and the slot are the
digits. -/
theorem message_lt (h : c.LaidOut) {le s slot : ℕ} (hle : le < c.numLocalExperts)
    (hs : s < c.numRanks) (hslot : slot < c.numMaxDispatchTokensPerRank) :
    ((le : ℤ) * c.numRanks + s) * c.numMaxDispatchTokensPerRank + slot <
      (c.numExperts * c.numMaxDispatchTokensPerRank : ℕ) := by
  refine digits_lt ?_ (by omega)
  rw [← h.numExperts_eq]
  exact digits_lt (by omega) (by omega)

/-! ### The kernels -/

/-- Every access of `dispatch` stays in its region. -/
theorem dispatch_contained (h : c.LaidOut) (b : Fin 2) (r : ℕ) : c.DispatchContained b r where
  staging numTokens hmax t ht := by
    have hrows := Nat.le_mul_of_pos_left c.numMaxDispatchTokensPerRank h.numExperts_pos
    rw [offset_sendData]
    exact h.row_subset_data b (.inl rfl) (Int.natCast_nonneg t) (by omega) (numBytesPerMsg_le _)
  message le hle s hs slot hslot := by
    rw [offset_recvData, messageOffset_eq]
    exact h.row_subset_data b (.inr rfl) (by positivity) (h.message_lt hle hs hslot)
      (numBytesPerMsg_le _)
  signal le hle s hs := by
    have hentry : le * c.numRanks + s < c.numExperts := by
      have hlt := digits_lt (x := le) (a := s) (n := c.numRanks) (k := c.numLocalExperts)
        (by omega) (by omega)
      rw [h.numExperts_eq] at hlt
      exact_mod_cast hlt
    rw [offset_sendSignal, offset_recvSignal]
    exact ⟨h.entry_subset_signal b (.inl rfl) hentry, h.entry_subset_signal b (.inr rfl) hentry⟩
  disjoint le hle s hs slot hslot le' hle' s' hs' slot' hslot' hne := by
    rw [offset_recvData, offset_recvData, messageOffset_eq, messageOffset_eq]
    refine row_disjoint fun heq => hne ?_
    -- Equal numbers have equal digits.
    obtain ⟨hblock, hsl⟩ := digits_inj (by omega) (by omega) (by omega) (by omega) heq
    obtain ⟨hexpert, hsource⟩ := digits_inj (by omega) (by omega) (by omega) (by omega) hblock
    simp only [Prod.mk.injEq]
    exact ⟨by exact_mod_cast hexpert, by exact_mod_cast hsource, by exact_mod_cast hsl⟩

/-- Every access of `combine` stays in its region. -/
theorem combine_contained (h : c.LaidOut) (b : Fin 2) (r : ℕ) : c.CombineContained b r where
  staging le hle row hrow := by
    rw [offset_sendData, packedRow_eq]
    refine h.row_subset_data b (.inl rfl) (by positivity) ?_ (numBytesPerSlot_le _)
    rw [← h.numExperts_eq, Nat.mul_assoc]
    exact digits_lt (by omega) (by exact_mod_cast hrow)
  slot e he t ht := by
    rw [offset_recvData]
    exact h.row_subset_data b (.inr rfl) (by positivity) (digits_lt (by omega) (by omega))
      (numBytesPerSlot_le _)
  signal e he := by
    rw [offset_sendSignal, offset_recvSignal]
    exact ⟨h.entry_subset_signal b (.inl rfl) he, h.entry_subset_signal b (.inr rfl) he⟩
  disjoint e he t ht e' he' t' ht' hne := by
    rw [offset_recvData, offset_recvData]
    refine row_disjoint fun heq => hne ?_
    obtain ⟨hexpert, htoken⟩ := digits_inj (by omega) (by omega) (by omega) (by omega) heq
    simp only [Prod.mk.injEq]
    exact ⟨by exact_mod_cast hexpert, by exact_mod_cast htoken⟩

end LaidOut

/-- The regions tile the memory of the buffer, which has the size of the hint, and contain every
access of both kernels. -/
theorem layout_contains (c : Config A) (h : c.LaidOut) :
    Tiles 0 c.numMaxDispatchTokensPerRank c.shape.hidden c.numRanks c.numExperts ∧
      ∀ b r, c.DispatchContained b r ∧ c.CombineContained b r :=
  ⟨tiles_new h.noOverflow 0, fun b r => ⟨h.dispatch_contained b r, h.combine_contained b r⟩⟩

/-- `twoRanks` with the buffers of its `BufferPair`. -/
def twoRanksLaidOut (useFp8 : Bool) : Config ℕ :=
  { twoRanks (some 1) (fun _ => 0) (fun _ => 1) with
    shape := { hidden := 2048, useFp8 := useFp8 }
    fabric :=
      { nvlinkAvailable := fun _ _ => false
        ipcPeerPtrs := fun _ d => Fabric.mxaBuffer d
        raddrArray := fun _ d => Fabric.mxaBuffer d
        buffers := (BufferPair.new 0 1 2048 2 10).buffers } }

/-- The two ranks with FP8, on the two buffers of a `BufferPair`. -/
theorem layout_contains_twoRanks :
    let c := twoRanksLaidOut true
    Tiles 0 1 2048 2 10 ∧ ∀ b r, c.DispatchContained b r ∧ c.CombineContained b r :=
  layout_contains (twoRanksLaidOut true)
    { numExperts_pos := by decide
      numMaxDispatchTokensPerRank_pos := by decide
      dvd := by decide
      supported := by decide
      noOverflow := ⟨by decide, by decide⟩
      buffers := fun _ _ => rfl }

end EpDemo.System.Config
