import EpDemo.Proofs.Kernel.Experts
import EpDemo.Proofs.System.Messages

/-!
# `EpDemo.Proofs.System.Cells`: addresses at the destination, and who signals which entry

With `ipc_peer_ptrs` and `raddr_array` denoting the bases of the buffers, every path takes a
pointer to the same offset at the destination (`target_add`).

The two kernels use the entries of the receive signals differently. In both, an entry is the signal
of one group of one rank and is waited for by one group of the owner: `sendCell` and the pair
`cellSender`, `cellExpert` are inverse, and so are `waitCell` and `waiter`. The entries are those of
the kernels' own index arithmetic on the counts of the launch (`dispatchDst_counts`,
`dispatchSrc_counts`, `combineDst_counts`).
-/

set_option autoImplicit false

namespace EpDemo.Kernel

/-! ### Pointers -/

/-- A pointer that goes forth and back is the same. -/
@[simp] theorem Ptr.add_sub (p : Ptr) (n : ℤ) : (p.add n).sub p = n := by
  simp [Ptr.add, Ptr.sub]

namespace Fabric

variable {f : Fabric}

/-- Every path keeps the offset and goes to the destination. -/
theorem target_add (hmap : f.Mapped) (r d : ℕ) (n : ℤ) :
    f.target r d ((mxaBuffer r).add n) = (mxaBuffer d).add n := by
  unfold target
  cases hpath : f.path r d with
  | «local» =>
    have hdr : d = r := by
      by_contra hne
      rw [path, if_neg hne] at hpath
      split at hpath <;> cases hpath
    rw [hdr]
  | nvlink => simp only [(hmap r d).1, Ptr.add_sub]
  | rdma => simp only [(hmap r d).2, Ptr.add_sub]

/-- The entry of a peer that a write to the own receive signals goes to. -/
theorem target_recvSignal (hmap : f.Mapped) (buf r d i : ℕ) :
    f.target r d (f.recvSignal buf r i) = f.recvSignal buf d i := target_add hmap ..

/-- The bytes of a peer that a write to the own receive data goes to. -/
theorem target_recvData (hmap : f.Mapped) (buf r d : ℕ) (n : ℤ) :
    f.target r d (f.recvData buf r n) = f.recvData buf d n := target_add hmap ..

/-- Different entries are at different addresses. -/
theorem recvSignal_inj {buf r r' i i' : ℕ} :
    f.recvSignal buf r i = f.recvSignal buf r' i' ↔ r = r' ∧ i = i' := by
  simp only [recvSignal, mxaBuffer, Ptr.add, Ptr.mk.injEq]
  omega

/-- Addresses in the receive data. -/
theorem recvData_add_inj {buf r s : ℕ} {x y a b : ℤ} :
    (f.recvData buf r x).add a = (f.recvData buf s y).add b ↔ r = s ∧ x + a = y + b := by
  simp only [recvData, mxaBuffer, Ptr.add, Ptr.mk.injEq]
  omega

end Fabric

end EpDemo.Kernel

namespace EpDemo.System.Config

open EpDemo.Kernel EpDemo.Library

variable {A : Type} (c : Config A)

/-! ### Entries of the receive signals -/

/-- The rank that signals an entry. -/
def cellSender (m i : ℕ) : ℕ :=
  match (c.calls m).kind with
  | .dispatch => i % c.numRanks
  | .combine => i / c.numLocalExperts

/-- The group of that rank that signals entry `i` of rank `d`. -/
def cellExpert (m d i : ℕ) : ℕ :=
  match (c.calls m).kind with
  | .dispatch => d * c.numLocalExperts + i / c.numRanks
  | .combine => d * c.numLocalExperts + i % c.numLocalExperts

/-- The group that waits for an entry. -/
def waiter (m i : ℕ) : ℕ :=
  match (c.calls m).kind with
  | .dispatch => i % c.numRanks * c.numLocalExperts + i / c.numRanks
  | .combine => i

section

variable {c}

/-- A quotient and a remainder below the divisor. -/
theorem mul_add_div_mod {a b n : ℕ} (hb : b < n) : (a * n + b) / n = a ∧ (a * n + b) % n = b := by
  have hpos : 0 < n := (Nat.zero_le _).trans_lt hb
  rw [Nat.mul_add_mod', Nat.mod_eq_of_lt hb, Nat.mul_comm, Nat.mul_add_div hpos,
    Nat.div_eq_of_lt hb]
  exact ⟨rfl, rfl⟩

/-- An entry of `dispatch` belongs to a local expert. -/
theorem Sound.div_numRanks_lt (hv : c.Sound) {i : ℕ} (hi : i < c.numExperts) :
    i / c.numRanks < c.numLocalExperts := by
  rw [Nat.div_lt_iff_lt_mul hv.numRanks_pos, Nat.mul_comm, hv.numExperts_eq]
  exact hi

/-- The entry of a local expert and a rank. -/
theorem Sound.cell_lt (hv : c.Sound) {le r : ℕ} (hle : le < c.numLocalExperts)
    (hr : r < c.numRanks) : le * c.numRanks + r < c.numExperts := by
  rw [← hv.numExperts_eq, Nat.mul_comm c.numRanks]
  have := Nat.mul_le_mul_right c.numRanks (Nat.succ_le_of_lt hle)
  rw [Nat.succ_mul] at this
  omega

/-- An entry belongs to a rank. -/
theorem cellSender_lt (hv : c.Sound) {m i : ℕ} (hi : i < c.numExperts) :
    c.cellSender m i < c.numRanks := by
  unfold cellSender
  cases (c.calls m).kind with
  | dispatch => exact Nat.mod_lt _ hv.numRanks_pos
  | combine => exact hv.div_lt hi

/-- A group signals one of the entries that there are. -/
theorem sendCell_lt (hv : c.Sound) {m r e : ℕ} (hr : r < c.numRanks) :
    c.sendCell m r e < c.numExperts := by
  unfold sendCell
  cases (c.calls m).kind with
  | dispatch => exact hv.cell_lt (hv.mod_lt e) hr
  | combine => exact hv.expert_lt hr (hv.mod_lt e)

/-- A group waits for one of the entries that there are. -/
theorem waitCell_lt (hv : c.Sound) {m e : ℕ} (he : e < c.numExperts) :
    c.waitCell m e < c.numExperts := by
  unfold waitCell
  cases (c.calls m).kind with
  | dispatch => exact hv.cell_lt (hv.mod_lt e) (hv.div_lt he)
  | combine => exact he

/-- Some group waits for each entry. -/
theorem waiter_lt (hv : c.Sound) {m i : ℕ} (hi : i < c.numExperts) :
    c.waiter m i < c.numExperts := by
  unfold waiter
  cases (c.calls m).kind with
  | dispatch => exact hv.expert_lt (Nat.mod_lt _ hv.numRanks_pos) (hv.div_numRanks_lt hi)
  | combine => exact hi

/-- The signal of a group goes to the entry that it signals. -/
theorem cell_of_sendCell (hv : c.Sound) {m r e : ℕ} (hr : r < c.numRanks) :
    c.cellSender m (c.sendCell m r e) = r ∧
      c.cellExpert m (e / c.numLocalExperts) (c.sendCell m r e) = e := by
  have hmod := hv.mod_lt e
  unfold cellSender cellExpert sendCell
  cases (c.calls m).kind with
  | dispatch =>
    simp only [mul_add_div_mod hr]
    exact ⟨trivial, Nat.div_add_mod' ..⟩
  | combine =>
    simp only [mul_add_div_mod hmod]
    exact ⟨trivial, Nat.div_add_mod' ..⟩

/-- The entry that a group signals is the one its signal goes to. -/
theorem sendCell_of_cell (hv : c.Sound) {m d i : ℕ} (hi : i < c.numExperts) :
    c.cellExpert m d i / c.numLocalExperts = d ∧
      c.sendCell m (c.cellSender m i) (c.cellExpert m d i) = i := by
  have hmod := hv.mod_lt i
  have hdiv := hv.div_numRanks_lt hi
  unfold cellSender cellExpert sendCell
  cases (c.calls m).kind with
  | dispatch =>
    simp only [mul_add_div_mod hdiv]
    exact ⟨trivial, Nat.div_add_mod' ..⟩
  | combine =>
    simp only [mul_add_div_mod hmod]
    exact ⟨trivial, Nat.div_add_mod' ..⟩

/-- A signal of rank `r` and group `e` goes to one entry of one rank, and every entry has its
sender and group. -/
theorem cell_eq_iff (hv : c.Sound) {m d i r e : ℕ} (hi : i < c.numExperts) (hr : r < c.numRanks) :
    c.cellSender m i = r ∧ c.cellExpert m d i = e ↔
      d = e / c.numLocalExperts ∧ i = c.sendCell m r e := by
  constructor
  · rintro ⟨rfl, rfl⟩
    obtain ⟨hd, hcell⟩ := sendCell_of_cell hv (m := m) (d := d) hi
    exact ⟨hd.symm, hcell.symm⟩
  · rintro ⟨rfl, rfl⟩
    exact cell_of_sendCell hv hr

/-- The group that waits for the entry of a group is this group. -/
theorem waiter_waitCell (hv : c.Sound) {m e : ℕ} (he : e < c.numExperts) :
    c.waiter m (c.waitCell m e) = e := by
  unfold waiter waitCell
  cases (c.calls m).kind with
  | dispatch =>
    simp only [mul_add_div_mod (hv.div_lt he)]
    exact Nat.div_add_mod' ..
  | combine => rfl

/-- The entry of the group that waits for an entry is this entry. -/
theorem waitCell_waiter (hv : c.Sound) {m i : ℕ} (hi : i < c.numExperts) :
    c.waitCell m (c.waiter m i) = i := by
  unfold waiter waitCell
  cases (c.calls m).kind with
  | dispatch =>
    simp only [mul_add_div_mod (hv.div_numRanks_lt hi)]
    exact Nat.div_add_mod' ..
  | combine => rfl

/-- Groups and the entries that they wait for are in one-to-one correspondence. -/
theorem waiter_eq_iff (hv : c.Sound) {m i e : ℕ} (hi : i < c.numExperts) (he : e < c.numExperts) :
    c.waiter m i = e ↔ i = c.waitCell m e := by
  constructor
  · rintro rfl
    exact (waitCell_waiter hv hi).symm
  · rintro rfl
    exact waiter_waitCell hv he

/-- The signal word at the destination. -/
theorem signalDst_eq (hv : c.Sound) (m r e : ℕ) :
    c.signalDst m r e =
      c.fabric.recvSignal (c.calls m).buf (e / c.numLocalExperts) (c.sendCell m r e) :=
  Fabric.target_recvSignal hv.mapped ..

/-- The address of a message at the destination. -/
theorem dataDst_eq (hv : c.Sound) (w : World A) (m r : ℕ) (key : ℕ × ℕ) :
    c.dataDst w m r key =
      c.fabric.recvData (c.calls m).buf (c.dataExpert m r key / c.numLocalExperts)
        (c.dataOffset w m r key) :=
  Fabric.target_recvData hv.mapped ..

end

/-! ### The index arithmetic of the kernels -/

section

variable (c : Config A) {m r e : ℕ} {g : WarpGroup}

/-- Where a group of `dispatch` signals. -/
theorem dispatchDst_counts (hkind : (c.calls m).kind = .dispatch) :
    (c.launch r m).counts.dispatchDst r e =
      (((e / c.numLocalExperts : ℕ) : ℤ), ((c.sendCell m r e : ℕ) : ℤ)) := by
  simp only [ExpertCounts.dispatchDst, Launch.rankOf_counts, Launch.localExpertIdx_counts, sendCell,
    hkind]
  rfl

/-- Where a group of `dispatch` waits. -/
theorem dispatchSrc_counts (hkind : (c.calls m).kind = .dispatch) (hrank : g.rank = r)
    (hexpert : g.responsibleExpertIdx = e) :
    (c.launch r m).counts.dispatchSrc g = ((r : ℤ), ((c.waitCell m e : ℕ) : ℤ)) := by
  simp only [ExpertCounts.dispatchSrc, hrank, hexpert, Launch.rankOf_counts,
    Launch.localExpertIdx_counts, waitCell, hkind]
  rfl

/-- Where a group of `combine` signals. -/
theorem combineDst_counts (hkind : (c.calls m).kind = .combine) (hrank : g.rank = r)
    (hexpert : g.responsibleExpertIdx = e) :
    (c.launch r m).counts.combineDst g =
      (((e / c.numLocalExperts : ℕ) : ℤ), ((c.sendCell m r e : ℕ) : ℤ)) := by
  simp only [ExpertCounts.combineDst, ExpertCounts.globalExpertIdx, hrank, hexpert,
    Launch.rankOf_counts, Launch.localExpertIdx_counts, Launch.numLocalExperts_counts, sendCell,
    hkind]
  rfl

/-- Where it waits. -/
theorem combineSrc_eq (hkind : (c.calls m).kind = .combine) (hrank : g.rank = r)
    (hexpert : g.responsibleExpertIdx = e) :
    g.combineSrc = ((r : ℤ), ((c.waitCell m e : ℕ) : ℤ)) := by
  simp only [WarpGroup.combineSrc, hrank, hexpert, waitCell, hkind]

end

end EpDemo.System.Config
