import EpDemo.Kernel.Launch

/-!
# `EpDemo.Kernel.Experts`: how an expert index is split into a rank and a local expert

Both kernels compute `num_local_experts = num_experts / num_ranks` and then split expert indices
with it in four places: where `dispatch` sends a token, which entry of the receive signals it
writes for an expert, which entry and slots a receiver reads, and which expert `combine` returns
rows for. The counts are the `int` arguments of the launch, so they are integers here and the
division truncates.

The warp group of a block is the sender for one expert and, after the grid barrier, the receiver
for one pair of a source rank and a local expert, both under the number
`responsible_expert_idx`.
-/

set_option autoImplicit false

namespace EpDemo.Kernel

/-- The counts that a launch is given. -/
structure ExpertCounts where
  numExperts : ℤ
  numRanks : ℤ
  numTopk : ℤ
  deriving DecidableEq, Repr

/-- A warp group of a rank. -/
structure WarpGroup where
  rank : ℤ
  smId : ℤ
  warpGroupId : ℤ
  deriving DecidableEq, Repr

/-- `responsible_expert_idx`. -/
def WarpGroup.responsibleExpertIdx (g : WarpGroup) : ℤ := g.smId * kNumWarpGroups + g.warpGroupId

/-- The entry that a warp group of `combine` waits for. -/
def WarpGroup.combineSrc (g : WarpGroup) : ℤ × ℤ := (g.rank, g.responsibleExpertIdx)

namespace ExpertCounts

variable (n : ExpertCounts)

/-- `num_local_experts`. -/
def numLocalExperts : ℤ := n.numExperts.tdiv n.numRanks

/-- `num_sms`. -/
def numSms : ℤ := (n.numExperts + kNumWarpGroups - 1).tdiv kNumWarpGroups

/-- What `dispatch` and `combine` assert about the counts: `num_topk <= kNumMaxTopK` and
`num_experts * sizeof(int) * 2 <= NUM_WORKSPACE_BYTES` on the host, where the product is a
`size_t`, and `num_sms > 1` on the device. -/
def AssertionsPass : Prop :=
  n.numTopk ≤ kNumMaxTopK ∧ n.numExperts * 4 * 2 % 2 ^ 64 ≤ numWorkspaceBytes ∧ 1 < n.numSms

instance : Decidable n.AssertionsPass := inferInstanceAs (Decidable (_ ∧ _ ∧ _))

/-- `dst_rank` where a thread sends, `src_rank` where it receives. -/
def rankOf (e : ℤ) : ℤ := e.tdiv n.numLocalExperts

/-- `dst_expert_local_idx` where a thread sends, `local_expert_idx` where it receives. -/
def localExpertIdx (e : ℤ) : ℤ := e.tmod n.numLocalExperts

/-- `global_expert_idx` of `combine`. -/
def globalExpertIdx (rank localExpert : ℤ) : ℤ := rank * n.numLocalExperts + localExpert

/-- The warp groups that take part: those of the ranks and blocks of the launch with
`responsible_expert_idx < num_experts`. -/
def Responsible (g : WarpGroup) : Prop :=
  (0 ≤ g.rank ∧ g.rank < n.numRanks) ∧ (0 ≤ g.smId ∧ g.smId < n.numSms) ∧
    (0 ≤ g.warpGroupId ∧ g.warpGroupId < kNumWarpGroups) ∧ g.responsibleExpertIdx < n.numExperts

/-- Where `dispatch` on `rank` puts what it has for expert `e`: the destination rank, and the
number of the block of slots in the receive data, or of the entry in the receive signals. -/
def dispatchDst (rank e : ℤ) : ℤ × ℤ :=
  (n.rankOf e, n.localExpertIdx e * n.numRanks + rank)

/-- What the receiver of `dispatch` reads: the block of slots and the entry of its own rank. -/
def dispatchSrc (g : WarpGroup) : ℤ × ℤ :=
  (g.rank, n.localExpertIdx g.responsibleExpertIdx * n.numRanks + n.rankOf g.responsibleExpertIdx)

/-- The entry that a warp group of `combine` signals. -/
def combineDst (g : WarpGroup) : ℤ × ℤ :=
  (n.rankOf g.responsibleExpertIdx,
    n.globalExpertIdx g.rank (n.localExpertIdx g.responsibleExpertIdx))

end ExpertCounts

/-- The counts of a launch. -/
def Launch.counts (l : Launch) : ExpertCounts where
  numExperts := l.numExperts
  numRanks := l.numRanks
  numTopk := l.numTopk

end EpDemo.Kernel
