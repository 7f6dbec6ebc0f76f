import EpDemo.Kernel.Experts
import Mathlib.Data.Int.ConditionallyCompleteOrder
import Mathlib.Data.Set.Function
import Mathlib.Order.Interval.Set.Defs
import Mathlib.Tactic.Linarith

/-!
# `EpDemo.Proofs.Kernel.Experts`: when the split of expert indices is consistent

The kernels assert bounds on the number of experts and nothing about how it divides. With
`num_local_experts` rounded down, the experts past `num_ranks * num_local_experts` belong to a
rank that does not exist (`ten_experts_on_three_ranks`).

`Consistent` collects what the four places rely on. It holds of exactly the counts in which the
number of ranks divides the number of experts (`consistent_iff_dvd`). The two directions meet in
one equation, `numExperts = numRanks * numLocalExperts`: the last expert has a rank only if the
product reaches it, and under the equation an expert is a number with two digits, the rank and the
local expert, which every place reads in the same way (`digits`).
-/

set_option autoImplicit false

namespace EpDemo.Kernel

namespace ExpertCounts

variable (n : ExpertCounts)

/-- The index is that of an expert. -/
def IsExpert (e : ℤ) : Prop := 0 ≤ e ∧ e < n.numExperts

/-- The index is that of a rank. -/
def IsRank (r : ℤ) : Prop := 0 ≤ r ∧ r < n.numRanks

/-- What the places that split an expert index rely on. -/
structure Consistent : Prop where
  /-- Every expert belongs to a rank. -/
  rank_lt : ∀ e, n.IsExpert e → n.IsRank (n.rankOf e)
  /-- The split is a bijection onto pairs of a rank and a local expert. -/
  bijOn : Set.BijOn (fun e => (n.rankOf e, n.localExpertIdx e)) (Set.Ico 0 n.numExperts)
    (Set.Ico 0 n.numRanks ×ˢ Set.Ico 0 n.numLocalExperts)
  /-- The expert that `combine` computes from a rank and a local expert is split into these. -/
  global : ∀ r j, n.IsRank r → 0 ≤ j → j < n.numLocalExperts →
    n.IsExpert (n.globalExpertIdx r j) ∧ n.rankOf (n.globalExpertIdx r j) = r ∧
      n.localExpertIdx (n.globalExpertIdx r j) = j
  /-- The slots that a receiver of `dispatch` reads are written by its source rank, for its local
  expert, and by no one else. -/
  slots : ∀ g, n.Responsible g → ∀ r e, n.IsRank r → n.IsExpert e →
    (n.dispatchDst r e = n.dispatchSrc g ↔
      r = n.rankOf g.responsibleExpertIdx ∧
        e = n.globalExpertIdx g.rank (n.localExpertIdx g.responsibleExpertIdx))
  /-- The entry that a warp group of `dispatch` waits for is signalled by exactly one. -/
  dispatch_signal : ∀ g, n.Responsible g →
    ∃! g', n.Responsible g' ∧ n.dispatchDst g'.rank g'.responsibleExpertIdx = n.dispatchSrc g
  /-- The entry that a warp group of `combine` waits for is signalled by exactly one. -/
  combine_signal : ∀ g, n.Responsible g →
    ∃! g', n.Responsible g' ∧ n.combineDst g' = g.combineSrc

/-! ### Two digits -/

/-- A number below `R * L` has a quotient below `R` and a remainder below `L`. -/
theorem ediv_emod_lt {R L e : ℤ} (hL : 0 < L) (h0 : 0 ≤ e) (he : e < R * L) :
    (0 ≤ e / L ∧ e / L < R) ∧ 0 ≤ e % L ∧ e % L < L :=
  ⟨⟨Int.ediv_nonneg h0 hL.le, Int.ediv_lt_of_lt_mul hL he⟩, Int.emod_nonneg e hL.ne',
    Int.emod_lt_of_pos e hL⟩

/-- Two digits give a number with these digits. -/
theorem digits {L r j : ℤ} (h0 : 0 ≤ j) (hj : j < L) :
    (r * L + j) / L = r ∧ (r * L + j) % L = j := by
  have hL : L ≠ 0 := by omega
  constructor
  · rw [add_comm, Int.add_mul_ediv_right _ _ hL, Int.ediv_eq_zero_of_lt h0 hj, zero_add]
  · rw [add_comm, Int.add_mul_emod_self_right]
    exact Int.emod_eq_of_lt h0 hj

/-- Equal numbers have equal digits. -/
theorem digits_inj {L r r' j j' : ℤ} (h0 : 0 ≤ j) (hj : j < L) (h0' : 0 ≤ j') (hj' : j' < L) :
    r * L + j = r' * L + j' ↔ r = r' ∧ j = j' := by
  constructor
  · intro h
    have hl := digits (r := r) h0 hj
    rw [h, (digits h0' hj').1, (digits h0' hj').2] at hl
    exact ⟨hl.1.symm, hl.2.symm⟩
  · rintro ⟨rfl, rfl⟩
    rfl

/-! ### Warp groups -/

section

variable {n}

/-- A warp group with an expert belongs to a rank. -/
theorem Responsible.isRank {g : WarpGroup} (h : n.Responsible g) : n.IsRank g.rank := h.1

/-- A warp group with an expert has a number of an expert. -/
theorem Responsible.isExpert {g : WarpGroup} (h : n.Responsible g) :
    n.IsExpert g.responsibleExpertIdx := by
  obtain ⟨-, ⟨hs, -⟩, ⟨hw, -⟩, he⟩ := h
  refine ⟨?_, he⟩
  unfold WarpGroup.responsibleExpertIdx kNumWarpGroups
  omega

/-- On every rank, each expert has exactly one warp group. -/
theorem exists_responsible {r e : ℤ} (hr : n.IsRank r) (he : n.IsExpert e) :
    ∃ g, n.Responsible g ∧ g.rank = r ∧ g.responsibleExpertIdx = e := by
  obtain ⟨h0, hlt⟩ := he
  refine ⟨⟨r, e / 8, e % 8⟩, ⟨hr, ?_, ?_, ?_⟩, rfl, ?_⟩
  · have hsms : n.numSms = (n.numExperts + 7) / 8 := by
      unfold numSms kNumWarpGroups
      rw [Int.tdiv_eq_ediv_of_nonneg (by omega)]
      congr 1
      omega
    rw [hsms]
    simp only
    omega
  · simp only [kNumWarpGroups]
    omega
  · simp only [WarpGroup.responsibleExpertIdx, kNumWarpGroups]
    omega
  · simp only [WarpGroup.responsibleExpertIdx, kNumWarpGroups]
    omega

/-- A warp group is determined by its rank and its expert. -/
theorem Responsible.ext {g g' : WarpGroup} (h : n.Responsible g) (h' : n.Responsible g')
    (hr : g.rank = g'.rank) (he : g.responsibleExpertIdx = g'.responsibleExpertIdx) : g = g' := by
  obtain ⟨-, -, ⟨hw, hw8⟩, -⟩ := h
  obtain ⟨-, -, ⟨hw', hw8'⟩, -⟩ := h'
  obtain ⟨r, s, w⟩ := g
  obtain ⟨r', s', w'⟩ := g'
  simp only [WarpGroup.responsibleExpertIdx, kNumWarpGroups] at *
  simp only [WarpGroup.mk.injEq]
  omega

/-- A pair of a rank and an expert that is the only one of its kind is that of exactly one warp
group. -/
theorem existsUnique_responsible {P : ℤ → ℤ → Prop} {r e : ℤ} (hr : n.IsRank r)
    (he : n.IsExpert e) (hP : ∀ r' e', n.IsRank r' → n.IsExpert e' → (P r' e' ↔ r' = r ∧ e' = e)) :
    ∃! g, n.Responsible g ∧ P g.rank g.responsibleExpertIdx := by
  obtain ⟨g, hg, hgr, hge⟩ := exists_responsible hr he
  refine ⟨g, ⟨hg, (hP _ _ hg.isRank hg.isExpert).mpr ⟨hgr, hge⟩⟩, fun g' ⟨hg', hP'⟩ => ?_⟩
  obtain ⟨hr', he'⟩ := (hP _ _ hg'.isRank hg'.isExpert).mp hP'
  exact hg'.ext hg (hr'.trans hgr.symm) (he'.trans hge.symm)

end

/-! ### Counts that divide -/

section

variable {n}

/-- Where the number of ranks divides the number of experts, the split is consistent. -/
theorem consistent_of_dvd (hE : 0 < n.numExperts) (hR : 0 < n.numRanks)
    (hdvd : n.numRanks ∣ n.numExperts) : n.Consistent := by
  have hprod : n.numExperts = n.numRanks * n.numLocalExperts := by
    rw [numLocalExperts, Int.tdiv_eq_ediv_of_nonneg hE.le, Int.mul_ediv_cancel' hdvd]
  have hL : 0 < n.numLocalExperts := by
    by_contra hle
    have := mul_nonpos_of_nonneg_of_nonpos hR.le (not_lt.mp hle)
    omega
  -- On experts, the truncating operations are quotient and remainder.
  have hrank : ∀ e, n.IsExpert e → n.rankOf e = e / n.numLocalExperts := fun e he =>
    Int.tdiv_eq_ediv_of_nonneg he.1
  have hlocal : ∀ e, n.IsExpert e → n.localExpertIdx e = e % n.numLocalExperts := fun e he =>
    Int.tmod_eq_emod_of_nonneg he.1
  have hsplit : ∀ e, n.IsExpert e →
      n.IsRank (n.rankOf e) ∧ 0 ≤ n.localExpertIdx e ∧ n.localExpertIdx e < n.numLocalExperts := by
    intro e he
    rw [hrank e he, hlocal e he]
    exact ediv_emod_lt hL he.1 (hprod ▸ he.2)
  have hglobal : ∀ r j, n.IsRank r → 0 ≤ j → j < n.numLocalExperts →
      n.IsExpert (n.globalExpertIdx r j) ∧ n.rankOf (n.globalExpertIdx r j) = r ∧
        n.localExpertIdx (n.globalExpertIdx r j) = j := by
    intro r j hr h0 hj
    have hexp : n.IsExpert (n.globalExpertIdx r j) := by
      have hlow := mul_nonneg hr.1 hL.le
      have hhigh := mul_le_mul_of_nonneg_right (Int.add_one_le_of_lt hr.2) hL.le
      rw [add_mul, one_mul] at hhigh
      exact ⟨by rw [globalExpertIdx]; omega, by rw [globalExpertIdx]; omega⟩
    rw [hrank _ hexp, hlocal _ hexp]
    exact ⟨hexp, digits h0 hj⟩
  have hback : ∀ e, n.IsExpert e → n.globalExpertIdx (n.rankOf e) (n.localExpertIdx e) = e := by
    intro e he
    rw [hrank e he, hlocal e he, globalExpertIdx, mul_comm]
    exact Int.mul_ediv_add_emod e _
  -- Experts are determined by their two digits.
  have hinj : ∀ e r j, n.IsExpert e → n.IsRank r → 0 ≤ j → j < n.numLocalExperts →
      (n.rankOf e = r ∧ n.localExpertIdx e = j ↔ e = n.globalExpertIdx r j) := by
    intro e r j he hr h0 hj
    constructor
    · rintro ⟨rfl, rfl⟩
      exact (hback e he).symm
    · rintro rfl
      exact (hglobal r j hr h0 hj).2
  have hslots : ∀ g, n.Responsible g → ∀ r e, n.IsRank r → n.IsExpert e →
      (n.dispatchDst r e = n.dispatchSrc g ↔
        r = n.rankOf g.responsibleExpertIdx ∧
          e = n.globalExpertIdx g.rank (n.localExpertIdx g.responsibleExpertIdx)) := by
    intro g hg r e hr he
    obtain ⟨hrg, h0, hj⟩ := hsplit _ hg.isExpert
    rw [← hinj e _ _ he hg.isRank h0 hj, dispatchDst, dispatchSrc, Prod.mk.injEq,
      digits_inj hr.1 hr.2 hrg.1 hrg.2]
    tauto
  refine ⟨fun e he => (hsplit e he).1, ⟨?_, ?_, ?_⟩, hglobal, hslots, ?_, ?_⟩
  · exact fun e he => ⟨(hsplit e he).1, (hsplit e he).2⟩
  · intro e he e' he' heq
    rw [← hback e he, ← hback e' he']
    exact congrArg (fun p => n.globalExpertIdx p.1 p.2) heq
  · rintro ⟨r, j⟩ ⟨hr, h0, hj⟩
    obtain ⟨hexp, hr', hj'⟩ := hglobal r j hr h0 hj
    exact ⟨n.globalExpertIdx r j, hexp, Prod.ext hr' hj'⟩
  · intro g hg
    obtain ⟨hrg, h0, hj⟩ := hsplit _ hg.isExpert
    exact existsUnique_responsible (P := fun r e => n.dispatchDst r e = n.dispatchSrc g) hrg
      (hglobal _ _ hg.isRank h0 hj).1 (hslots g hg)
  · intro g hg
    obtain ⟨hrg, h0, hj⟩ := hsplit _ hg.isExpert
    refine existsUnique_responsible
      (P := fun r e => (n.rankOf e, n.globalExpertIdx r (n.localExpertIdx e)) = g.combineSrc) hrg
      (hglobal _ _ hg.isRank h0 hj).1 fun r e hr he => ?_
    obtain ⟨-, h0', hj'⟩ := hsplit e he
    have hidx : n.globalExpertIdx r (n.localExpertIdx e) = g.responsibleExpertIdx ↔
        r = n.rankOf g.responsibleExpertIdx ∧
          n.localExpertIdx e = n.localExpertIdx g.responsibleExpertIdx := by
      conv_lhs => rw [← hback _ hg.isExpert]
      exact digits_inj h0' hj' h0 hj
    rw [WarpGroup.combineSrc, Prod.mk.injEq, hidx, ← hinj e _ _ he hg.isRank h0 hj]
    tauto

/-- Where the split is consistent, the number of ranks divides the number of experts. -/
theorem dvd_of_consistent (hE : 0 < n.numExperts) (h : n.Consistent) :
    0 < n.numRanks ∧ n.numRanks ∣ n.numExperts := by
  have hfirst : n.IsExpert 0 := ⟨le_rfl, hE⟩
  have hlast : n.IsExpert (n.numExperts - 1) := ⟨by omega, by omega⟩
  have hR : 0 < n.numRanks := by
    have := h.rank_lt 0 hfirst
    exact this.1.trans_lt this.2
  have hL : 0 < n.numLocalExperts := by
    obtain ⟨-, hlocal⟩ := h.bijOn.mapsTo hfirst
    exact hlocal.1.trans_lt hlocal.2
  -- The last expert has a rank, so the local experts of all ranks reach it.
  have hreach : n.numExperts - 1 < n.numRanks * n.numLocalExperts := by
    have hlt := (h.rank_lt _ hlast).2
    rw [rankOf, Int.tdiv_eq_ediv_of_nonneg hlast.1] at hlt
    exact (Int.ediv_lt_iff_lt_mul hL).mp hlt
  have hfloor : n.numRanks * n.numLocalExperts ≤ n.numExperts := by
    rw [numLocalExperts, Int.tdiv_eq_ediv_of_nonneg hE.le]
    exact Int.mul_ediv_self_le hR.ne'
  exact ⟨hR, n.numLocalExperts, by omega⟩

end

end ExpertCounts

/-! ### The counts of a launch -/

namespace Launch

variable (l : Launch)

/-- The kernels' own arithmetic, on counts that are not negative. -/
@[simp] theorem numLocalExperts_counts : l.counts.numLocalExperts = l.numLocalExperts :=
  (Int.ofNat_tdiv l.numExperts l.numRanks).symm

/-- The rank of an expert, for counts that are natural numbers. -/
@[simp] theorem rankOf_counts (e : ℕ) :
    l.counts.rankOf e = ((e / l.numLocalExperts : ℕ) : ℤ) := by
  rw [ExpertCounts.rankOf, numLocalExperts_counts]
  exact (Int.ofNat_tdiv e l.numLocalExperts).symm

/-- The local index of an expert, for counts that are natural numbers. -/
@[simp] theorem localExpertIdx_counts (e : ℕ) :
    l.counts.localExpertIdx e = ((e % l.numLocalExperts : ℕ) : ℤ) := by
  rw [ExpertCounts.localExpertIdx, numLocalExperts_counts]
  exact (Int.ofNat_tmod e l.numLocalExperts).symm

end Launch

/-! ### The counts that the assertions let through -/

/-- The assertions ask for two blocks. -/
theorem ExpertCounts.AssertionsPass.numExperts_pos {n : ExpertCounts} (h : n.AssertionsPass) :
    0 < n.numExperts := by
  obtain ⟨-, -, hsms⟩ := h
  unfold ExpertCounts.numSms kNumWarpGroups at hsms
  by_contra hle
  have hdiv := Int.tdiv_le_tdiv (c := ((8 : ℕ) : ℤ)) (by omega)
    (show n.numExperts + ((8 : ℕ) : ℤ) - 1 ≤ 7 by omega)
  have h7 : (7 : ℤ).tdiv ((8 : ℕ) : ℤ) = 0 := by decide
  omega

/-- For counts that pass the assertions of `dispatch` and `combine`, the split of expert indices
is consistent if and only if the number of ranks divides the number of experts. -/
theorem consistent_iff_dvd (n : ExpertCounts) (h : n.AssertionsPass) :
    n.Consistent ↔ 0 < n.numRanks ∧ n.numRanks ∣ n.numExperts :=
  ⟨fun hc => ExpertCounts.dvd_of_consistent h.numExperts_pos hc,
    fun hd => ExpertCounts.consistent_of_dvd h.numExperts_pos hd.1 hd.2⟩

/-- The experts of the tests on eight ranks. -/
theorem consistent_on_eight_ranks :
    (⟨288, 8, 8⟩ : ExpertCounts).Consistent ↔ (0 : ℤ) < 8 ∧ (8 : ℤ) ∣ 288 :=
  consistent_iff_dvd ⟨288, 8, 8⟩ (by decide)

/-- Ten experts on three ranks pass the assertions. Expert 9 belongs to rank 3, which does not
exist. -/
theorem ten_experts_on_three_ranks : ¬ ∀ n : ExpertCounts, n.AssertionsPass → n.Consistent := by
  intro h
  have hlast := (h ⟨10, 3, 8⟩ (by decide)).rank_lt 9 ⟨by decide, by decide⟩
  exact absurd hlast.2 (by decide)

end EpDemo.Kernel
