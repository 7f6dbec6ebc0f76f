import EpDemo.Proofs.System.Outputs

/-!
# `EpDemo.Proofs.System.DispatchDelivers`: `dispatch` delivers every token once

A launch of `dispatch` that has ended has for every local expert and source rank a range of rows
(`layout_range`). The ranges tile the rows that are used, and each holds the tokens of its source
once, or nothing where the source was given up (`Facts.deliveredActive`). Without timeouts no source
is given up (`Facts.delivered`).
-/

set_option autoImplicit false

namespace EpDemo.Kernel.Launch

/-- The tokens whose row contains expert `e`. -/
def tokensFor (l : Launch) (e : ℕ) : Finset ℕ :=
  (Finset.range l.numTokens).filter fun t => ∃ i < l.numTopk, l.topk (t * l.numTopk + i) = e

/-- The tokens for an expert are those with a send to it. -/
theorem mem_tokensFor {l : Launch} (hK : l.numTopk ≤ numTokenWarps) {e t : ℕ} :
    t ∈ l.tokensFor e ↔ ∃ i, (t, i) ∈ l.tasks e := by
  simp only [tokensFor, Finset.mem_filter, Finset.mem_range, mem_tasks]
  constructor
  · rintro ⟨ht, i, hi, hdst⟩
    exact ⟨i, ⟨ht, hi.trans_le hK⟩, by rw [dstExpertIdx_of_lt _ hi, hdst]⟩
  · rintro ⟨i, ⟨ht, -⟩, hdst⟩
    have hi := l.lt_numTopk_of_dst (hdst ▸ Int.natCast_nonneg e)
    exact ⟨ht, i, hi, by rw [← hdst, dstExpertIdx_of_lt _ hi]⟩

end EpDemo.Kernel.Launch

namespace EpDemo.System.Config

open EpDemo.Kernel EpDemo.Library

variable {A : Type} {c : Config A} {w₀ w : World A}

/-- What `layout_range` says about a local expert and a source rank: the number of rows and the
first of them. -/
def packedRange (c : Config A) (w : World A) (d m le s : ℕ) : ℤ × ℤ :=
  unpack2 ((w.disp (d, m)).layoutRange (le * c.numRanks + s))

/-- A row is in the range of a source rank. -/
def InRange (c : Config A) (w : World A) (d m le s : ℕ) (row : ℤ) : Prop :=
  (c.packedRange w d m le s).2 ≤ row ∧
    row < (c.packedRange w d m le s).2 + (c.packedRange w d m le s).1

/-- Call `m` has delivered the tokens for local expert `le` of rank `d`. -/
structure Delivered (c : Config A) (w : World A) (d m le : ℕ) : Prop where
  count : ∀ s < c.numRanks, (c.packedRange w d m le s).1 =
    ((c.launch s m).tokensFor (d * c.numLocalExperts + le)).card
  disjoint : ∀ s < c.numRanks, ∀ s' < c.numRanks, s ≠ s' →
    (c.packedRange w d m le s).2 + (c.packedRange w d m le s).1 ≤ (c.packedRange w d m le s').2 ∨
      (c.packedRange w d m le s').2 + (c.packedRange w d m le s').1 ≤ (c.packedRange w d m le s).2
  tile : ∀ row, (∃ s < c.numRanks, c.InRange w d m le s row) ↔
    0 ≤ row ∧ row < (w.disp (d, m)).packedRecvCount le
  row : ∀ s < c.numRanks, ∀ row, c.InRange w d m le s row →
    ∃ t ∈ (c.launch s m).tokensFor (d * c.numLocalExperts + le), c.RowHolds w d m le row s t
  token : ∀ s < c.numRanks, ∀ t ∈ (c.launch s m).tokensFor (d * c.numLocalExperts + le),
    ∃! row, c.InRange w d m le s row ∧ w.srcInfo (d, m) (c.packedRow le row) = t

/-- Call `m` has delivered the tokens for local expert `le` of rank `d`, except those of sources
that it gave up. -/
structure DeliveredActive (c : Config A) (w : World A) (d m le : ℕ) : Prop where
  count : ∀ s < c.numRanks,
    (c.packedRange w d m le s).1 = ((c.launch s m).tokensFor (d * c.numLocalExperts + le)).card ∨
      (c.packedRange w d m le s).1 = 0 ∧ (w.disp (d, m)).activeRanks s = 0
  disjoint : ∀ s < c.numRanks, ∀ s' < c.numRanks, s ≠ s' →
    (c.packedRange w d m le s).2 + (c.packedRange w d m le s).1 ≤ (c.packedRange w d m le s').2 ∨
      (c.packedRange w d m le s').2 + (c.packedRange w d m le s').1 ≤ (c.packedRange w d m le s).2
  tile : ∀ row, (∃ s < c.numRanks, c.InRange w d m le s row) ↔
    0 ≤ row ∧ row < (w.disp (d, m)).packedRecvCount le
  row : ∀ s < c.numRanks, ∀ row, c.InRange w d m le s row →
    ∃ t ∈ (c.launch s m).tokensFor (d * c.numLocalExperts + le), c.RowHolds w d m le row s t
  token : ∀ s < c.numRanks, (c.packedRange w d m le s).1 ≠ 0 →
    ∀ t ∈ (c.launch s m).tokensFor (d * c.numLocalExperts + le),
    ∃! row, c.InRange w d m le s row ∧ w.srcInfo (d, m) (c.packedRow le row) = t

/-- Where no source was given up, everything was delivered. -/
theorem DeliveredActive.delivered {d m le : ℕ} (h : c.DeliveredActive w d m le)
    (hactive : ∀ s < c.numRanks, (w.disp (d, m)).activeRanks s ≠ 0) : c.Delivered w d m le where
  count s hs := (h.count s hs).resolve_right fun hnone => hactive s hs hnone.2
  disjoint := h.disjoint
  tile := h.tile
  row := h.row
  token s hs t ht := by
    refine h.token s hs ?_ t ht
    rw [(h.count s hs).resolve_right fun hnone => hactive s hs hnone.2]
    exact Int.natCast_ne_zero.mpr (Finset.card_pos.mpr ⟨t, ht⟩).ne'

/-- The number of messages that a source has for an expert is the number of its tokens. -/
theorem card_tokensFor (hv : c.Sound) {m s : ℕ} (hm : c.HasCall m) (hs : s < c.numRanks) (e : ℕ) :
    ((c.launch s m).tokensFor e).card = (c.launch s m).numTokensSent e := by
  have hK := (hv.fits hm hs).numTopk_le
  rw [Launch.numTokensSent_eq_card_tasks _ hK]
  symm
  refine Finset.card_bij (fun key _ => key.1) ?_ ?_ ?_
  · exact fun key hkey => (Launch.mem_tokensFor hK).mpr ⟨key.2, hkey⟩
  · exact fun key hkey key' hkey' heq => task_inj hv hm hs hkey hkey' heq
  · intro t ht
    obtain ⟨i, hi⟩ := (Launch.mem_tokensFor hK).mp ht
    exact ⟨(t, i), hi, rfl⟩

namespace Facts

variable {d m e : ℕ}

/-- A launch that has ended published the ranges that were claimed. -/
theorem packedRange_eq (hf : c.Facts w) (hd : d < c.numRanks) (hm : m ≤ w.call d)
    (hkind : (c.calls m).kind = .dispatch) (hdone : (w.disp (d, m)).Done (c.launch d m))
    (he : e < c.numExperts) :
    c.packedRange w d m (e % c.numLocalExperts) (e / c.numLocalExperts) =
      (((w.disp (d, m)).decodedCount e : ℤ), (w.disp (d, m)).recvBegin e) := by
  have hready := hdone.ready e he
  have hbegin := hf.claims.begin_le hf.sound hf.launches hf.settled hd hm hkind he
    (by rw [hready]; rfl)
  have hlt := hf.sound.stride_lt
  have hlayout : (w.disp (d, m)).layoutRange
      (e % c.numLocalExperts * c.numRanks + e / c.numLocalExperts) =
        pack2 ((w.disp (d, m)).decodedCount e) ((w.disp (d, m)).recvBegin e) :=
    (hf.claims d hd m hkind).layout e he hready
  rw [packedRange, hlayout]
  exact unpack2_pack2 (toInt32_natCast (by omega)) (toInt32_of_range (by omega) (by omega))

/-- A row in the range of a source is the row of one of its messages. -/
theorem inRange_iff (hf : c.Facts w) {row : ℤ} (hd : d < c.numRanks) (hm : m ≤ w.call d)
    (hkind : (c.calls m).kind = .dispatch) (hdone : (w.disp (d, m)).Done (c.launch d m))
    (he : e < c.numExperts) :
    c.InRange w d m (e % c.numLocalExperts) (e / c.numLocalExperts) row ↔
      ∃ i < (w.disp (d, m)).decodedCount e, row = (w.disp (d, m)).recvBegin e + i := by
  rw [InRange, hf.packedRange_eq hd hm hkind hdone he]
  constructor
  · rintro ⟨hlo, hhi⟩
    exact ⟨(row - (w.disp (d, m)).recvBegin e).toNat, by omega, by omega⟩
  · rintro ⟨i, hi, rfl⟩
    omega

/-- The messages that a group of a launch that has ended has taken: slot `i` is in row
`recvBegin + i`, and when there is any, all are there. -/
theorem rowHolds_of_done (hf : c.Facts w) (hd : d < c.numRanks)
    (hkind : (c.calls m).kind = .dispatch) (hdone : (w.disp (d, m)).Done (c.launch d m))
    (he : e < c.numExperts) :
    (0 < (w.disp (d, m)).decodedCount e →
      ∀ key ∈ (c.launch (e / c.numLocalExperts) m).tasks
        (d * c.numLocalExperts + e % c.numLocalExperts),
      ∃ i < (w.disp (d, m)).decodedCount e, (w.disp (e / c.numLocalExperts, m)).slot key = i ∧
        c.RowHolds w d m (e % c.numLocalExperts) ((w.disp (d, m)).recvBegin e + i)
          (e / c.numLocalExperts) key.1) ∧
    ∀ i < (w.disp (d, m)).decodedCount e, ∃ key ∈ (c.launch (e / c.numLocalExperts) m).tasks
        (d * c.numLocalExperts + e % c.numLocalExperts),
      (w.disp (e / c.numLocalExperts, m)).slot key = i ∧
        c.RowHolds w d m (e % c.numLocalExperts) ((w.disp (d, m)).recvBegin e + i)
          (e / c.numLocalExperts) key.1 := by
  have hv := hf.sound
  have hl := hf.launches
  have hready := hdone.ready e he
  -- The kernel is done, so that every row it counted has been copied.
  have hcopied : ∀ i < (w.disp (d, m)).decodedCount e, (w.disp (d, m)).copied (e, i) = true := by
    intro i hi
    refine hdone.copied e he i ?_
    rw [(hf.claims d hd m hkind).numRecv e (by rw [hready]; rfl)]
    exact hi
  constructor
  · -- A message with an expert that has rows was received, and its slot is its row.
    intro hpos key hkey
    obtain ⟨hcount, hland⟩ := hf.settled.landed hv hl hf.queues hd hkind he hpos
    obtain ⟨hnonneg, hlt, -⟩ := hl.slot_lt hv (hv.div_lt he) hkind (hland key hkey).1
    rw [dataExpert_of_mem hkind hkey] at hlt
    have hslot := (Int.toNat_of_nonneg hnonneg).symm
    have hi : ((w.disp (e / c.numLocalExperts, m)).slot key).toNat <
        (w.disp (d, m)).decodedCount e := by
      rw [hcount, recvCount]
      omega
    exact ⟨_, hi, hslot, hf.outputs d hd m hkind e he _ (hcopied _ hi) key hkey hslot⟩
  · -- A row came from exactly one slot, and thus from one message.
    intro i hi
    obtain ⟨key, hkey, hslot, -⟩ := hf.settled.exists_landed hv hl hf.queues hd hkind he hi
    exact ⟨key, hkey, hslot, hf.outputs d hd m hkind e he i (hcopied i hi) key hkey hslot⟩

/-- A launch of `dispatch` that has ended has delivered what it did not give up. -/
theorem deliveredActive (hf : c.Facts w) {le : ℕ} (hd : d < c.numRanks) (hm : m ≤ w.call d)
    (hkind : (c.calls m).kind = .dispatch) (hdone : (w.disp (d, m)).Done (c.launch d m))
    (hle : le < c.numLocalExperts) : c.DeliveredActive w d m le := by
  have hv := hf.sound
  have hcall := (hf.launches.hasCall d hd).of_le hm
  have hclaims := hf.claims d hd m hkind
  have hclaimed : ∀ e < c.numExperts, ((w.disp (d, m)).recv e).isClaimed = true := by
    intro e he
    rw [hdone.ready e he]
    rfl
  -- Group `s * L + le` receives from rank `s` for local expert `le`.
  have hgroup : ∀ s < c.numRanks, s * c.numLocalExperts + le < c.numExperts ∧
      (s * c.numLocalExperts + le) / c.numLocalExperts = s ∧
      (s * c.numLocalExperts + le) % c.numLocalExperts = le :=
    fun s hs => ⟨hv.expert_lt hs hle, mul_add_div_mod hle⟩
  have hrange : ∀ s < c.numRanks, c.packedRange w d m le s =
      (((w.disp (d, m)).decodedCount (s * c.numLocalExperts + le) : ℤ),
        (w.disp (d, m)).recvBegin (s * c.numLocalExperts + le)) := by
    intro s hs
    obtain ⟨he, hdiv, hmod⟩ := hgroup s hs
    have heq := hf.packedRange_eq hd hm hkind hdone he
    rwa [hdiv, hmod] at heq
  have hrow : ∀ s < c.numRanks, ∀ row, c.InRange w d m le s row ↔
      ∃ i < (w.disp (d, m)).decodedCount (s * c.numLocalExperts + le),
        row = (w.disp (d, m)).recvBegin (s * c.numLocalExperts + le) + i := by
    intro s hs row
    obtain ⟨he, hdiv, hmod⟩ := hgroup s hs
    have hiff : c.InRange w d m _ _ row ↔ _ := hf.inRange_iff hd hm hkind hdone he
    rwa [hdiv, hmod] at hiff
  have hmessage : ∀ s < c.numRanks,
      (0 < (w.disp (d, m)).decodedCount (s * c.numLocalExperts + le) →
        ∀ key ∈ (c.launch s m).tasks (d * c.numLocalExperts + le),
        ∃ i < (w.disp (d, m)).decodedCount (s * c.numLocalExperts + le),
          (w.disp (s, m)).slot key = i ∧
          c.RowHolds w d m le ((w.disp (d, m)).recvBegin (s * c.numLocalExperts + le) + i) s
            key.1) ∧
      ∀ i < (w.disp (d, m)).decodedCount (s * c.numLocalExperts + le),
        ∃ key ∈ (c.launch s m).tasks (d * c.numLocalExperts + le), (w.disp (s, m)).slot key = i ∧
          c.RowHolds w d m le ((w.disp (d, m)).recvBegin (s * c.numLocalExperts + le) + i) s
            key.1 := by
    intro s hs
    obtain ⟨he, hdiv, hmod⟩ := hgroup s hs
    have h := hf.rowHolds_of_done hd hkind hdone he
    rwa [hdiv, hmod] at h
  have hK : ∀ s < c.numRanks, (c.launch s m).numTopk ≤ numTokenWarps :=
    fun s hs => (hv.fits hcall hs).numTopk_le
  constructor
  · intro s hs
    obtain ⟨he, hdiv, hmod⟩ := hgroup s hs
    have hcount : ((w.disp (d, m)).recv (s * c.numLocalExperts + le)).hasCount = true := by
      rw [hdone.ready _ he]
      rfl
    have hsettled := (hf.settled d hd m hkind _ he hcount).imp_left And.left
    rw [hclaims.numRecv _ hcount, recvCount, hdiv, hmod] at hsettled
    rw [hrange s hs, card_tokensFor hv hcall hs]
    exact hsettled
  · intro s hs s' hs' hne
    obtain ⟨he, hdiv, hmod⟩ := hgroup s hs
    obtain ⟨he', hdiv', hmod'⟩ := hgroup s' hs'
    rw [hrange s hs, hrange s' hs']
    refine hclaims.disjoint _ he _ he' (hclaimed _ he) (hclaimed _ he') (hmod.trans hmod'.symm) ?_
    intro heq
    rw [heq] at hdiv
    exact hne (hdiv.symm.trans hdiv')
  · intro row
    constructor
    · rintro ⟨s, hs, hin⟩
      obtain ⟨he, -, hmod⟩ := hgroup s hs
      obtain ⟨i, hi, rfl⟩ := (hrow s hs row).mp hin
      have hnonneg := hclaims.nonneg _ he (hclaimed _ he)
      have htotal : _ ≤ (w.disp (d, m)).packedRecvCount
          ((s * c.numLocalExperts + le) % c.numLocalExperts) :=
        hclaims.le_total _ he (hclaimed _ he)
      rw [hmod] at htotal
      omega
    · rintro ⟨hlo, hhi⟩
      obtain ⟨e, he, hmod, -, hbegin, hend⟩ := hclaims.cover hdone.recving le hle row hlo hhi
      have he' : e / c.numLocalExperts * c.numLocalExperts + le = e := by
        rw [← show e % c.numLocalExperts = le from hmod, Nat.div_add_mod']
      refine ⟨e / c.numLocalExperts, hv.div_lt he, (hrow _ (hv.div_lt he) row).mpr ?_⟩
      rw [he']
      exact ⟨(row - (w.disp (d, m)).recvBegin e).toNat, by omega, by omega⟩
  · intro s hs row hin
    obtain ⟨i, hi, rfl⟩ := (hrow s hs row).mp hin
    obtain ⟨key, hkey, -, hholds⟩ := (hmessage s hs).2 i hi
    exact ⟨key.1, (Launch.mem_tokensFor (hK s hs)).mpr ⟨key.2, hkey⟩, hholds⟩
  · intro s hs hne t ht
    obtain ⟨j, hkey⟩ := (Launch.mem_tokensFor (hK s hs)).mp ht
    rw [hrange s hs] at hne
    have hpos : 0 < (w.disp (d, m)).decodedCount (s * c.numLocalExperts + le) :=
      Nat.pos_of_ne_zero fun hzero => hne (congrArg Int.ofNat hzero)
    obtain ⟨i, hi, hslot, hholds⟩ := (hmessage s hs).1 hpos (t, j) hkey
    refine ⟨_, ⟨(hrow s hs _).mpr ⟨i, hi, rfl⟩, hholds.srcInfo⟩, ?_⟩
    -- Another row of the token would have another slot of the same message.
    rintro row ⟨hin, hinfo⟩
    obtain ⟨i', hi', rfl⟩ := (hrow s hs row).mp hin
    obtain ⟨key', hkey', hslot', hholds'⟩ := (hmessage s hs).2 i' hi'
    rw [hholds'.srcInfo] at hinfo
    rw [task_inj hv hcall hs hkey' hkey (by exact_mod_cast hinfo), hslot] at hslot'
    omega

/-- Without timeouts no source is given up. -/
theorem delivered (hf : c.Facts w) (hv : c.Valid) {le : ℕ} (hd : d < c.numRanks) (hm : m ≤ w.call d)
    (hkind : (c.calls m).kind = .dispatch) (hdone : (w.disp (d, m)).Done (c.launch d m))
    (hle : le < c.numLocalExperts) : c.Delivered w d m le := by
  refine (hf.deliveredActive hd hm hkind hdone hle).delivered fun s _ => ?_
  rw [(hf.launches.active hv d hd m hm).1 hkind s]
  exact one_ne_zero

end Facts

/-! ### One `dispatch` -/

/-- All ranks run one `dispatch`, which does not clean the receive signals that it uses. -/
structure SingleDispatch (c : Config A) : Prop where
  length : c.length = some 1
  kind : (c.calls 0).kind = .dispatch
  clean_ne : (c.calls 0).clean ≠ (c.calls 0).buf

/-- In a run of `n` calls the calls are those below `n`. -/
theorem hasCall_iff_of_length {n m : ℕ} (h : c.length = some n) : c.HasCall m ↔ m < n := by
  simp [HasCall, h]

/-- A single call has no other one to alternate with. -/
theorem SingleDispatch.alternates (h : c.SingleDispatch) : c.Alternates where
  buf_succ m hm := absurd ((hasCall_iff_of_length h.length).mp hm) (by omega)
  buf_add_two m hm := absurd ((hasCall_iff_of_length h.length).mp hm) (by omega)
  clean_ne m hm := by
    obtain rfl : m = 0 := by
      have := (hasCall_iff_of_length h.length).mp hm
      omega
    exact h.clean_ne
  clean_succ m hm := absurd ((hasCall_iff_of_length h.length).mp hm) (by omega)

/-- When all ranks have finished, every rank has for each of its experts the tokens of every rank
for it, each once. -/
theorem dispatch_delivers (c : Config A) (hv : c.Valid) (hone : c.SingleDispatch) (w : World A)
    (hw : c.system.Reachable w) (hfin : c.Finished w) (d : ℕ) (hd : d < c.numRanks) (le : ℕ)
    (hle : le < c.numLocalExperts) : c.Delivered w d 0 le := by
  have hf := facts_of_separate hv (separate_of_alternates hv hone.alternates hw)
  obtain ⟨hlast, hdone⟩ := hfin d hd
  have hzero : w.call d = 0 := by
    rw [hone.length] at hlast
    have := Option.some.inj hlast
    omega
  have hdone := hdone.1 (by rw [hzero]; exact hone.kind)
  rw [hzero] at hdone
  exact hf.delivered hv hd (Nat.zero_le _) hone.kind hdone hle

/-! ### A run of two ranks -/

/-- The run of two ranks in which every expert gets its tokens. -/
theorem dispatch_delivers_twoRanks :
    let c := twoRanks (some 1) (fun _ => 0) fun _ => 1
    c.Delivered (c.machine.exec blank wholeDispatch) 1 0 2 := by
  intro c
  have hrun : c.machine.Legal blank wholeDispatch ∧
      c.Finished (c.machine.exec blank wholeDispatch) := by decide +kernel
  exact dispatch_delivers c (twoRanks_valid (by simp) _ _) ⟨rfl, rfl, by decide⟩ _
    (Machine.reachable_exec _ (.init (blank_init _ _ _)) hrun.1) hrun.2 1 (by decide) 2 (by decide)

end EpDemo.System.Config
