import EpDemo.Proofs.System.DispatchDelivers

/-!
# `EpDemo.Proofs.System.Routing`: `combine` sends the rows of `dispatch` back

In a `combine` that takes the `src_info` and `layout_range` of a `dispatch` (`Inverts`), the group
that received the tokens of a rank sends the rows of these tokens to it, in the order in which they
were packed (`Inverts.exists_key`), and no two rows of the same token (`Inverts.routed`).
-/

set_option autoImplicit false

namespace EpDemo.System.Config

open EpDemo.Kernel EpDemo.Library

variable {A : Type} {c : Config A} {w : World A} {k m : ℕ}

/-- Call `m` is the `combine` of call `k`, with the same top-k table. -/
structure Inverts (c : Config A) (k m : ℕ) : Prop where
  lt : k < m
  dispatch : (c.calls k).kind = .dispatch
  combine : (c.calls m).kind = .combine
  source : ∀ r < c.numRanks, ((c.calls m).input r).source = .call k
  numTokens : ∀ r < c.numRanks, ((c.calls m).input r).numTokens = ((c.calls k).input r).numTokens
  numTopk : ∀ r < c.numRanks, ((c.calls m).input r).numTopk = ((c.calls k).input r).numTopk
  topkIdx : ∀ r < c.numRanks, ((c.calls m).input r).topkIdx = ((c.calls k).input r).topkIdx

/-! ### What the ranks send back -/

/-- The rows of a group in a `combine` that takes the results of call `k`. -/
theorem layout_of_source (hf : c.Facts w) {d e : ℕ} (hd : d < c.numRanks) (hm : m ≤ w.call d)
    (hlt : k < m) (hkind : (c.calls k).kind = .dispatch)
    (hsrc : ((c.calls m).input d).source = .call k) (he : e < c.numExperts) :
    (c.combineLaunch w d m).layout e =
      (((w.disp (d, k)).decodedCount e : ℤ), (w.disp (d, k)).recvBegin e) := by
  have hlt := hlt.trans_le hm
  have hrange := hf.packedRange_eq hd hlt.le hkind (hf.launches.dispDone d hd k hlt hkind) he
  rw [← hrange]
  show unpack2 (c.layoutRange w d m _) = _
  simp only [layoutRange, hsrc]
  rfl

/-- The groups of a rank send different rows. -/
theorem combineRow_inj (hf : c.Facts w) {d : ℕ} (hd : d < c.numRanks) (hm : m ≤ w.call d)
    (hlt : k < m) (hkind : (c.calls k).kind = .dispatch)
    (hsrc : ((c.calls m).input d).source = .call k) {key key' : ℕ × ℕ}
    (he : key.1 < c.numExperts) (hi : key.2 < (c.combineLaunch w d m).numRows key.1)
    (he' : key'.1 < c.numExperts) (hi' : key'.2 < (c.combineLaunch w d m).numRows key'.1)
    (h : c.combineRow w m d key = c.combineRow w m d key') : key = key' := by
  -- The layout of the combine call is what the dispatch call decoded.
  have hlayout : ∀ e < c.numExperts, (c.combineLaunch w d m).layout e =
      (((w.disp (d, k)).decodedCount e : ℤ), (w.disp (d, k)).recvBegin e) :=
    fun e he => layout_of_source hf hd hm hlt hkind hsrc he
  have hkd := hlt.trans_le hm
  -- That call is done, so that all of its rows are claimed.
  have hclaimed : ∀ e < c.numExperts, ((w.disp (d, k)).recv e).isClaimed = true := by
    intro e he
    rw [(hf.launches.dispDone d hd k hkd hkind).ready e he]
    rfl
  rw [CombineLaunch.numRows, hlayout _ he, Int.toNat_natCast] at hi
  rw [CombineLaunch.numRows, hlayout _ he', Int.toNat_natCast] at hi'
  have hbegin : ∀ e < c.numExperts, _ ∧ _ := fun e he =>
    hf.claims.begin_le hf.sound hf.launches hf.settled hd hkd.le hkind he (hclaimed e he)
  have hrow := hbegin _ he
  have hrow' := hbegin _ he'
  rw [combineRow, combineRow, CombineLaunch.rowIdx, CombineLaunch.rowIdx, hlayout _ he,
    hlayout _ he'] at h
  -- The row determines the expert.
  obtain ⟨hle, heq⟩ := packedRow_inj (by omega) (by omega) (by omega) (by omega) h
  -- And the rows of one rank's experts do not overlap.
  obtain ⟨hgroup, hindex⟩ :=
    (hf.claims d hd k hkind).row_inj he he' (hclaimed _ he) (hclaimed _ he') hi hi' hle heq
  exact Prod.ext hgroup hindex

namespace Inverts

/-- The rows of a group are those that were claimed for it. -/
theorem layout_eq (hinv : c.Inverts k m) (hf : c.Facts w) {d e : ℕ} (hd : d < c.numRanks)
    (hm : m ≤ w.call d) (he : e < c.numExperts) :
    (c.combineLaunch w d m).layout e =
      (((w.disp (d, k)).decodedCount e : ℤ), (w.disp (d, k)).recvBegin e) :=
  layout_of_source hf hd hm hinv.lt hinv.dispatch (hinv.source d hd) he

/-- The rows that a group sends back are those that it received. -/
theorem numRows_eq (hinv : c.Inverts k m) (hf : c.Facts w) {d e : ℕ} (hd : d < c.numRanks)
    (hm : m ≤ w.call d) (he : e < c.numExperts) :
    (c.combineLaunch w d m).numRows e = (w.disp (d, k)).decodedCount e := by
  rw [CombineLaunch.numRows, hinv.layout_eq hf hd hm he, Int.toNat_natCast]

/-- Row `i` of a group is the `i`-th of the range that it claimed. -/
theorem combineRow_eq (hinv : c.Inverts k m) (hf : c.Facts w) {d e i : ℕ} (hd : d < c.numRanks)
    (hm : m ≤ w.call d) (he : e < c.numExperts) :
    c.combineRow w m d (e, i) =
      c.packedRow (e % c.numLocalExperts) ((w.disp (d, k)).recvBegin e + i) := by
  rw [combineRow, CombineLaunch.rowIdx, hinv.layout_eq hf hd hm he]

/-- The `combine` is given the source indices that the `dispatch` wrote. -/
theorem srcInfo_eq (hinv : c.Inverts k m) {d : ℕ} (hd : d < c.numRanks) :
    c.srcInfo w d m = w.srcInfo (d, k) := by
  simp only [srcInfo, hinv.source d hd]

/-- Row `i` of a group is that of the message with slot `i`. -/
theorem exists_key (hinv : c.Inverts k m) (hf : c.Facts w) {d e i : ℕ} (hd : d < c.numRanks)
    (hm : m ≤ w.call d) (he : e < c.numExperts) (hi : i < (c.combineLaunch w d m).numRows e) :
    ∃ key ∈ (c.launch (e / c.numLocalExperts) k).tasks
        (d * c.numLocalExperts + e % c.numLocalExperts),
      (w.disp (e / c.numLocalExperts, k)).slot key = i ∧
        c.srcInfo w d m (c.combineRow w m d (e, i)) = key.1 := by
  have hlt := hinv.lt.trans_le hm
  rw [hinv.numRows_eq hf hd hm he] at hi
  obtain ⟨key, hkey, hslot, hholds⟩ := (hf.rowHolds_of_done hd hinv.dispatch
    (hf.launches.dispDone d hd k hlt hinv.dispatch) he).2 i hi
  refine ⟨key, hkey, hslot, ?_⟩
  rw [hinv.srcInfo_eq hd, hinv.combineRow_eq hf hd hm he]
  exact hholds.srcInfo

/-- The rows of a group are of different tokens. -/
theorem routed (hinv : c.Inverts k m) (hf : c.Facts w) : c.Routed w m := by
  have hv := hf.sound
  constructor
  · intro r hr hm e he i hi
    obtain ⟨key, hkey, -, hinfo⟩ := hinv.exists_key hf hr hm he hi
    have hcall := (hf.launches.hasCall r hr).of_le (hinv.lt.trans_le hm).le
    have ht := ((Launch.mem_tasks _).mp hkey).1.1
    have hmax := hv.numTokens_le hcall (hv.div_lt he)
    rw [hinfo]
    omega
  · intro r hr hm e he i hi i' hi' heq
    obtain ⟨key, hkey, hslot, hinfo⟩ := hinv.exists_key hf hr hm he hi
    obtain ⟨key', hkey', hslot', hinfo'⟩ := hinv.exists_key hf hr hm he hi'
    have hcall := (hf.launches.hasCall r hr).of_le (hinv.lt.trans_le hm).le
    rw [hinfo, hinfo'] at heq
    have hsame := task_inj hv hcall (hv.div_lt he) hkey hkey' (by exact_mod_cast heq)
    rw [hsame, hslot'] at hslot
    omega

end Inverts

end EpDemo.System.Config
