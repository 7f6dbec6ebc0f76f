import EpDemo.Proofs.System.Slots
import Mathlib.Tactic.LinearCombination

/-!
# `EpDemo.Proofs.System.Outputs`: what `dispatch` writes to its output arrays

A group copies its messages after its signal wait has ended, when all of them have landed, and to
rows that no other group has. So a copied row holds the token, the payload and the scales of the
message of its slot (`outputs_of_separate`), and it does so to the end.
-/

set_option autoImplicit false

namespace EpDemo.Kernel.Shape

variable {p : Shape}

/-- The first word of a message is the token. -/
theorem stagingThread_zero : p.stagingThread 0 = some 0 := rfl

/-- The words of the payload are staged. -/
theorem stagingThread_payload {j : ℕ} (hj : j < p.hiddenBytes / 4) :
    ∃ thread, p.stagingThread (4 + j) = some thread := by
  refine ⟨(4 + j - 4) / (if p.useFp8 then 2 else 4) % (numTokenWarps * 32), ?_⟩
  simp only [stagingThread, show ¬4 + j = 0 by omega, show ¬4 + j < 4 by omega, if_false,
    Nat.add_lt_add_left hj 4, if_true]

/-- The payload lies within the message. -/
theorem payload_lt {j : ℕ} (hj : j < p.hiddenBytes / 4) : 4 + j < p.numBytesPerMsg / 4 := by
  unfold hiddenBytes at hj
  unfold numBytesPerMsg
  cases hfp8 : p.useFp8 <;>
    simp only [hfp8, if_true, Bool.false_eq_true, if_false] at hj ⊢ <;> omega

/-- The scales lie within the message, behind the payload. -/
theorem scale_lt (hfp8 : p.useFp8 = true) {k : ℕ} (hk : k < p.numScales) :
    4 + p.hiddenBytes / 4 + k < p.numBytesPerMsg / 4 := by
  simp only [hiddenBytes, numBytesPerMsg, hfp8, if_true]
  omega

/-- The words of the scales are staged. -/
theorem stagingThread_scale (hfp8 : p.useFp8 = true) {k : ℕ} (hk : k < p.numScales) :
    ∃ thread, p.stagingThread (4 + p.hiddenBytes / 4 + k) = some thread := by
  refine ⟨16 * (4 + p.hiddenBytes / 4 + k - 4 - p.hiddenBytes / 4) % (numTokenWarps * 32), ?_⟩
  simp only [stagingThread, show ¬4 + p.hiddenBytes / 4 + k = 0 by omega,
    show ¬4 + p.hiddenBytes / 4 + k < 4 by omega,
    show ¬4 + p.hiddenBytes / 4 + k < 4 + p.hiddenBytes / 4 by omega, if_false, scale_lt hfp8 hk,
    if_true]

end EpDemo.Kernel.Shape

namespace EpDemo.System.Config

open EpDemo.Kernel EpDemo.Library

variable {A : Type} {c : Config A} {w₀ w : World A} {a : Action}

/-! ### Rows -/

/-- A row of the packed output of rank `d` in call `m` holds token `t` of rank `s`. -/
structure RowHolds (c : Config A) (w : World A) (d m le : ℕ) (row : ℤ) (s t : ℕ) : Prop where
  srcInfo : w.srcInfo (d, m) (c.packedRow le row) = t
  recvX : ∀ j < c.shape.hiddenBytes / 4,
    w.recvX (d, m) (c.packedRow le row) j = ((c.calls m).input s).packed t (4 + j)
  recvScales : c.shape.useFp8 = true → ∀ k < c.shape.numScales,
    w.recvScales (d, m) ((le * c.stride * c.shape.numScales : ℕ) + row + k * c.stride) =
      ((c.calls m).input s).packed t (4 + c.shape.hiddenBytes / 4 + k)

/-- The row of the packed output, as an index. -/
theorem packedRow_eq (c : Config A) (le : ℕ) (row : ℤ) :
    c.packedRow le row = le * c.stride + row := by
  unfold packedRow stride
  push_cast
  ring

/-- Different rows are at different places. -/
theorem packedRow_inj {le le' : ℕ} {row row' : ℤ} (hlo : 0 ≤ row) (hhi : row < c.stride)
    (hlo' : 0 ≤ row') (hhi' : row' < c.stride) (h : c.packedRow le row = c.packedRow le' row') :
    le = le' ∧ row = row' := by
  rw [packedRow_eq, packedRow_eq] at h
  obtain ⟨hle, hrow⟩ := digits_inj hlo hhi hlo' hhi' h
  exact ⟨by exact_mod_cast hle, hrow⟩

/-- The rows that a group has claimed are rows of its local expert. -/
theorem ClaimsDecoded.begin_le (hv : c.Sound) (hl : c.Launches w) (hsettled : c.Settled w)
    (h : c.ClaimsDecoded w) {d m e : ℕ} (hd : d < c.numRanks) (hm : m ≤ w.call d)
    (hkind : (c.calls m).kind = .dispatch) (he : e < c.numExperts)
    (hclaimed : ((w.disp (d, m)).recv e).isClaimed = true) :
    0 ≤ (w.disp (d, m)).recvBegin e ∧
      (w.disp (d, m)).recvBegin e + (w.disp (d, m)).decodedCount e ≤ c.stride := by
  have hpos : 0 < (c.launch d m).numLocalExperts := hv.numLocalExperts_pos
  have hbegin := (h d hd m hkind).begin_le hpos
    (Dispatch.order_of_runs (hl.disp d hd m hm hkind)) he hclaimed
  have hsum : ∑ e' ∈ Finset.range c.numExperts with
      e' % c.numLocalExperts = e % c.numLocalExperts, (w.disp (d, m)).decodedCount e' ≤ c.stride :=
    hsettled.sum_le hv hd ((hl.hasCall d hd).of_le hm) hkind _
  exact ⟨hbegin.1, hbegin.2.trans (by exact_mod_cast hsum)⟩

/-! ### Copies -/

/-- The slot that a copy reads is that of a message. -/
theorem dataDst_of_slot (hv : c.Sound) {m d e : ℕ} {key : ℕ × ℕ}
    (hkind : (c.calls m).kind = .dispatch)
    (hexpert : c.dataExpert m (e / c.numLocalExperts) key =
      d * c.numLocalExperts + e % c.numLocalExperts) {i : ℕ}
    (hslot : (w.disp (e / c.numLocalExperts, m)).slot key = i) :
    c.dataDst w m (e / c.numLocalExperts) key =
      c.fabric.recvData (c.calls m).buf d
        (c.messageOffset (e % c.numLocalExperts) (e / c.numLocalExperts) i) := by
  rw [dataDst_eq hv]
  simp only [dataOffset, hkind, hexpert, hslot, mul_add_div_mod (hv.mod_lt e)]

/-- A task of `dispatch` goes to its expert. -/
theorem dataExpert_of_mem {m s x : ℕ} {key : ℕ × ℕ} (hkind : (c.calls m).kind = .dispatch)
    (hkey : key ∈ (c.launch s m).tasks x) : c.dataExpert m s key = x := by
  have hdst := ((Launch.mem_tasks _).mp hkey).2
  simp only [dataExpert, hkind, hdst, Int.toNat_natCast]

/-- Every copied row holds the message of its slot. -/
def Outputs (c : Config A) (w : World A) : Prop :=
  ∀ d < c.numRanks, ∀ m, (c.calls m).kind = .dispatch → ∀ e < c.numExperts, ∀ i,
    (w.disp (d, m)).copied (e, i) = true → ∀ key ∈
      (c.launch (e / c.numLocalExperts) m).tasks (d * c.numLocalExperts + e % c.numLocalExperts),
    (w.disp (e / c.numLocalExperts, m)).slot key = i →
      c.RowHolds w d m (e % c.numLocalExperts) ((w.disp (d, m)).recvBegin e + i)
        (e / c.numLocalExperts) key.1

/-- Only a copy writes to the output arrays. -/
theorem outputs_fire_of_ne (a : Action) {d m : ℕ}
    (hne : ∀ e i, a = .dispatch d (.copyRow e i) → m ≠ w.call d) :
    (c.fire w a).srcInfo (d, m) = w.srcInfo (d, m) ∧ (c.fire w a).recvX (d, m) = w.recvX (d, m) ∧
      (c.fire w a).recvScales (d, m) = w.recvScales (d, m) := by
  cases a with
  | dispatch r a =>
    cases a with
    | send t warp => simp only [fire, dispatchEffect, transfer_eq, and_self]
    | signal e => simp only [fire, dispatchEffect, signal_eq, and_self]
    | copyRow e i =>
      -- Only a row copied by this call could be the exception.
      have hpair : (d, m) ≠ (r, w.call r) := by
        intro heq
        cases heq
        exact hne e i rfl rfl
      simp only [fire, dispatchEffect, Function.update_of_ne hpair, true_and]
      split
      · exact Function.update_of_ne hpair _ _
      · rfl
    | _ => exact ⟨rfl, rfl, rfl⟩
  | combine r a =>
    cases a with
    | sendRow e k => simp only [fire, combineEffect, transfer_eq, and_self]
    | signal e => simp only [fire, combineEffect, signal_eq, and_self]
    | _ => exact ⟨rfl, rfl, rfl⟩
  | deliver r ctx =>
    cases hq : w.nic (r, ctx) with
    | nil => simp only [fire, hq, and_self]
    | cons x rest =>
      rw [fire_deliver_cons hq]
      cases x <;> exact ⟨rfl, rfl, rfl⟩
  | advance r => exact ⟨rfl, rfl, rfl⟩

/-- The source information after a copy. -/
theorem srcInfo_fire_copyRow (d e i : ℕ) :
    (c.fire w (.dispatch d (.copyRow e i))).srcInfo (d, w.call d) =
      Function.update (w.srcInfo (d, w.call d))
        (c.packedRow (e % c.numLocalExperts) ((w.disp (d, w.call d)).recvBegin e + i))
        (w.data (c.calls (w.call d)).buf ((c.fabric.recvData (c.calls (w.call d)).buf d
          (c.messageOffset (e % c.numLocalExperts) (e / c.numLocalExperts) i)).add
            (4 * (0 : ℕ)))).toInt :=
  Function.update_self ..

/-- The payload after a copy. -/
theorem recvX_fire_copyRow (d e i : ℕ) :
    (c.fire w (.dispatch d (.copyRow e i))).recvX (d, w.call d) =
      Function.update (w.recvX (d, w.call d))
        (c.packedRow (e % c.numLocalExperts) ((w.disp (d, w.call d)).recvBegin e + i))
        fun j => if j < c.shape.hiddenBytes / 4 then
          w.data (c.calls (w.call d)).buf ((c.fabric.recvData (c.calls (w.call d)).buf d
            (c.messageOffset (e % c.numLocalExperts) (e / c.numLocalExperts) i)).add
              (4 * (4 + j : ℕ)))
        else w.recvX (d, w.call d)
          (c.packedRow (e % c.numLocalExperts) ((w.disp (d, w.call d)).recvBegin e + i)) j :=
  Function.update_self ..

/-- A scale after a copy to row `row` of local expert `le`. -/
theorem recvScales_fire_copyRow (hfp8 : c.shape.useFp8 = true) {d e i le k : ℕ} {row : ℤ}
    (hlo : 0 ≤ row) (hhi : row < c.stride) (hk : k < c.shape.numScales)
    (hlo' : 0 ≤ (w.disp (d, w.call d)).recvBegin e + i)
    (hhi' : (w.disp (d, w.call d)).recvBegin e + i < c.stride) :
    (c.fire w (.dispatch d (.copyRow e i))).recvScales (d, w.call d)
        ((le * c.stride * c.shape.numScales : ℕ) + row + k * c.stride) =
      if le = e % c.numLocalExperts ∧ row = (w.disp (d, w.call d)).recvBegin e + i then
        w.data (c.calls (w.call d)).buf ((c.fabric.recvData (c.calls (w.call d)).buf d
          (c.messageOffset (e % c.numLocalExperts) (e / c.numLocalExperts) i)).add
            (4 * (4 + c.shape.hiddenBytes / 4 + k : ℕ)))
      else w.recvScales (d, w.call d)
        ((le * c.stride * c.shape.numScales : ℕ) + row + k * c.stride) := by
  have hpos : (0 : ℤ) < c.stride := by omega
  have hstride : c.numRanks * c.numMaxDispatchTokensPerRank = c.stride := rfl
  simp only [fire, dispatchEffect, hfp8, if_true, Function.update_self, hstride]
  by_cases hsame : le = e % c.numLocalExperts ∧ row = (w.disp (d, w.call d)).recvBegin e + i
  · obtain ⟨rfl, rfl⟩ := hsame
    have hcol : (((e % c.numLocalExperts * c.stride * c.shape.numScales : ℕ) : ℤ) +
        ((w.disp (d, w.call d)).recvBegin e + i) + k * c.stride) -
        (e % c.numLocalExperts * c.stride * c.shape.numScales : ℕ) -
        ((w.disp (d, w.call d)).recvBegin e + i) = k * c.stride := by omega
    have hdiv : (k * c.stride : ℤ) / c.stride = k := Int.mul_ediv_cancel _ hpos.ne'
    have hin : 0 ≤ (k * c.stride : ℤ) ∧ (k * c.stride : ℤ) % c.stride = 0 ∧
        (k * c.stride : ℤ) / c.stride < c.shape.numScales :=
      ⟨Int.mul_nonneg (Int.natCast_nonneg k) hpos.le, Int.mul_emod_left _ _, by omega⟩
    rw [hcol, if_pos hin, if_pos ⟨rfl, rfl⟩, hdiv, Int.toNat_natCast]
  · rw [if_neg hsame, if_neg]
    rintro ⟨hnonneg, hmod, hdiv⟩
    -- Another column of the copied row would be the same column of the same row.
    have hquot := Int.ediv_nonneg hnonneg hpos.le
    obtain ⟨q, hq⟩ := Int.eq_ofNat_of_zero_le hquot
    rw [hq] at hdiv
    have hcol := Int.ediv_mul_cancel_of_emod_eq_zero hmod
    rw [hq] at hcol
    push_cast at hcol
    have hrow : ((le * c.shape.numScales + k : ℕ) : ℤ) * c.stride + row =
        ((e % c.numLocalExperts * c.shape.numScales + q : ℕ) : ℤ) * c.stride +
          ((w.disp (d, w.call d)).recvBegin e + i) := by
      push_cast
      linear_combination -hcol
    obtain ⟨hblock, hsamerow⟩ := digits_inj hlo hhi hlo' hhi' hrow
    push_cast at hblock
    obtain ⟨hle, -⟩ := digits_inj (by omega) (by omega) (by omega) hdiv hblock
    exact hsame ⟨by exact_mod_cast hle, hsamerow⟩

/-- The staged words of a message of `dispatch`. -/
theorem HasMessage.word (hv : c.Sound) {m d e : ℕ} {key : ℕ × ℕ}
    (h : c.HasMessage w₀ w m (e / c.numLocalExperts) key) (hkind : (c.calls m).kind = .dispatch)
    (hexpert : c.dataExpert m (e / c.numLocalExperts) key =
      d * c.numLocalExperts + e % c.numLocalExperts) {i j : ℕ}
    (hslot : (w.disp (e / c.numLocalExperts, m)).slot key = i) (hj : j < c.shape.numBytesPerMsg / 4)
    (hstaged : ∃ thread, c.shape.stagingThread j = some thread) :
    w.data (c.calls m).buf ((c.fabric.recvData (c.calls m).buf d
        (c.messageOffset (e % c.numLocalExperts) (e / c.numLocalExperts) i)).add (4 * j)) =
      if j = 0 then BitVec.ofInt 32 key.1
      else ((c.calls m).input (e / c.numLocalExperts)).packed key.1 j := by
  obtain ⟨thread, hthread⟩ := hstaged
  have hdef : c.Defined m j := fun _ hnone => by
    rw [hthread] at hnone
    cases hnone
  have hword := (h j (by simpa only [dataBytes, hkind] using hj)).2 hdef
  rw [dataDst_of_slot hv hkind hexpert hslot] at hword
  simpa only [messageWord, hkind, hthread] using hword

/-- A copied row holds the message of its slot. -/
theorem rowHolds_copyRow (hv : c.Sound) {d e i : ℕ} {key : ℕ × ℕ}
    (h : c.HasMessage w₀ w (w.call d) (e / c.numLocalExperts) key)
    (hkind : (c.calls (w.call d)).kind = .dispatch)
    (hexpert : c.dataExpert (w.call d) (e / c.numLocalExperts) key =
      d * c.numLocalExperts + e % c.numLocalExperts)
    (hslot : (w.disp (e / c.numLocalExperts, w.call d)).slot key = i) (hkey : key.1 < 2 ^ 31)
    (hlo : 0 ≤ (w.disp (d, w.call d)).recvBegin e + i)
    (hhi : (w.disp (d, w.call d)).recvBegin e + i < c.stride) :
    c.RowHolds (c.fire w (.dispatch d (.copyRow e i))) d (w.call d) (e % c.numLocalExperts)
      ((w.disp (d, w.call d)).recvBegin e + i) (e / c.numLocalExperts) key.1 where
  srcInfo := by
    have hpos : 0 < c.shape.numBytesPerMsg / 4 := by
      unfold Shape.numBytesPerMsg
      omega
    rw [srcInfo_fire_copyRow, Function.update_self,
      h.word hv hkind hexpert hslot hpos ⟨0, Shape.stagingThread_zero⟩, if_pos rfl,
      BitVec.toInt_ofInt]
    exact toInt32_natCast hkey
  recvX j hj := by
    rw [recvX_fire_copyRow, Function.update_self, if_pos hj,
      h.word hv hkind hexpert hslot (Shape.payload_lt hj) (Shape.stagingThread_payload hj),
      if_neg (by omega)]
  recvScales hfp8 k hk := by
    rw [recvScales_fire_copyRow hfp8 hlo hhi hk hlo hhi, if_pos ⟨rfl, rfl⟩,
      h.word hv hkind hexpert hslot (Shape.scale_lt hfp8 hk) (Shape.stagingThread_scale hfp8 hk),
      if_neg (by omega)]

/-- A copy leaves the other rows alone. -/
theorem RowHolds.copyRow {d e i le s t : ℕ} {row : ℤ}
    (h : c.RowHolds w d (w.call d) le row s t) (hlo : 0 ≤ row) (hhi : row < c.stride)
    (hlo' : 0 ≤ (w.disp (d, w.call d)).recvBegin e + i)
    (hhi' : (w.disp (d, w.call d)).recvBegin e + i < c.stride)
    (hne : ¬(le = e % c.numLocalExperts ∧ row = (w.disp (d, w.call d)).recvBegin e + i)) :
    c.RowHolds (c.fire w (.dispatch d (.copyRow e i))) d (w.call d) le row s t := by
  have hplace : c.packedRow le row ≠
      c.packedRow (e % c.numLocalExperts) ((w.disp (d, w.call d)).recvBegin e + i) :=
    fun heq => hne (packedRow_inj hlo hhi hlo' hhi' heq)
  constructor
  · rw [srcInfo_fire_copyRow, Function.update_of_ne hplace]
    exact h.srcInfo
  · intro j hj
    rw [recvX_fire_copyRow, Function.update_of_ne hplace]
    exact h.recvX j hj
  · intro hfp8 k hk
    rw [recvScales_fire_copyRow hfp8 hlo hhi hk hlo' hhi', if_neg hne]
    exact h.recvScales hfp8 k hk

/-- A group that decoded a count other than zero decoded the one that was sent, and the messages
have landed. -/
theorem Settled.landed (hv : c.Sound) (hl : c.Launches w) (hq : c.Queues w) (h : c.Settled w)
    {d m e : ℕ} (hd : d < c.numRanks) (hkind : (c.calls m).kind = .dispatch) (he : e < c.numExperts)
    (hpos : 0 < (w.disp (d, m)).decodedCount e) :
    (w.disp (d, m)).decodedCount e = c.recvCount m d e ∧
      ∀ key ∈ (c.launch (e / c.numLocalExperts) m).tasks
        (d * c.numLocalExperts + e % c.numLocalExperts),
      c.Landed w m (e / c.numLocalExperts) (.data key) := by
  -- Without a count there would be no rows.
  have hcount : ((w.disp (d, m)).recv e).hasCount = true := by
    by_contra hcount
    rw [Dispatch.State.decodedCount, if_neg hcount] at hpos
    exact Nat.lt_irrefl 0 hpos
  have heq := h.numRecv_eq hd hkind he hcount
  -- Either the sender gave up, or its signal has landed, and its messages before it.
  cases h d hd m hkind e he hcount with
  | inr hzero =>
    rw [hzero.1] at heq
    omega
  | inl hsent =>
    obtain ⟨hnum, hland⟩ := hsent
    refine ⟨by omega, fun key hkey => ?_⟩
    have hdst := dataExpert_of_mem hkind hkey
    refine hq.data_landed hv hl (hv.div_lt he) (hv.expert_lt hd (hv.mod_lt e)) hland ?_ hdst
    simpa only [Task, hkind, hdst] using hkey

/-- Every slot below the count of a group is that of a message, which has landed. -/
theorem Settled.exists_landed (hv : c.Sound) (hl : c.Launches w) (hq : c.Queues w) (h : c.Settled w)
    {d m e i : ℕ} (hd : d < c.numRanks) (hkind : (c.calls m).kind = .dispatch)
    (he : e < c.numExperts)
    (hi : i < (w.disp (d, m)).decodedCount e) :
    ∃ key ∈ (c.launch (e / c.numLocalExperts) m).tasks
        (d * c.numLocalExperts + e % c.numLocalExperts),
      (w.disp (e / c.numLocalExperts, m)).slot key = i ∧
        c.Landed w m (e / c.numLocalExperts) (.data key) := by
  have hs := hv.div_lt he
  obtain ⟨hcount, hland⟩ := h.landed hv hl hq hd hkind he (by omega)
  have hm : m ≤ w.call d := by
    by_contra hlt
    rw [Dispatch.State.decodedCount, (hl.future d hd m (by omega)).1.recv] at hi
    exact Nat.not_lt_zero _ hi
  have hfit := hv.fits ((hl.hasCall d hd).of_le hm) hs
  have hcard : i < ((c.launch (e / c.numLocalExperts) m).tasks
      (d * c.numLocalExperts + e % c.numLocalExperts)).card := by
    rw [← Launch.numTokensSent_eq_card_tasks _ hfit.numTopk_le]
    exact hi.trans_eq hcount
  -- There is a message, so its sender has reached the call.
  obtain ⟨key₀, hkey₀⟩ := Finset.card_pos.mp ((Nat.zero_le i).trans_lt hcard)
  have hms : m ≤ w.call (e / c.numLocalExperts) := hl.le_of_sent hs (hland key₀ hkey₀).1
  obtain ⟨key, hkey, hslot⟩ := (Dispatch.slots_of_runs hfit (hl.disp _ hs m hms hkind)).exists_slot
    (fun key hkey => hasSlot_of_sent hkind (hland key hkey).1) hcard
  exact ⟨key, hkey, hslot, hland key hkey⟩

/-- The calls of `dispatch` keep their messages intact. -/
theorem intact_dispatch (hv : c.Sound) (hw₀ : c.Init w₀)
    (h : (c.onTime.startingAt w₀).Reachable w) :
    c.Intact (fun m => (c.calls m).kind = .dispatch) w₀ w := by
  refine intact_of_run (fun _ _ hstep => hstep) hv hw₀ ?_ ?_ h
  · intro m hdispatch _ hcombine
    exact absurd (hdispatch.symm.trans hcombine) (by decide)
  · intro q hq m hkind
    exact (launches_of_reachable hv (hq.of_startingAt hw₀).of_restrict).apart_dispatch hv hkind

/-- The slot of a message that was sent does not change. -/
theorem slot_fire_of_sent (hen : c.enabled w a) {m r : ℕ} {key : ℕ × ℕ}
    (hkind : (c.calls m).kind = .dispatch) (hsent : c.DataSent w m r key) :
    ((c.fire w a).disp (r, m)).slot key = (w.disp (r, m)).slot key := by
  by_cases hrun : ∃ b, a = .dispatch r b ∧ m = w.call r
  · obtain ⟨b, rfl, rfl⟩ := hrun
    rw [disp_fire_self]
    exact (Dispatch.hasSlot_mono hen.2.2.1 (hasSlot_of_sent hkind hsent)).2
  · rw [(disp_pc_fire a fun b hb hm => hrun ⟨b, hb, hm⟩).2.1]

/-- A row is copied by `copyRow`, and the range of its group stays what it is. -/
theorem ClaimsDecoded.copied_of_fire (h : c.ClaimsDecoded w) (hen : c.enabled w a)
    {d m e i : ℕ} (hd : d < c.numRanks) (hkind : (c.calls m).kind = .dispatch)
    (hcopied : ((c.fire w a).disp (d, m)).copied (e, i) = true) :
    (w.disp (d, m)).recv e = .ready ∧ i < (w.disp (d, m)).decodedCount e ∧
      ((c.fire w a).disp (d, m)).recvBegin e = (w.disp (d, m)).recvBegin e ∧
      ((w.disp (d, m)).copied (e, i) = true ∨ a = .dispatch d (.copyRow e i) ∧ m = w.call d) := by
  -- The step is one of this kernel, or it leaves the state of the kernel alone.
  have hclaims := h d hd m hkind
  by_cases hrun : ∃ b, a = .dispatch d b ∧ m = w.call d
  · obtain ⟨b, rfl, rfl⟩ := hrun
    obtain ⟨-, -, hb, -⟩ := hen
    rw [disp_fire_self] at hcopied ⊢
    -- Either the row was copied before, or this step copies it.
    cases (Dispatch.copied_fire (e, i)).mp hcopied with
    | inl hold =>
      obtain ⟨hready, hlt⟩ := hclaims.copied e i hold
      exact ⟨hready, hlt, Dispatch.recvBegin_fire hb hready, .inl hold⟩
    | inr heq =>
      subst heq
      obtain ⟨-, hready, hlt, -⟩ := id hb
      rw [hclaims.numRecv e (by rw [hready]; rfl)] at hlt
      exact ⟨hready, by exact_mod_cast hlt, Dispatch.recvBegin_fire hb hready, .inr ⟨rfl, rfl⟩⟩
  · obtain ⟨ws, activeRanks, heq⟩ :=
      disp_fire_of_ne (c := c) (w := w) a fun b hb hm => hrun ⟨b, hb, hm⟩
    rw [heq] at hcopied ⊢
    obtain ⟨hready, hlt⟩ := hclaims.copied e i hcopied
    exact ⟨hready, hlt, rfl, .inl hcopied⟩

/-- A token index is an `int`. -/
theorem Sound.token_lt (hv : c.Sound) {m s t : ℕ} (hm : c.HasCall m) (hs : s < c.numRanks)
    (ht : t < (c.launch s m).numTokens) : t < 2 ^ 31 := by
  have hmax := hv.numTokens_le hm hs
  have hstride : c.numMaxDispatchTokensPerRank ≤ c.stride :=
    Nat.le_mul_of_pos_left _ hv.numRanks_pos
  have hlt := hv.stride_lt
  omega

/-- In separate runs every copied row holds the message of its slot. -/
theorem outputs_of_separate (hv : c.Sound) (hw₀ : c.Init w₀)
    (h : (c.separate.startingAt w₀).Reachable w) : c.Outputs w := by
  -- At the start no row has been copied.
  refine h.invariant ?_ ?_
  · rintro q rfl d - m - e - i hcopied
    rw [(hw₀.disp _).copied] at hcopied
    cases hcopied
  · rintro q a q' hfrom hold ⟨-, hen, rfl⟩ d hd m hkind e he i hcopied key hkey hslot
    have hsep := hfrom.of_startingAt hw₀
    have hl := launches_of_reachable hv hsep.of_restrict
    have hq := queues_of_reachable hv hsep.of_restrict
    have hsettled := settled_of_run (fun _ _ hs => hs.own) hv hsep
    have hclaims := claimsDecoded_of_run (fun _ _ hs => hs.own) hv hsep
    replace hcopied : ((c.fire q a).disp (d, m)).copied (e, i) = true := hcopied
    replace hslot : ((c.fire q a).disp (e / c.numLocalExperts, m)).slot key = i := hslot
    show c.RowHolds (c.fire q a) d m _ (((c.fire q a).disp (d, m)).recvBegin e + i) _ _
    -- The row belongs to an expert that was claimed before the step.
    obtain ⟨hready, hlt, hbegin, hcases⟩ := hclaims.copied_of_fire hen hd hkind hcopied
    have hclaimed : ((q.disp (d, m)).recv e).isClaimed = true := by
      rw [hready]
      rfl
    have hm := hl.le_of_hasCount hd (Dispatch.RecvPc.hasCount_of_isClaimed hclaimed)
    obtain ⟨-, hlanded⟩ := hsettled.landed hv hl hq hd hkind he (by omega)
    -- All messages of the expert have landed by now.
    have hland := hlanded key hkey
    rw [slot_fire_of_sent hen hkind hland.1] at hslot
    have hrange := hclaims.begin_le hv hl hsettled hd hm hkind he hclaimed
    rw [hbegin]
    -- First a step that copies a row.
    by_cases hcopy : ∃ e₀ i₀, a = .dispatch d (.copyRow e₀ i₀) ∧ m = q.call d
    · obtain ⟨e₀, i₀, rfl, rfl⟩ := hcopy
      obtain ⟨-, -, ⟨he₀, hready₀, hlt₀, -⟩, -⟩ := hen
      have hclaimed₀ : ((q.disp (d, q.call d)).recv e₀).isClaimed = true := by
        rw [hready₀]
        rfl
      rw [(hclaims d hd _ hkind).numRecv e₀ (Dispatch.RecvPc.hasCount_of_isClaimed hclaimed₀)]
        at hlt₀
      have hlt₀ : i₀ < (q.disp (d, q.call d)).decodedCount e₀ := by exact_mod_cast hlt₀
      have hrange₀ := hclaims.begin_le hv hl hsettled hd le_rfl hkind he₀ hclaimed₀
      -- It copies this row, whose message is still intact.
      by_cases hsame : e = e₀ ∧ i = i₀
      · obtain ⟨rfl, rfl⟩ := hsame
        have hexpert := dataExpert_of_mem hkind hkey
        have htoken := hv.token_lt (hl.hasCall d hd) (hv.div_lt he)
          ((Launch.mem_tasks _).mp hkey).1.1
        have hmsg := intact_dispatch hv hw₀ (onTime_of_separate hfrom) (q.call d) hkind _
          (hv.div_lt he) key hland (by rw [hexpert, (mul_add_div_mod (hv.mod_lt e)).1])
        exact rowHolds_copyRow hv hmsg hkind hexpert hslot htoken (by omega) (by omega)
      · -- It copies another row, and the rows of different experts do not overlap.
        have hold' := hold d hd _ hkind e he i (hcases.resolve_right fun hnew => hsame (by
          cases hnew.1
          exact ⟨rfl, rfl⟩)) key hkey hslot
        refine hold'.copyRow (by omega) (by omega) (by omega) (by omega) fun heq => hsame ?_
        exact (hclaims d hd _ hkind).row_inj he he₀ hclaimed hclaimed₀ hlt hlt₀ heq.1 heq.2
    · -- No other step writes to the outputs.
      obtain ⟨hinfo, hx, hscales⟩ := outputs_fire_of_ne (c := c) (w := q) a
        fun e₀ i₀ ha hm => hcopy ⟨e₀, i₀, ha, hm⟩
      have hold' := hold d hd m hkind e he i (hcases.resolve_right fun hnew =>
        hcopy ⟨e, i, hnew⟩) key hkey hslot
      refine ⟨?_, ?_, ?_⟩
      · rw [hinfo]
        exact hold'.srcInfo
      · rw [hx]
        exact hold'.recvX
      · rw [hscales]
        exact hold'.recvScales

/-! ### What holds in separate runs -/

/-- What holds in the states of separate runs, with timeouts and without. -/
structure Facts (c : Config A) (w : World A) : Prop where
  sound : c.Sound
  launches : c.Launches w
  queues : c.Queues w
  settled : c.Settled w
  answered : c.Answered w
  claims : c.ClaimsDecoded w
  outputs : c.Outputs w

/-- What `Facts` says holds in every state of a separate run. -/
theorem facts_of_separate (hv : c.Sound) (h : c.separate.Reachable w) : c.Facts w := by
  obtain ⟨w₀, hw₀, hfrom⟩ := h.exists_startingAt
  exact
    { sound := hv
      launches := launches_of_reachable hv h.of_restrict
      queues := queues_of_reachable hv h.of_restrict
      settled := settled_of_run (fun _ _ hs => hs.own) hv h
      answered := answered_of_run (fun _ _ hs => hs.own) hv h
      claims := claimsDecoded_of_run (fun _ _ hs => hs.own) hv h
      outputs := outputs_of_separate hv hw₀ hfrom }

end EpDemo.System.Config
