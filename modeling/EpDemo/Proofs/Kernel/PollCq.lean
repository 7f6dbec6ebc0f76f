import EpDemo.Kernel.PollCq
import EpDemo.Library.Serial
import EpDemo.Proofs.Kernel.Wqe

/-!
# `EpDemo.Proofs.Kernel.PollCq`: when a poll returns too early

A look at the entry gives `wq_tail` the number of completions (`next_wqTail`), and the signed
difference of that number and a recent work request has the right sign: they are less than half of
the range apart. So a poll that has looked once waits as it should. Only the first test compares
with the number that the last poll saw, and that one can be any distance behind. `pollSound_iff`
says that the first test is the only thing that can go wrong, and for which distances it does.

What a poll leaves in `wq_tail` is valid for the next one in any case (`Valid.poll`), so the states
of `pollSound_iff` are those of every run (`valid_of_reachable`).
-/

set_option autoImplicit false

namespace EpDemo.Kernel

open EpDemo.Library

/-! ### One look -/

/-- `device_byteswap(uint16_t)` exchanges the two bytes. -/
theorem byte_deviceByteswap16 (x : BitVec 16) {i : ℕ} (hi : i < 2) :
    byte (deviceByteswap16 x) i = byte x (1 - i) := by
  have hperm : ∀ {s k : ℕ}, s % 16 = k → k < 2 →
      permByte (x.setWidth 32) (x.setWidth 32) s = byte x k := by
    intro s k hs hk
    rw [permByte_eq _ _ hs (by omega), byte_setWidth x (by omega)]
  rw [deviceByteswap16, byte_setWidth _ (by omega), bytePerm]
  obtain rfl | rfl : i = 0 ∨ i = 1 := by omega
  · rw [byte_append_zero]
    exact hperm (by decide) (by decide)
  · rw [byte_append_succ, byte_append_zero]
    exact hperm (by decide) (by decide)

/-- The two bytes that were loaded, the highest first. -/
theorem deviceByteswap16_eq (x : BitVec 16) (m : Bytes) (addr : ℕ) :
    deviceByteswap16 x = readBE (storeLE m addr 2 x) addr 2 := by
  symm
  refine readBE_storeLE fun i hi => ?_
  rw [byte_deviceByteswap16 x (by omega)]
  congr 1
  omega

/-- A look gives `wq_tail` the number of completions. -/
theorem CqeLoad.Shows.next_wqTail {l : CqeLoad} {completed : ℕ} (h : l.Shows completed) :
    deviceByteswap16 l.wqeCounterBe + 1 = BitVec.ofNat 16 completed := by
  have hread : deviceByteswap16 l.wqeCounterBe = BitVec.ofNat 16 (completed + 65535) :=
    (deviceByteswap16_eq l.wqeCounterBe (fun _ => 0) 0).trans h
  apply BitVec.eq_of_toNat_eq
  rw [hread, BitVec.toNat_add, BitVec.toNat_ofNat, BitVec.toNat_ofNat]
  show ((completed + 65535) % 65536 + 1) % 65536 = completed % 65536
  omega

/-! ### The loop -/

/-- The test of the loop against a number of completions that is behind the work request. -/
theorem stillWaits_iff {tail expect : ℕ} (h : tail ≤ expect) :
    stillWaits (BitVec.ofNat 16 tail) (BitVec.ofNat 16 expect) ↔ (expect - tail) % 65536 ≤ 32768 :=
  toInt_sub_nonpos_iff (by decide) h

/-- The number of completions in `wq_tail` never gets ahead of their number. -/
theorem getLastD_le {seen : List ℕ} :
    ∀ {tail completed now : ℕ}, tail ≤ completed →
      List.IsChain (· ≤ ·) (completed :: seen ++ [now]) →
      completed ≤ now ∧ seen.getLastD tail ≤ now := by
  induction seen with
  | nil =>
    intro tail completed now htail hgrows
    have hnow : completed ≤ now := List.isChain_pair.mp hgrows
    exact ⟨hnow, htail.trans hnow⟩
  | cons c seen ih =>
    intro tail completed now _ hgrows
    obtain ⟨hle, hgrows'⟩ : completed ≤ c ∧ List.IsChain (· ≤ ·) (c :: seen ++ [now]) :=
      List.isChain_cons_cons.mp hgrows
    obtain ⟨hnow, hlast⟩ := ih le_rfl hgrows'
    rw [List.getLastD_cons]
    exact ⟨hle.trans hnow, hlast⟩

/-- The numbers that were seen only grow. -/
theorem le_getLastD {seen : List ℕ} :
    ∀ {c now : ℕ}, List.IsChain (· ≤ ·) (c :: seen ++ [now]) → c ≤ seen.getLastD c := by
  induction seen with
  | nil => exact fun _ => le_rfl
  | cons d seen ih =>
    intro c now hgrows
    obtain ⟨hle, hgrows'⟩ : c ≤ d ∧ List.IsChain (· ≤ ·) (d :: seen ++ [now]) :=
      List.isChain_cons_cons.mp hgrows
    rw [List.getLastD_cons]
    exact hle.trans (ih hgrows')

/-- The loop from a value of `wq_tail` that stands for `tail` completions: the value after it stands
for the last number that was seen, and the last test did not hold for it. -/
theorem pollCq_returned {expect : BitVec 16} {loads : List CqeLoad} :
    ∀ {seen : List ℕ} {tail : ℕ} {wqTail : BitVec 16},
      List.Forall₂ CqeLoad.Shows loads seen →
      pollCq expect (BitVec.ofNat 16 tail) loads = .returned wqTail [] →
        wqTail = BitVec.ofNat 16 (seen.getLastD tail) ∧ ¬stillWaits wqTail expect := by
  induction loads with
  | nil =>
    intro seen tail wqTail hshows hpoll
    cases hshows
    rw [pollCq] at hpoll
    -- Without another look the test of the loop was false.
    split_ifs at hpoll with hwaits
    cases hpoll
    exact ⟨rfl, hwaits⟩
  | cons l loads ih =>
    intro seen tail wqTail hshows hpoll
    cases hshows with
    | cons hl hloads =>
      rw [pollCq] at hpoll
      dsimp only at hpoll
      -- A look that shows an entry moves the tail, and the loop tests again. An error ends it.
      split_ifs at hpoll with hwaits hopcode
      · rw [hl.next_wqTail] at hpoll
        rw [List.getLastD_cons]
        exact ih hloads hpoll
      · cases hpoll

/-! ### Polls -/

namespace SendCq

variable {numWqebb : ℕ} {s : SendCq} {expect : ℕ}

/-- What a poll leaves in `wq_tail`, whatever it waited for. -/
theorem wqTail_of_returned {loads : List CqeLoad} {seen : List ℕ} {now : ℕ} {wqTail : BitVec 16}
    (hs : s.Valid numWqebb) (hlooks : s.Looks loads seen now)
    (hpoll : pollCq (BitVec.ofNat 16 expect) s.wqTail loads = .returned wqTail []) :
    seen.getLastD s.tail ≤ now ∧ wqTail = BitVec.ofNat 16 (seen.getLastD s.tail) :=
  ⟨(getLastD_le hs.tail_le hlooks.grows).2, (pollCq_returned hlooks.shows hpoll).1⟩

/-- A poll that has looked at the entry returns when the work request has completed: the number that
it saw is less than half of the range away. -/
theorem completed_of_looked (hsize : numWqebb ≤ 32768) (hs : s.Valid numWqebb)
    (he : s.IsRecent numWqebb expect) {loads : List CqeLoad} {seen : List ℕ} {c now : ℕ}
    {wqTail : BitVec 16} (hlooks : s.Looks loads (c :: seen) now)
    (hpoll : pollCq (BitVec.ofNat 16 expect) s.wqTail loads = .returned wqTail []) :
    expect < now := by
  obtain ⟨hwqTail, hpass⟩ := pollCq_returned hlooks.shows hpoll
  rw [List.getLastD_cons] at hwqTail
  obtain ⟨hfirst, hgrows⟩ : s.completed ≤ c ∧ List.IsChain (· ≤ ·) (c :: seen ++ [now]) :=
    List.isChain_cons_cons.mp hlooks.grows
  have hlast : seen.getLastD c ≤ now := (getLastD_le le_rfl hgrows).2
  have hgrown : c ≤ seen.getLastD c := le_getLastD hgrows
  by_contra hnot
  rw [hwqTail] at hpass
  have hposted := hs.posted_le
  have hrecent := he.1
  exact hpass (toInt_sub_nonpos_of_near (by decide) (by omega)
    (show expect ≤ seen.getLastD c + 32768 by omega))

/-- A poll is sound when its work request has completed before, or when the number of completions
that the last poll saw is at most half of the range behind it, modulo the range. -/
theorem pollSound_of_near (hsize : numWqebb ≤ 32768) (hs : s.Valid numWqebb)
    (he : s.IsRecent numWqebb expect)
    (hcond : expect < s.completed ∨ (expect - s.tail) % 65536 ≤ 32768) : s.PollSound expect := by
  intro loads seen now hlooks wqTail hpoll
  refine ⟨?_, wqTail_of_returned hs hlooks hpoll⟩
  cases seen with
  | cons c seen => exact completed_of_looked hsize hs he hlooks hpoll
  | nil =>
    have hnow : s.completed ≤ now := (getLastD_le hs.tail_le hlooks.grows).1
    obtain ⟨hwqTail, hpass⟩ := pollCq_returned hlooks.shows hpoll
    cases hcond with
    | inl hdone => omega
    | inr hnear =>
      have htail := hs.tail_le
      by_contra hnot
      rw [hwqTail] at hpass
      exact hpass ((stillWaits_iff (show s.tail ≤ expect by omega)).mpr hnear)

/-- A poll that waits for a recent work request is sound if and only if the work request has
completed before the poll, or the number of completions that the last poll saw is at most half of
the range behind it, modulo the range. -/
theorem pollSound_iff (hsize : numWqebb ≤ 32768) (hs : s.Valid numWqebb)
    (he : s.IsRecent numWqebb expect) :
    s.PollSound expect ↔ expect < s.completed ∨ (expect - s.tail) % 65536 ≤ 32768 := by
  have htail := hs.tail_le
  constructor
  · intro hsound
    by_contra hbad
    obtain ⟨hnot, hfar⟩ := not_or.mp hbad
    -- The first test lets the work request pass, and nothing completes meanwhile.
    have hpass : ¬stillWaits s.wqTail (BitVec.ofNat 16 expect) :=
      fun hwaits => hfar ((stillWaits_iff (by omega)).mp hwaits)
    have hpoll : pollCq (BitVec.ofNat 16 expect) s.wqTail [] = .returned s.wqTail [] := by
      rw [pollCq, if_neg hpass]
    have hlooks : s.Looks [] [] s.completed := ⟨.nil, List.isChain_pair.mpr le_rfl⟩
    exact hnot (hsound [] [] s.completed hlooks s.wqTail hpoll).1
  · exact pollSound_of_near hsize hs he

/-- A fresh queue pair with two work requests in flight. -/
theorem pollSound_iff_fresh :
    (SendCq.mk 3 1 0).PollSound 2 ↔ 2 < 1 ∨ (2 - 0) % 65536 ≤ 32768 :=
  pollSound_iff (show 16384 ≤ 32768 by decide) ⟨by decide, by decide, by decide⟩
    ⟨by decide, by decide⟩

/-- No poll has looked at the entry for 32769 completions: the poll for the next work request
returns at once, and the work request has not completed. -/
theorem not_pollSound_stale :
    ¬∀ (numWqebb : ℕ) (s : SendCq) (expect : ℕ), numWqebb ≤ 32768 → s.Valid numWqebb →
      s.IsRecent numWqebb expect → s.PollSound expect := by
  intro h
  have hsound := h 16384 ⟨32770, 32769, 0⟩ 32769 (by decide) ⟨by decide, by decide, by decide⟩
    ⟨by decide, by decide⟩
  have hlooks : (SendCq.mk 32770 32769 0).Looks [] [] 32769 :=
    ⟨.nil, List.isChain_pair.mpr le_rfl⟩
  have hdone := (hsound [] [] 32769 hlooks 0 (by decide)).1
  exact absurd hdone (by decide)

/-! ### Runs -/

/-- Every step keeps the counters valid. -/
theorem Valid.step {a : Option ℕ} {s' : SendCq} (hs : s.Valid numWqebb)
    (hstep : Step numWqebb s a s') : s'.Valid numWqebb := by
  cases hstep with
  | post hroom =>
    exact ⟨hs.completed_le.trans (Nat.le_succ _), hroom, hs.tail_le⟩
  | complete hlt =>
    have hposted := hs.posted_le
    exact ⟨hlt, show s.posted ≤ s.completed + 1 + numWqebb by omega,
      hs.tail_le.trans (Nat.le_succ _)⟩
  | poll he hlooks hpoll hle hroom => exact ⟨hle, hroom, (wqTail_of_returned hs hlooks hpoll).1⟩

/-- The states that posts, completions and polls reach are valid, also when a poll returned too
early. -/
theorem valid_of_reachable (h : (system numWqebb).Reachable s) : s.Valid numWqebb := by
  induction h with
  | init hinit =>
    rw [hinit]
    exact ⟨le_rfl, Nat.zero_le _, le_rfl⟩
  | step _ hstep ih => exact ih.step hstep

/-- In every run, a poll that meets the condition returns when its work request has completed. -/
theorem completed_of_poll (hsize : numWqebb ≤ 32768) (h : (system numWqebb).Reachable s)
    {s' : SendCq} (hcond : expect < s.completed ∨ (expect - s.tail) % 65536 ≤ 32768)
    (hstep : Step numWqebb s (some expect) s') : expect < s'.completed := by
  cases hstep with
  | poll he hlooks hpoll hle hroom =>
    exact (pollSound_of_near hsize (valid_of_reachable h) he hcond _ _ _ hlooks _ hpoll).1

end SendCq

end EpDemo.Kernel
