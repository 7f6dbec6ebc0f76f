import Mathlib.Data.Nat.Notation
import Mathlib.Tactic.TypeStar

/-!
# `EpDemo.Library.Descent`: systems whose runs all end in the same state

Every step has a size, and `Path R s n t` is a run from `s` to `t` whose steps have the size `n`
together. In a `Balanced` system two ways to go on from a state can be completed to the same
state, and the two completed ways have the same size.

When one run of such a system gets stuck, then so does every other: it can be continued to the
same state, by what its size falls short of the size of the first (`Balanced.descend`). So a
single schedule shows that all schedules end, and where (`Balanced.stuck_iff`).
-/

set_option autoImplicit false

namespace EpDemo.Library

variable {σ : Type*} {R : σ → ℕ → σ → Prop}

/-- Some steps, with their size. -/
inductive Path (R : σ → ℕ → σ → Prop) : σ → ℕ → σ → Prop
  | refl (s : σ) : Path R s 0 s
  | step {s t u : σ} {n m : ℕ} : R s n t → Path R t m u → Path R s (n + m) u

namespace Path

/-- One step is a path. -/
theorem single {s t : σ} {n : ℕ} (h : R s n t) : Path R s n t := .step h (.refl t)

/-- Paths are put together. -/
theorem trans {s t u : σ} {n m : ℕ} (h : Path R s n t) (h' : Path R t m u) :
    Path R s (n + m) u := by
  induction h with
  | refl s =>
    rw [Nat.zero_add]
    exact h'
  | step hstep _ ih =>
    rw [Nat.add_assoc]
    exact .step hstep (ih h')

/-- What every step keeps. -/
theorem invariant {I : σ → Prop} (hstep : ∀ s n t, I s → R s n t → I t) {s t : σ} {n : ℕ}
    (h : Path R s n t) (hs : I s) : I t := by
  induction h with
  | refl s => exact hs
  | step hfirst _ ih => exact ih (hstep _ _ _ hs hfirst)

/-- A path is empty or has a last step. -/
theorem exists_last {s u : σ} {n : ℕ} (h : Path R s n u) :
    s = u ∨ ∃ t m k, Path R s m t ∧ R t k u := by
  induction h with
  | refl s => exact .inl rfl
  | @step s t u n m hstep _ ih =>
    right
    cases ih with
    | inl htu =>
      subst htu
      exact ⟨s, 0, n, .refl s, hstep⟩
    | inr hlast =>
      obtain ⟨t', m', k, hpath, hlast⟩ := hlast
      exact ⟨t', n + m', k, .step hstep hpath, hlast⟩

end Path

/-- No step leads on. -/
def Stuck (R : σ → ℕ → σ → Prop) (s : σ) : Prop := ∀ n t, ¬R s n t

/-- From a stuck state no run leads on. -/
theorem Stuck.of_path {s t : σ} {n : ℕ} (hs : Stuck R s) (h : Path R s n t) : t = s ∧ n = 0 := by
  cases h with
  | refl => exact ⟨rfl, rfl⟩
  | step hstep _ => exact absurd hstep (hs _ _)

/-- Two ways on from a state meet again, after the same size. -/
structure Balanced (R : σ → ℕ → σ → Prop) : Prop where
  pos : ∀ s n t, R s n t → 0 < n
  meet : ∀ s n t m u, R s n t → R s m u →
    ∃ v i j, Path R t i v ∧ Path R u j v ∧ n + i = m + j

namespace Balanced

/-- When a run gets stuck, every other run from the same state leads there. -/
theorem descend (hR : Balanced R) {N : ℕ} :
    ∀ {s t : σ}, Path R s N t → Stuck R t → ∀ {n : ℕ} {u : σ}, Path R s n u →
      ∃ k, Path R u k t ∧ n + k = N := by
  induction N using Nat.strongRecOn with
  | ind N ih =>
    intro s t hend hstuck n u hrun
    cases hrun with
    | refl => exact ⟨N, hend, Nat.zero_add N⟩
    | @step _ s' _ a m hfirst hrun =>
      cases hend with
      | refl => exact absurd hfirst (hstuck _ _)
      | @step _ s'' _ b M hfirst' hend =>
        have ha := hR.pos _ _ _ hfirst
        have hb := hR.pos _ _ _ hfirst'
        obtain ⟨v, i, j, hi, hj, heq⟩ := hR.meet _ _ _ _ _ hfirst hfirst'
        -- From where they meet the rest of the first run is left.
        obtain ⟨k, hk, hsum⟩ := ih M (by omega) hend hstuck hj
        obtain ⟨k', hk', hsum'⟩ := ih (i + k) (by omega) (hi.trans hk) hstuck hrun
        exact ⟨k', hk', by omega⟩

/-- A run that moves nothing stays where it is. -/
theorem eq_of_zero (hR : Balanced R) {s t : σ} {n : ℕ} (h : Path R s n t) (hn : n = 0) : t = s := by
  cases h with
  | refl => rfl
  | step hstep _ =>
    have := hR.pos _ _ _ hstep
    omega

/-- When a run gets stuck, no run is longer, and the runs that are as long are those that get
stuck. They end in the same state. -/
theorem stuck_iff (hR : Balanced R) {s t u : σ} {N n : ℕ} (hend : Path R s N t)
    (hstuck : Stuck R t) (h : Path R s n u) :
    n ≤ N ∧ (n = N ↔ Stuck R u) ∧ (n = N ↔ u = t) := by
  -- The run that ends can be taken from `u`, with the steps that are left.
  obtain ⟨k, hk, hsum⟩ := hR.descend hend hstuck h
  have hlast : n = N → u = t := fun hnN => (hR.eq_of_zero hk (by omega)).symm
  -- From a stuck state no step is left.
  have hfirst : Stuck R u → n = N := by
    intro hu
    have := (hu.of_path hk).2
    omega
  refine ⟨by omega, ⟨fun hnN => ?_, hfirst⟩, hlast, fun heq => hfirst ?_⟩
  · rw [hlast hnN]
    exact hstuck
  · rw [heq]
    exact hstuck

end Balanced

end EpDemo.Library
