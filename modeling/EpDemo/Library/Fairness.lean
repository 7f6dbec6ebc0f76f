import EpDemo.Library.Transition
import Mathlib.Algebra.Order.BigOperators.Group.Finset
import Mathlib.Order.RelClasses

/-!
# `EpDemo.Library.Fairness`: executions of a machine, and what must happen in a fair one

An `Execution` goes on forever. At every moment an enabled action is taken or nothing is done, so
that a run that ends is an execution that does nothing from some moment on
(`Execution.ofSchedule`). It is `WeaklyFair` when no action that stays enabled is put off forever.

Programs that wait in a loop take steps that lead nowhere. `Idle` says which steps these are.
`Progress` is what makes a fair execution reach a goal although such steps can be taken without
end: every other step makes a well-founded measure fall, a step that leads nowhere keeps the
measure and does not disable a step that leads on, and before the goal there is always one of
those (`Progress.eventually`). The measures are sums over program counters of the steps that each
has left (`sum_update_lt`).
-/

set_option autoImplicit false

namespace EpDemo.Library

/-- A flag that is not set is one step. -/
def flagLeft (b : Bool) : ℕ := (!b).toNat

/-- A flag that gets set leaves less to do. -/
theorem flagLeft_lt {b : Bool} (h : b = false) : flagLeft true < flagLeft b := by
  subst h
  decide

/-- A sum over program counters falls with one of them. -/
theorem sum_update_lt {ι γ : Type*} [DecidableEq ι] {S : Finset ι} {f : ι → γ} (left : γ → ℕ)
    {i : ι} {v : γ} (hi : i ∈ S) (hlt : left v < left (f i)) :
    ∑ x ∈ S, left (Function.update f i v x) < ∑ x ∈ S, left (f x) := by
  refine Finset.sum_lt_sum (fun x _ => ?_) ⟨i, hi, ?_⟩
  · by_cases hx : x = i
    · subst hx
      rw [Function.update_self]
      exact hlt.le
    · rw [Function.update_of_ne hx]
  · rw [Function.update_self]
    exact hlt

/-- It stays when the new value counts as much. -/
theorem sum_update_eq {ι γ : Type*} [DecidableEq ι] {S : Finset ι} {f : ι → γ} (left : γ → ℕ)
    {i : ι} {v : γ} (heq : left v = left (f i)) :
    ∑ x ∈ S, left (Function.update f i v x) = ∑ x ∈ S, left (f x) := by
  refine Finset.sum_congr rfl fun x _ => ?_
  by_cases hx : x = i
  · subst hx
    rw [Function.update_self, heq]
  · rw [Function.update_of_ne hx]

namespace Machine

variable {σ α β : Type*}

/-- A schedule is legal when its first part is and the rest is from where that ends. -/
theorem legal_append {M : Machine σ α} (first : List α) :
    ∀ {s : σ} {rest : List α}, M.Legal s (first ++ rest) ↔
      M.Legal s first ∧ M.Legal (M.exec s first) rest := by
  induction first with
  | nil => exact fun {_ _} => ⟨fun h => ⟨trivial, h⟩, And.right⟩
  | cons a first ih => exact fun {_ _} => (and_congr_right fun _ => ih).trans and_assoc.symm

/-- What happens at every moment. -/
structure Execution (M : Machine σ α) (init : σ → Prop) where
  state : ℕ → σ
  action : ℕ → Option α
  start : init (state 0)
  enabled : ∀ n, ∀ a ∈ action n, M.enabled (state n) a
  next : ∀ n, state (n + 1) = (action n).elim (state n) (M.fire (state n))

namespace Execution

variable {M : Machine σ α} {init : σ → Prop}

/-- The states of an execution are states of a run. -/
theorem reachable (x : M.Execution init) (n : ℕ) : (M.system init).Reachable (x.state n) := by
  induction n with
  | zero => exact .init x.start
  | succ n ih =>
    rw [x.next n]
    cases ha : x.action n with
    | none => exact ih
    | some a => exact .step ih ⟨x.enabled n a ha, rfl⟩

/-- An action that is enabled from some moment on is taken after it. -/
def WeaklyFair (x : M.Execution init) : Prop :=
  ∀ n a, (∀ k, n ≤ k → M.enabled (x.state k) a) → ∃ k, n ≤ k ∧ x.action k = some a

/-- A legal schedule, after which nothing is done. -/
def ofSchedule (s : σ) (acts : List α) (hinit : init s) (hlegal : M.Legal s acts) :
    M.Execution init where
  state n := M.exec s (acts.take n)
  action n := acts[n]?
  start := hinit
  enabled n a ha := by
    obtain ⟨hn, rfl⟩ := List.getElem?_eq_some_iff.mp ha
    have htake := Legal.take acts hlegal (n + 1)
    rw [List.take_succ_eq_append_getElem hn] at htake
    exact ((legal_append _).mp htake).2.1
  next n := by
    cases ha : acts[n]? with
    | none =>
      have hlen := List.getElem?_eq_none_iff.mp ha
      rw [List.take_of_length_le hlen, List.take_of_length_le (by omega)]
      rfl
    | some a =>
      obtain ⟨hn, rfl⟩ := List.getElem?_eq_some_iff.mp ha
      rw [List.take_succ_eq_append_getElem hn]
      exact List.foldl_append ..

/-- It is fair when it ends where nothing can be done. -/
theorem ofSchedule_weaklyFair {s : σ} {acts : List α} (hinit : init s) (hlegal : M.Legal s acts)
    (hend : ∀ a, ¬M.enabled (M.exec s acts) a) : (ofSchedule s acts hinit hlegal).WeaklyFair := by
  intro n a hen
  have hlast := hen (n + acts.length) (Nat.le_add_right ..)
  rw [show (ofSchedule s acts hinit hlegal).state (n + acts.length) = M.exec s acts from
    congrArg (M.exec s) (List.take_of_length_le (Nat.le_add_left ..))] at hlast
  exact absurd hlast (hend a)

end Execution

/-- What leads to the goal, whatever is done in between. -/
structure Progress [Preorder β] (M : Machine σ α) (init : σ → Prop) (Idle : σ → α → Prop)
    (Goal : σ → Prop) (measure : σ → β) : Prop where
  /-- A step that leads on makes the measure fall. -/
  work : ∀ s a, (M.system init).Reachable s → ¬Goal s → M.enabled s a → ¬Idle s a →
    measure (M.fire s a) < measure s
  /-- A step that leads nowhere keeps the measure and the steps that lead on. -/
  idle : ∀ s a, (M.system init).Reachable s → ¬Goal s → M.enabled s a → Idle s a →
    measure (M.fire s a) ≤ measure s ∧
      ∀ b, M.enabled s b → ¬Idle s b → M.enabled (M.fire s a) b ∧ ¬Idle (M.fire s a) b
  /-- Before the goal there is a step that leads on. -/
  live : ∀ s, (M.system init).Reachable s → ¬Goal s → ∃ a, M.enabled s a ∧ ¬Idle s a

namespace Progress

variable [Preorder β] {M : Machine σ α} {init : σ → Prop} {Idle : σ → α → Prop}
  {Goal : σ → Prop} {measure : σ → β}

/-- A step that leads on stays enabled until it is taken or the measure falls. -/
theorem stays (h : Progress M init Idle Goal measure) (x : M.Execution init) {n : ℕ}
    (hgoal : ∀ k, n ≤ k → ¬Goal (x.state k))
    (hkeep : ∀ k, n ≤ k → ¬measure (x.state k) < measure (x.state n)) {a : α}
    (hen : M.enabled (x.state n) a) (hidle : ¬Idle (x.state n) a) (d : ℕ) :
    M.enabled (x.state (n + d)) a ∧ ¬Idle (x.state (n + d)) a ∧
      measure (x.state (n + d)) ≤ measure (x.state n) := by
  induction d with
  | zero => exact ⟨hen, hidle, le_rfl⟩
  | succ d ih =>
    obtain ⟨hen, hidle, hle⟩ := ih
    have hr := x.reachable (n + d)
    have hg := hgoal (n + d) (Nat.le_add_right ..)
    show M.enabled (x.state (n + d + 1)) a ∧ ¬Idle (x.state (n + d + 1)) a ∧
      measure (x.state (n + d + 1)) ≤ measure (x.state n)
    rw [x.next (n + d)]
    cases hb : x.action (n + d) with
    | none => exact ⟨hen, hidle, hle⟩
    | some b =>
      have hbe := x.enabled (n + d) b hb
      by_cases hbi : Idle (x.state (n + d)) b
      · -- The step that was enabled is still enabled after one that leads nowhere.
        obtain ⟨hm, hothers⟩ := h.idle _ b hr hg hbe hbi
        obtain ⟨hen', hidle'⟩ := hothers a hen hidle
        exact ⟨hen', hidle', hm.trans hle⟩
      · -- A step that leads on would have made the measure fall.
        have hlt := (h.work _ b hr hg hbe hbi).trans_le hle
        have hnext : x.state (n + d + 1) = M.fire (x.state (n + d)) b := by
          rw [x.next (n + d), hb]
          rfl
        rw [← hnext] at hlt
        exact absurd hlt (hkeep (n + d + 1) (by omega))

/-- A fair execution reaches the goal. -/
theorem eventually [WellFoundedLT β] (h : Progress M init Idle Goal measure)
    (x : M.Execution init) (hfair : x.WeaklyFair) : ∃ n, Goal (x.state n) := by
  by_contra hnever
  push Not at hnever
  -- The measure falls again and again.
  have hfall : ∀ n, ∃ k, n ≤ k ∧ measure (x.state k) < measure (x.state n) := by
    intro n
    by_contra hkeep
    push Not at hkeep
    obtain ⟨a, hen, hidle⟩ := h.live _ (x.reachable n) (hnever n)
    have hstays := h.stays x (fun k _ => hnever k) hkeep hen hidle
    obtain ⟨k, hk, ha⟩ := hfair n a fun k hk => by
      obtain ⟨d, rfl⟩ := Nat.exists_eq_add_of_le hk
      exact (hstays d).1
    obtain ⟨d, rfl⟩ := Nat.exists_eq_add_of_le hk
    have hlt := (h.work _ a (x.reachable _) (hnever _) (hstays d).1 (hstays d).2.1).trans_le
      (hstays d).2.2
    have hnext : x.state (n + d + 1) = M.fire (x.state (n + d)) a := by
      rw [x.next (n + d), ha]
      rfl
    rw [← hnext] at hlt
    exact hkeep (n + d + 1) (by omega) hlt
  have hnone : ∀ b n, measure (x.state n) = b → False := by
    intro b
    induction b using WellFoundedLT.induction with
    | ind b ih =>
      rintro n rfl
      obtain ⟨k, -, hlt⟩ := hfall n
      exact ih _ hlt k rfl
  exact hnone _ 0 rfl

end Progress

/-- From a state with `P` some schedule leads to the goal, when before the goal there is always an
action that keeps `P` and makes the measure fall. -/
theorem exists_reaching [Preorder β] [WellFoundedLT β] {M : Machine σ α} {P Goal : σ → Prop}
    {A : α → Prop} (measure : σ → β)
    (hstep : ∀ s, P s → ¬Goal s → ∃ a, A a ∧ M.enabled s a ∧ P (M.fire s a) ∧
      measure (M.fire s a) < measure s) {s : σ} (hs : P s) :
    ∃ acts : List α, (∀ a ∈ acts, A a) ∧ M.Legal s acts ∧ Goal (M.exec s acts) := by
  induction hb : measure s using WellFoundedLT.induction generalizing s with
  | ind b ih =>
    subst hb
    by_cases hgoal : Goal s
    · exact ⟨[], by simp, trivial, hgoal⟩
    · obtain ⟨a, ha, hen, hP, hlt⟩ := hstep s hs hgoal
      obtain ⟨acts, hall, hlegal, hreach⟩ := ih _ hlt hP rfl
      exact ⟨a :: acts, List.forall_mem_cons.mpr ⟨ha, hall⟩, ⟨hen, hlegal⟩, hreach⟩

end Machine

end EpDemo.Library
