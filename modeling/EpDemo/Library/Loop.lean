import Mathlib.Data.List.Basic
import Mathlib.Data.Nat.Find
import Mathlib.Data.Nat.Notation

/-!
# `EpDemo.Library.Loop`: counting loops

A loop `for (i = a; i < a + n; ++i)` over a state is a fold over `List.range' a n`, or a monadic
fold when the body can fail. Both have the usual rule: what holds before the loop and is kept by
every turn, with the counter, holds after it.

A body that can leave the loop early, with a reason and the state that it left, is the subject of
`forEach`. `forEach_range'_cases` is its rule: the loop runs to its end and the invariant holds
there, or some turn that started in the invariant left it. `forEach_range'_turns` is the form for a
body whose own lemma lists the ways in which a turn ends.

The turns of a loop with stride `d` that `d` threads share depend on the turn `d` before them
only, so while some turn is left there is one that can be taken (`exists_first_turn`).
-/

set_option autoImplicit false

namespace EpDemo.Library

variable {σ : Type*}

/-- The rule of a counting loop. -/
theorem foldl_range'_invariant {f : σ → ℕ → σ} {I : ℕ → σ → Prop} {a n : ℕ} {s : σ} (h0 : I a s)
    (hstep : ∀ i t, a ≤ i → i < a + n → I i t → I (i + 1) (f t i)) :
    I (a + n) ((List.range' a n).foldl f s) := by
  induction n with
  | zero => exact h0
  | succ n ih =>
    rw [List.range'_1_concat, List.foldl_append, List.foldl_cons, List.foldl_nil]
    exact hstep (a + n) _ (Nat.le_add_right a n) (by omega)
      (ih fun i t hlo hhi => hstep i t hlo (by omega))

/-- The rule of a counting loop whose body can fail. -/
theorem foldlM_range_invariant {f : σ → ℕ → Option σ} {I : ℕ → σ → Prop} {n : ℕ} {s s' : σ}
    (h0 : I 0 s) (hstep : ∀ i t t', i < n → I i t → f t i = some t' → I (i + 1) t')
    (h : (List.range n).foldlM f s = some s') : I n s' := by
  induction n generalizing s' with
  | zero =>
    obtain rfl : s = s' := Option.some.inj h
    exact h0
  | succ n ih =>
    -- The last turn comes after all the others.
    rw [List.range_succ, List.foldlM_append] at h
    obtain ⟨t, ht, hlast⟩ := Option.bind_eq_some_iff.mp h
    rw [List.foldlM_cons] at hlast
    obtain ⟨t', ht', hend⟩ := Option.bind_eq_some_iff.mp hlast
    obtain rfl : t' = s' := Option.some.inj hend
    exact hstep n t t' n.lt_succ_self (ih (fun i t t' hi => hstep i t t' (by omega)) ht) ht'

/-! ### Leaving a loop early -/

variable {ι ε : Type*}

/-- Continue with `f`, unless the first part was left early. -/
def andThen (r : σ × Option ε) (f : σ → σ × Option ε) : σ × Option ε :=
  match r with
  | (s, none) => f s
  | (s, some e) => (s, some e)

/-- After a step that goes well comes the next one. -/
@[simp] theorem andThen_none (s : σ) (f : σ → σ × Option ε) : andThen (s, none) f = f s := rfl

/-- After a step that fails comes nothing. -/
@[simp] theorem andThen_some (s : σ) (e : ε) (f : σ → σ × Option ε) :
    andThen (s, some e) f = (s, some e) := rfl

/-- Both parts ran to their ends. -/
theorem andThen_eq_none {r : σ × Option ε} {f : σ → σ × Option ε} {s : σ} :
    andThen r f = (s, none) ↔ ∃ t, r = (t, none) ∧ f t = (s, none) := by
  obtain ⟨t, _ | e⟩ := r
  · simp
  · simp

/-- Neither part was left early. -/
theorem andThen_snd_eq_none {r : σ × Option ε} {f : σ → σ × Option ε} :
    (andThen r f).2 = none ↔ r.2 = none ∧ (f r.1).2 = none := by
  obtain ⟨t, _ | e⟩ := r
  · simp
  · simp

/-- The second part does not run when the first one was left early. -/
theorem andThen_of_left {r : σ × Option ε} (f : σ → σ × Option ε) (h : r.2 ≠ none) :
    andThen r f = r := by
  obtain ⟨t, _ | e⟩ := r
  · exact absurd rfl h
  · rfl

/-- What both parts keep, whether they are left early or not, the whole keeps. -/
theorem andThen_invariant {I : σ → Prop} {r : σ × Option ε} {f : σ → σ × Option ε} (h : I r.1)
    (hf : ∀ t, r = (t, none) → I (f t).1) : I (andThen r f).1 := by
  obtain ⟨t, _ | e⟩ := r
  · exact hf t rfl
  · exact h

/-- A loop over a list whose body can leave it early. -/
def forEach (body : σ → ι → σ × Option ε) : List ι → σ → σ × Option ε
  | [], s => (s, none)
  | i :: rest, s => andThen (body s i) (forEach body rest)

/-- What every turn keeps, whether it leaves the loop or not, the loop keeps. -/
theorem forEach_invariant {body : σ → ι → σ × Option ε} {I : σ → Prop} {l : List ι} :
    ∀ {s : σ}, I s → (∀ i ∈ l, ∀ t, I t → I (body t i).1) → I (forEach body l s).1 := by
  induction l with
  | nil => exact fun h _ => h
  | cons i rest ih =>
    intro s h hstep
    have hnext := hstep i List.mem_cons_self s h
    rcases heq : body s i with ⟨t, _ | e⟩
    · rw [heq] at hnext
      simpa only [forEach, heq, andThen_none] using
        ih hnext fun j hj => hstep j (List.mem_cons_of_mem i hj)
    · rw [heq] at hnext
      simpa only [forEach, heq, andThen_some] using hnext

/-- The rule of a counting loop that can be left early. -/
theorem forEach_range'_cases {body : σ → ℕ → σ × Option ε} {I : ℕ → σ → Prop} {n : ℕ} :
    ∀ {a : ℕ} {s : σ}, I a s →
      (∀ i t t', a ≤ i → i < a + n → I i t → body t i = (t', none) → I (i + 1) t') →
      (∃ s', forEach body (List.range' a n) s = (s', none) ∧ I (a + n) s') ∨
        ∃ i t t' e, a ≤ i ∧ i < a + n ∧ I i t ∧ body t i = (t', some e) ∧
          forEach body (List.range' a n) s = (t', some e) := by
  induction n with
  | zero => exact fun h _ => Or.inl ⟨_, rfl, h⟩
  | succ n ih =>
    intro a s h hstep
    rw [List.range'_succ]
    rcases heq : body s a with ⟨t, _ | e⟩
    · -- The first turn succeeds, and the others are a shorter loop.
      have hfirst := hstep a s t le_rfl (by omega) h heq
      have hrest := ih hfirst fun i t t' hlo hhi => hstep i t t' (by omega) (by omega)
      rw [show a + 1 + n = a + (n + 1) by omega] at hrest
      simp only [forEach, heq, andThen_none]
      rcases hrest with hend | ⟨i, u, u', e, hlo, hhi, hrest⟩
      · exact Or.inl hend
      · exact Or.inr ⟨i, u, u', e, by omega, by omega, hrest⟩
    · -- The first turn fails, and the loop stops there.
      refine Or.inr ⟨a, s, t, e, le_rfl, by omega, h, heq, ?_⟩
      simp only [forEach, heq, andThen_some]

/-- The same rule from what a turn does: it goes on in the invariant, or it leaves with `Q`. -/
theorem forEach_range'_turns {body : σ → ℕ → σ × Option ε} {I : ℕ → σ → Prop}
    {Q : ℕ → σ → σ → ε → Prop} {n : ℕ} {s : σ} (hstart : I 0 s)
    (hturn : ∀ i t, i < n → I i t → (∃ t', body t i = (t', none) ∧ I (i + 1) t') ∨
      ∃ t' e, body t i = (t', some e) ∧ Q i t t' e) :
    (∃ t, forEach body (List.range' 0 n) s = (t, none) ∧ I n t) ∨
      ∃ i t t' e, forEach body (List.range' 0 n) s = (t', some e) ∧ i < n ∧ I i t ∧
        Q i t t' e := by
  have hkeep : ∀ i t t', 0 ≤ i → i < 0 + n → I i t → body t i = (t', none) → I (i + 1) t' := by
    intro i t t' _ hi ht hbody
    rcases hturn i t (by omega) ht with ⟨u, heq, hu⟩ | ⟨u, e, heq, -⟩
    · rw [hbody] at heq
      cases heq
      exact hu
    · rw [hbody] at heq
      cases heq
  rcases forEach_range'_cases hstart hkeep with
    ⟨t, hend, ht⟩ | ⟨i, t, t', e, -, hi, ht, hbody, hend⟩
  · rw [Nat.zero_add] at ht
    exact Or.inl ⟨t, hend, ht⟩
  · rcases hturn i t (by omega) ht with ⟨u, heq, -⟩ | ⟨u, e', heq, hleft⟩
    · rw [hbody] at heq
      cases heq
    · rw [hbody] at heq
      cases heq
      exact Or.inr ⟨i, t, t', e, hend, by omega, ht, hleft⟩

/-! ### Strides -/

/-- The first turn that is left of a strided loop. -/
theorem exists_first_turn {P : ℕ → Prop} {n d : ℕ} (hd : 0 < d) (h : ∃ i < n, ¬P i) :
    ∃ i < n, ¬P i ∧ (d ≤ i → P (i - d)) := by
  classical
  obtain ⟨hn, hleft⟩ := Nat.find_spec h
  refine ⟨Nat.find h, hn, hleft, fun hle => ?_⟩
  by_contra hprev
  exact Nat.find_min h (show Nat.find h - d < Nat.find h by omega) ⟨by omega, hprev⟩

end EpDemo.Library
