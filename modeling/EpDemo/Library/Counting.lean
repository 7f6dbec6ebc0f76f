import Mathlib.Algebra.BigOperators.Group.Finset.Basic
import Mathlib.Algebra.Group.End
import Mathlib.Data.Finset.Card
import Mathlib.Data.Finset.Prod
import Mathlib.Logic.Equiv.Set

/-!
# `EpDemo.Library.Counting`: counting elements by a predicate that changes at one point

A step of a machine that moves one program counter changes the number of program counters
with a property by one or not at all.

Two numberings of the same elements by the same numbers differ by a permutation of the numbers
(`exists_perm_of_bijOn`).
-/

set_option autoImplicit false

namespace EpDemo.Library

variable {α β : Type*} [DecidableEq α]

/-- One more element satisfies the predicate. -/
theorem filter_eq_insert {S : Finset α} {p p' : α → Prop} [DecidablePred p] [DecidablePred p']
    {a : α} (ha : a ∈ S) (hp' : p' a) (hsame : ∀ b, b ≠ a → (p' b ↔ p b)) :
    S.filter p' = insert a (S.filter p) := by
  ext b
  by_cases hb : b = a
  · subst hb
    simp [ha, hp']
  · simp [hb, hsame b hb]

/-- The count grows by one with one more element. -/
theorem card_filter_succ {S : Finset α} {p p' : α → Prop} [DecidablePred p] [DecidablePred p']
    {a : α} (ha : a ∈ S) (hp : ¬p a) (hp' : p' a) (hsame : ∀ b, b ≠ a → (p' b ↔ p b)) :
    (S.filter p').card = (S.filter p).card + 1 := by
  rw [filter_eq_insert ha hp' hsame, Finset.card_insert_of_notMem (by simp [hp])]

/-- A sum grows by the value of the one more element. -/
theorem sum_filter_succ {S : Finset α} {p p' : α → Prop} [DecidablePred p] [DecidablePred p']
    {a : α} (f : α → ℕ) (ha : a ∈ S) (hp : ¬p a) (hp' : p' a)
    (hsame : ∀ b, b ≠ a → (p' b ↔ p b)) : ∑ x ∈ S with p' x, f x = ∑ x ∈ S with p x, f x + f a := by
  rw [filter_eq_insert ha hp' hsame, Finset.sum_insert (by simp [hp]), Nat.add_comm]

/-- The count of a property of the values of a map, after the map changed at a point that
gains the property. -/
theorem card_filter_update_succ {S : Finset α} {f : α → β} {p : β → Prop} [DecidablePred p]
    {a : α} {b : β} (ha : a ∈ S) (hp : ¬p (f a)) (hb : p b) :
    (S.filter fun x => p (Function.update f a b x)).card = (S.filter fun x => p (f x)).card + 1 :=
  card_filter_succ ha hp (by simpa using hb) fun x hx => by simp [Function.update_of_ne hx]

/-- The count does not change when the point is not counted. -/
theorem card_filter_update_of_notMem {S : Finset α} {f : α → β} {p : β → Prop} [DecidablePred p]
    {a : α} {b : β} (ha : a ∉ S) :
    (S.filter fun x => p (Function.update f a b x)).card = (S.filter fun x => p (f x)).card := by
  refine congrArg Finset.card (Finset.filter_congr fun x hx => ?_)
  rw [Function.update_of_ne (ne_of_mem_of_not_mem hx ha)]

/-- The count does not change when the point keeps the property or its absence. -/
theorem card_filter_update_of_iff {S : Finset α} {f : α → β} {p : β → Prop} [DecidablePred p]
    {a : α} {b : β} (hb : p b ↔ p (f a)) :
    (S.filter fun x => p (Function.update f a b x)).card = (S.filter fun x => p (f x)).card := by
  refine congrArg Finset.card (Finset.filter_congr fun x _ => ?_)
  by_cases hx : x = a
  · subst hx
    simpa using hb
  · rw [Function.update_of_ne hx]

/-- All elements are counted when the count is the size of the set. -/
theorem forall_of_card_filter_eq {α : Type*} {S : Finset α} {p : α → Prop} [DecidablePred p]
    (h : (S.filter p).card = S.card) : ∀ x ∈ S, p x := by
  intro x hx
  have hall : S.filter p = S := Finset.eq_of_subset_of_card_le (Finset.filter_subset p S) h.ge
  exact (Finset.mem_filter.mp (hall ▸ hx)).2

/-- Two numberings of the same elements differ by a permutation of the numbers. -/
theorem exists_perm_of_bijOn {ι α : Type*} {s : Set ι} {t : Set α} {f g : ι → α}
    (hf : Set.BijOn f s t) (hg : Set.BijOn g s t) :
    ∃ σ : Equiv.Perm α, (∀ x ∈ s, σ (f x) = g x) ∧ ∀ a, a ∉ t → σ a = a := by
  classical
  refine ⟨Equiv.Perm.ofSubtype ((hf.equiv f).symm.trans (hg.equiv g)), fun x hx => ?_,
    fun a ha => ?_⟩
  · have hback : (hf.equiv f).symm ⟨f x, hf.mapsTo hx⟩ = ⟨x, hx⟩ := by
      rw [Equiv.symm_apply_eq]
      rfl
    rw [Equiv.Perm.ofSubtype_apply_of_mem _ (hf.mapsTo hx), Equiv.trans_apply, hback]
    rfl
  · exact Equiv.Perm.ofSubtype_apply_of_not_mem _ ha

end EpDemo.Library
