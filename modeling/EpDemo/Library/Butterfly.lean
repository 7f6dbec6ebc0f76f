import Mathlib.Algebra.Group.Nat.Defs
import Mathlib.Data.Nat.Bitwise
import Mathlib.Order.Lattice

/-!
# `EpDemo.Library.Butterfly`: reductions by exchange between lanes

In a step of a butterfly every lane combines its value with that of the lane whose number differs in
one bit. After the steps for bits `n - 1` to `0`, a lane has combined the values of the `2 ^ n`
lanes that differ from it in these bits at most (`butterfly_iff`). A lane that takes no part has no
value, and what is combined with it has none either.
-/

set_option autoImplicit false

namespace EpDemo.Library

variable {α : Type*}

/-- A combination has a value when both of its parts have. -/
def combine (op : α → α → α) (a b : Option α) : Option α := a.bind fun x => b.map (op x)

/-- One step, in which the numbers of the lanes differ by `mask`. -/
def shflXor (op : α → α → α) (mask : ℕ) (value : ℕ → Option α) (lane : ℕ) : Option α :=
  combine op (value lane) (value (lane ^^^ mask))

/-- The steps for bits `n - 1` to `0`. -/
def butterfly (op : α → α → α) : ℕ → (ℕ → Option α) → ℕ → Option α
  | 0, value => value
  | n + 1, value => butterfly op n (shflXor op (2 ^ n) value)

/-- Two numbers with the same half are equal or differ in the last bit. -/
theorem half_eq_iff (a b : ℕ) : a / 2 = b / 2 ↔ a = b ∨ a ^^^ 1 = b := by
  have hdiv : (a ^^^ 1) / 2 = a / 2 := by simp [Nat.xor_div_two]
  have hmod : (a ^^^ 1) % 2 = (a + 1) % 2 := Nat.xor_mod_two_eq
  omega

/-- A group of `2 ^ (n + 1)` lanes is two groups of `2 ^ n`, and the step for bit `n` goes from one
to the other. -/
theorem group_succ_iff (n l lane : ℕ) :
    l / 2 ^ (n + 1) = lane / 2 ^ (n + 1) ↔
      l / 2 ^ n = lane / 2 ^ n ∨ (l ^^^ 2 ^ n) / 2 ^ n = lane / 2 ^ n := by
  rw [Nat.pow_succ, ← Nat.div_div_eq_div_mul, ← Nat.div_div_eq_div_mul, half_eq_iff,
    Nat.xor_div_two_pow, Nat.div_self (Nat.two_pow_pos n)]

/-- What holds of a combination exactly when it holds of both parts, holds of the result of a lane
exactly when it holds of the values of its group. -/
theorem butterfly_iff {op : α → α → α} {Q : Option α → Prop}
    (hQ : ∀ a b, Q (combine op a b) ↔ Q a ∧ Q b) (n : ℕ) (value : ℕ → Option α) (lane : ℕ) :
    Q (butterfly op n value lane) ↔ ∀ l, l / 2 ^ n = lane / 2 ^ n → Q (value l) := by
  induction n generalizing value with
  | zero =>
    simp only [Nat.pow_zero, Nat.div_one]
    exact ⟨fun h l hl => hl ▸ h, fun h => h lane rfl⟩
  | succ n ih =>
    show Q (butterfly op n (shflXor op (2 ^ n) value) lane) ↔ _
    rw [ih]
    have hself : ∀ l : ℕ, l ^^^ 2 ^ n ^^^ 2 ^ n = l := fun l => by
      rw [Nat.xor_assoc, Nat.xor_self, Nat.xor_zero]
    constructor
    · intro h l hl
      cases (group_succ_iff n l lane).mp hl with
      | inl hsame => exact ((hQ _ _).mp (h l hsame)).1
      | inr hother =>
        -- The partner of `l` is in the group of `lane`, and has combined the value of `l`.
        have hpartner := ((hQ _ _).mp (h _ hother)).2
        rwa [hself] at hpartner
    · intro h l hl
      refine (hQ _ _).mpr ⟨h l ((group_succ_iff n l lane).mpr (Or.inl hl)), h _ ?_⟩
      refine (group_succ_iff n _ lane).mpr (Or.inr ?_)
      rwa [hself]

/-- A lane has a result when every lane of its group takes part. -/
theorem butterfly_isSome_iff (op : α → α → α) (n : ℕ) (value : ℕ → Option α) (lane : ℕ) :
    (butterfly op n value lane).isSome = true ↔
      ∀ l, l / 2 ^ n = lane / 2 ^ n → (value l).isSome = true := by
  refine butterfly_iff (Q := fun o => o.isSome = true) (fun a b => ?_) n value lane
  cases a <;> cases b <;> simp [combine]

/-- With the maximum as the operation, the result is the least upper bound of the group. -/
theorem butterfly_max_le_iff [LinearOrder α] (n : ℕ) (value : ℕ → Option α) (lane : ℕ) (bound : α) :
    (∃ x, butterfly max n value lane = some x ∧ x ≤ bound) ↔
      ∀ l, l / 2 ^ n = lane / 2 ^ n → ∃ x, value l = some x ∧ x ≤ bound := by
  refine butterfly_iff (Q := fun o => ∃ x, o = some x ∧ x ≤ bound) (fun a b => ?_) n value lane
  cases a <;> cases b <;> simp [combine]

end EpDemo.Library
