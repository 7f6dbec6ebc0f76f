import Mathlib.Data.Nat.Bitwise
import Mathlib.Data.Nat.ModEq
import Mathlib.Logic.Function.Basic

/-!
# `EpDemo.Library.Ring`: a ring that is written in order and consumed in order

The producer writes entry number `n` into the slot given by the low bits of a machine counter.
The consumer finishes the entries in order and arbitrarily late. A ring remembers, besides its
counter, which entry each slot holds and how many entries were written and consumed.

`Consistent.slot_eq` says that the slot of the next entry is its number modulo the size, also
when the counter has wrapped, and `Consistent.free_iff` that the slot can be overwritten
exactly while fewer entries than the size are outstanding.
-/

set_option autoImplicit false

namespace EpDemo.Library

/-- A ring with a counter of `bits` bits. -/
structure Ring (bits : ℕ) where
  head : BitVec bits
  entry : ℕ → Option ℕ
  written : ℕ
  consumed : ℕ

namespace Ring

variable {bits k : ℕ}

/-- A ring before the first entry. -/
def empty (bits : ℕ) : Ring bits where
  head := 0
  entry _ := none
  written := 0
  consumed := 0

/-- The slot of the next entry. -/
def slot (q : Ring bits) (mask : ℕ) : ℕ := q.head.toNat &&& mask

/-- The producer writes the next entry. -/
def write (q : Ring bits) (mask : ℕ) : Ring bits :=
  { q with
    head := q.head + 1
    entry := Function.update q.entry (q.slot mask) (some q.written)
    written := q.written + 1 }

/-- The consumer finishes the oldest entry. -/
def consume (q : Ring bits) : Ring bits := { q with consumed := q.consumed + 1 }

/-- The number of entries that were written and not consumed. -/
def outstanding (q : Ring bits) : ℕ := q.written - q.consumed

/-- The entry in the next slot, if there is one, was consumed. -/
def Free (q : Ring bits) (mask : ℕ) : Prop := ∀ i, q.entry (q.slot mask) = some i → i < q.consumed

/-- The counter counts the entries, and a slot holds the latest entry that belongs there, in a
ring of `2 ^ k` slots. -/
structure Consistent (k : ℕ) (q : Ring bits) : Prop where
  head : q.head = BitVec.ofNat bits q.written
  entry : ∀ s i, q.entry s = some i ↔ i < q.written ∧ i % 2 ^ k = s ∧ q.written ≤ i + 2 ^ k
  consumed_le : q.consumed ≤ q.written

/-- An empty ring is consistent. -/
theorem consistent_empty (bits k : ℕ) : Consistent k (empty bits) where
  head := rfl
  entry s i := by simp [empty]
  consumed_le := le_rfl

namespace Consistent

variable {q : Ring bits}

/-- The slot is the number of the entry modulo the size, for a counter that is wide enough. -/
theorem slot_eq (h : q.Consistent k) (hk : k ≤ bits) : q.slot (2 ^ k - 1) = q.written % 2 ^ k := by
  rw [slot, h.head, BitVec.toNat_ofNat, Nat.and_two_pow_sub_one_eq_mod]
  exact Nat.mod_mod_of_dvd _ (pow_dvd_pow 2 hk)

/-- A write keeps the ring consistent, also where the counters wrap. -/
theorem write (h : q.Consistent k) (hk : k ≤ bits) : (q.write (2 ^ k - 1)).Consistent k where
  head := by
    show q.head + 1 = BitVec.ofNat bits (q.written + 1)
    rw [h.head, BitVec.ofNat_add]
    rfl
  entry s i := by
    have hpos : 0 < 2 ^ k := Nat.two_pow_pos k
    show Function.update q.entry (q.slot (2 ^ k - 1)) (some q.written) s = some i ↔
      i < q.written + 1 ∧ i % 2 ^ k = s ∧ q.written + 1 ≤ i + 2 ^ k
    rw [h.slot_eq hk]
    by_cases hs : s = q.written % 2 ^ k
    · subst hs
      rw [Function.update_self, Option.some.injEq]
      constructor
      · rintro rfl
        omega
      · rintro ⟨hlt, hmod, hle⟩
        -- Two entries of one slot are a multiple of the size apart.
        by_contra hne
        have hdvd : 2 ^ k ∣ q.written - i := (Nat.modEq_iff_dvd' (by omega)).mp hmod
        have := Nat.le_of_dvd (by omega) hdvd
        omega
    · rw [Function.update_of_ne hs, h.entry]
      constructor
      · rintro ⟨hlt, hmod, hle⟩
        refine ⟨by omega, hmod, ?_⟩
        rcases hle.lt_or_eq with hlt' | heq
        · omega
        · refine absurd ?_ hs
          rw [heq, Nat.add_mod_right, hmod]
      · rintro ⟨hlt, hmod, hle⟩
        have hne : i ≠ q.written := by
          rintro rfl
          exact hs hmod.symm
        omega
  consumed_le := h.consumed_le.trans (Nat.le_succ _)

/-- A request that the consumer takes keeps the ring consistent. -/
theorem consume (h : q.Consistent k) (hlt : 0 < q.outstanding) : q.consume.Consistent k where
  head := h.head
  entry := h.entry
  consumed_le := by
    show q.consumed + 1 ≤ q.written
    unfold outstanding at hlt
    omega

/-- The next slot is free exactly while fewer entries than slots are outstanding. -/
theorem free_iff (h : q.Consistent k) (hk : k ≤ bits) :
    q.Free (2 ^ k - 1) ↔ q.outstanding < 2 ^ k := by
  have hle := h.consumed_le
  unfold Free outstanding
  rw [h.slot_eq hk]
  constructor
  · intro hfree
    by_contra hfull
    -- The entry one round ago is still outstanding.
    have hold : q.entry (q.written % 2 ^ k) = some (q.written - 2 ^ k) := by
      rw [h.entry]
      have hpos : 0 < 2 ^ k := Nat.two_pow_pos k
      refine ⟨by omega, ?_, by omega⟩
      exact (Nat.mod_eq_sub_mod (by omega)).symm
    have := hfree _ hold
    omega
  · intro hlt i hi
    obtain ⟨hi, hmod, -⟩ := (h.entry _ _).mp hi
    have hdvd : 2 ^ k ∣ q.written - i := (Nat.modEq_iff_dvd' hi.le).mp hmod
    have := Nat.le_of_dvd (by omega) hdvd
    omega

end Consistent

end Ring

end EpDemo.Library
