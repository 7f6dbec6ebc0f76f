import Mathlib.Data.Nat.Notation

/-!
# `EpDemo.Library.Bytes`: words in byte memory

A processor stores a word little end first, and a device on the other side of the memory reads it
big end first. `storeLE` and `readBE` are the two sides. A word whose bytes are those of `x` in the
other order is read as `x` (`readBE_storeLE`), and a word is not touched by stores elsewhere
(`readBE_storeLE_of_disjoint`). Both go by bytes: `byte_readBE` says what each byte of a reading is,
and two words with the same bytes are the same (`eq_of_byte_eq`).
-/

set_option autoImplicit false

namespace EpDemo.Library

/-- Byte memory. -/
abbrev Bytes := ℕ → BitVec 8

/-- Byte `i` of a word, the lowest first. -/
def byte {w : ℕ} (x : BitVec w) (i : ℕ) : BitVec 8 := x.extractLsb' (8 * i) 8

/-- The low `n` bytes of a word are stored, the lowest first. -/
def storeLE {w : ℕ} (m : Bytes) (addr n : ℕ) (x : BitVec w) : Bytes :=
  fun a => if addr ≤ a ∧ a < addr + n then byte x (a - addr) else m a

/-- A word of `n` bytes, the lowest first. -/
def readLE (m : Bytes) : ℕ → (n : ℕ) → BitVec (8 * n)
  | _, 0 => 0#0
  | addr, n + 1 => readLE m (addr + 1) n ++ m addr

/-- A word of `n` bytes, the highest first. -/
def readBE (m : Bytes) (addr : ℕ) : (n : ℕ) → BitVec (8 * n)
  | 0 => 0#0
  | n + 1 => readBE m addr n ++ m (addr + n)

/-! ### Bytes of a word -/

/-- The bits of byte `i` are the eight bits of the word from bit `8 * i` on. -/
theorem getLsbD_byte {w : ℕ} (x : BitVec w) (i j : ℕ) :
    (byte x i).getLsbD j = (decide (j < 8) && x.getLsbD (8 * i + j)) :=
  BitVec.getLsbD_extractLsb' ..

/-- Words are their bytes. -/
theorem eq_of_byte_eq {n : ℕ} {x y : BitVec (8 * n)} (h : ∀ i < n, byte x i = byte y i) :
    x = y := by
  apply BitVec.eq_of_getLsbD_eq
  intro j hj
  have hbit : ∀ z : BitVec (8 * n), z.getLsbD j = (byte z (j / 8)).getLsbD (j % 8) := by
    intro z
    have hlt : j % 8 < 8 := Nat.mod_lt j (by decide)
    rw [getLsbD_byte, decide_eq_true hlt, Bool.true_and, Nat.div_add_mod]
  rw [hbit x, hbit y, h (j / 8) (by omega)]

/-- A byte appended at the low end is byte `0`. -/
@[simp] theorem byte_append_zero {w : ℕ} (x : BitVec w) (b : BitVec 8) : byte (x ++ b) 0 = b :=
  BitVec.extractLsb'_append_eq_right

/-- A byte appended at the low end moves the other bytes up by one. -/
@[simp] theorem byte_append_succ {w : ℕ} (x : BitVec w) (b : BitVec 8) (i : ℕ) :
    byte (x ++ b) (i + 1) = byte x i := by
  have hle : 8 ≤ 8 * (i + 1) := by omega
  rw [byte, BitVec.extractLsb'_append_eq_of_le hle]
  rfl

/-- The low bytes of two words together are those of the second. -/
theorem byte_append_of_lt {w v : ℕ} (x : BitVec w) (y : BitVec v) {i : ℕ} (h : 8 * i + 8 ≤ v) :
    byte (x ++ y) i = byte y i :=
  BitVec.extractLsb'_append_eq_of_add_le h

/-- A word of another width has the same low bytes. -/
theorem byte_setWidth {w : ℕ} (x : BitVec w) {v i : ℕ} (h : 8 * i + 8 ≤ v) :
    byte (x.setWidth v) i = byte x i := by
  apply BitVec.eq_of_getLsbD_eq
  intro j hj
  have hin : 8 * i + j < v := by omega
  rw [getLsbD_byte, getLsbD_byte, BitVec.getLsbD_setWidth]
  simp only [hj, hin, decide_true, Bool.true_and]

/-! ### Reading -/

/-- The word read at `addr` has the byte of the highest address as its byte `0`. -/
theorem byte_readBE (m : Bytes) (addr : ℕ) {n : ℕ} :
    ∀ {i : ℕ}, i < n → byte (readBE m addr n) i = m (addr + (n - 1 - i)) := by
  induction n with
  | zero => exact fun h => absurd h (Nat.not_lt_zero _)
  | succ n ih =>
    intro i hi
    cases i with
    | zero => exact byte_append_zero _ _
    | succ i =>
      show byte (readBE m addr n ++ m (addr + n)) (i + 1) = _
      rw [byte_append_succ, ih (by omega)]
      congr 2
      omega

/-- A reading depends on its own bytes only. -/
theorem readBE_congr {m m' : Bytes} {addr n : ℕ} (h : ∀ i < n, m (addr + i) = m' (addr + i)) :
    readBE m addr n = readBE m' addr n := by
  refine eq_of_byte_eq fun i hi => ?_
  rw [byte_readBE m addr hi, byte_readBE m' addr hi, h _ (by omega)]

/-! ### Stores -/

section

variable {w : ℕ} {m : Bytes} {addr n : ℕ} {x : BitVec w}

/-- The store puts byte `i` of the word at `addr + i`. -/
theorem storeLE_of_mem {i : ℕ} (h : i < n) : storeLE m addr n x (addr + i) = byte x i := by
  rw [storeLE, if_pos ⟨by omega, by omega⟩, Nat.add_sub_cancel_left]

/-- A store changes its own bytes only. -/
theorem storeLE_of_notMem {a : ℕ} (h : a < addr ∨ addr + n ≤ a) : storeLE m addr n x a = m a := by
  rw [storeLE, if_neg (by omega)]

/-- A read does not see a store to bytes it does not overlap. -/
theorem readBE_storeLE_of_disjoint {addr' n' : ℕ} (h : addr' + n' ≤ addr ∨ addr + n ≤ addr') :
    readBE (storeLE m addr n x) addr' n' = readBE m addr' n' :=
  readBE_congr fun _ _ => storeLE_of_notMem (by omega)

/-- A word that is stored with its bytes in the other order. -/
theorem readBE_storeLE {y : BitVec (8 * n)} (h : ∀ i < n, byte x i = byte y (n - 1 - i)) :
    readBE (storeLE m addr n x) addr n = y := by
  refine eq_of_byte_eq fun i hi => ?_
  rw [byte_readBE _ addr hi, storeLE_of_mem (by omega), h _ (by omega)]
  congr 1
  omega

end

end EpDemo.Library
