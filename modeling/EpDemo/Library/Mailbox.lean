import Mathlib.Data.List.Induction
import Mathlib.Data.Nat.Bitwise
import Mathlib.Logic.Function.Basic

/-!
# `EpDemo.Library.Mailbox`: fields of bits in a command

A command to a device is a block of bits, and a layout lists the fields of the block with their
widths in bits, one after another and the highest bit of each first. `store` and `read` are a field
at a given place. A read after a store gives the low bits of what was stored (`read_store`), and a
store leaves the fields elsewhere alone (`read_store_of_disjoint`). Two fields of one layout have no
bit in common (`Layout.disjoint`), so a command is read back field by field:
`Layout.readField_setAll` is what each field holds after any number of stores.

A field that is itself a block is laid out by `embed`, and its fields lie at their own offsets from
its start (`Layout.setField_embed`).
-/

set_option autoImplicit false

namespace EpDemo.Library

/-- The bits of a command, in the order of the layout. -/
abbrev Mailbox := ℕ → Bool

namespace Mailbox

/-- A block of zeros. -/
def zero : Mailbox := fun _ => false

/-- The low `width` bits of a number are stored at a place, the highest first. -/
def store (m : Mailbox) (offset width value : ℕ) : Mailbox := fun i =>
  if offset ≤ i ∧ i < offset + width then value.testBit (offset + width - 1 - i) else m i

/-- The number in the `width` bits at a place. -/
def read (m : Mailbox) (offset : ℕ) : ℕ → ℕ
  | 0 => 0
  | width + 1 => 2 * read m offset width + (m (offset + width)).toNat

/-- The bits of a reading. -/
theorem testBit_read (m : Mailbox) (offset width k : ℕ) :
    (m.read offset width).testBit k = (decide (k < width) && m (offset + width - 1 - k)) := by
  induction width generalizing k with
  | zero => simp [read]
  | succ width ih =>
    have hbit : ∀ (n : ℕ) (b : Bool), 2 * n + b.toNat = Nat.bit b n := by
      intro n b
      cases b <;> rfl
    rw [read, hbit]
    -- The last bit of the number is the last bit of the field.
    cases k with
    | zero =>
      rw [Nat.testBit_bit_zero]
      simp
    | succ k =>
      have hplace : offset + (width + 1) - 1 - (k + 1) = offset + width - 1 - k := by omega
      rw [Nat.testBit_bit_succ, ih, hplace]
      simp

/-- A reading depends on its own bits only. -/
theorem read_congr {m m' : Mailbox} {offset width : ℕ}
    (h : ∀ i, offset ≤ i → i < offset + width → m i = m' i) :
    m.read offset width = m'.read offset width := by
  apply Nat.eq_of_testBit_eq
  intro k
  rw [testBit_read, testBit_read]
  by_cases hk : k < width
  · rw [h _ (by omega) (by omega)]
  · simp [hk]

/-- What was stored is read, up to the bits that do not fit. -/
theorem read_store (m : Mailbox) (offset width value : ℕ) :
    (m.store offset width value).read offset width = value % 2 ^ width := by
  apply Nat.eq_of_testBit_eq
  intro k
  rw [testBit_read, Nat.testBit_mod_two_pow]
  by_cases hk : k < width
  · have hplace : offset + width - 1 - (offset + width - 1 - k) = k := by omega
    rw [store, if_pos ⟨by omega, by omega⟩, hplace]
  · simp [hk]

/-- A store leaves the other fields as they are. -/
theorem read_store_of_disjoint (m : Mailbox) {offset width value offset' width' : ℕ}
    (h : offset + width ≤ offset' ∨ offset' + width' ≤ offset) :
    (m.store offset width value).read offset' width' = m.read offset' width' := by
  refine read_congr fun i hle hlt => ?_
  rw [store, if_neg (by omega)]

/-- Every field of an empty mailbox is zero. -/
theorem read_zero (offset width : ℕ) : zero.read offset width = 0 := by
  apply Nat.eq_of_testBit_eq
  intro k
  rw [testBit_read]
  simp [zero]

/-- A store of two fields next to each other is one of both. -/
theorem store_store (m : Mailbox) (offset width width' value : ℕ) :
    (m.store offset width (value >>> width')).store (offset + width) width' value
      = m.store offset (width + width') value := by
  funext i
  simp only [store]
  by_cases hlow : offset + width ≤ i ∧ i < offset + width + width'
  · rw [if_pos hlow, if_pos ⟨by omega, by omega⟩, Nat.add_assoc]
  · by_cases hhigh : offset ≤ i ∧ i < offset + width
    · have hplace : width' + (offset + width - 1 - i) =
          offset + (width + width') - 1 - i := by omega
      rw [if_neg hlow, if_pos hhigh, if_pos ⟨by omega, by omega⟩, Nat.testBit_shiftRight, hplace]
    · rw [if_neg hlow, if_neg hhigh, if_neg (by omega)]

/-- A store takes the low bits. -/
theorem store_mod (m : Mailbox) (offset width value : ℕ) :
    m.store offset width (value % 2 ^ width) = m.store offset width value := by
  funext i
  simp only [store]
  by_cases h : offset ≤ i ∧ i < offset + width
  · rw [if_pos h, if_pos h, Nat.testBit_mod_two_pow, decide_eq_true (by omega), Bool.true_and]
  · rw [if_neg h, if_neg h]

/-! ### Bytes -/

/-- Bytes are copied to a place, the highest bit of each first. -/
def copy (m : Mailbox) (offset : ℕ) : List (BitVec 8) → Mailbox
  | [] => m
  | b :: rest => copy (m.store offset 8 b.toNat) (offset + 8) rest

/-- The number whose bytes these are, the highest first. -/
def bigEndian (bytes : List (BitVec 8)) : ℕ := bytes.foldl (fun n b => 256 * n + b.toNat) 0

/-- The last byte is the lowest one. -/
theorem bigEndian_append (bytes : List (BitVec 8)) (b : BitVec 8) :
    bigEndian (bytes ++ [b]) = 256 * bigEndian bytes + b.toNat := by
  rw [bigEndian, List.foldl_append]
  rfl

/-- The number fits into as many bits as there are. -/
theorem bigEndian_lt (bytes : List (BitVec 8)) : bigEndian bytes < 2 ^ (8 * bytes.length) := by
  induction bytes using List.reverseRecOn with
  | nil => exact Nat.one_pos
  | append_singleton bytes b ih =>
    have hlt : b.toNat < 256 := b.isLt
    have hpow : 2 ^ (8 * bytes.length + 8) = 256 * 2 ^ (8 * bytes.length) := by
      rw [Nat.pow_add, Nat.mul_comm]
    rw [bigEndian_append, List.length_append, List.length_singleton, Nat.mul_add, hpow]
    omega

/-- Two pieces copied one behind the other are copied as one. -/
theorem copy_append (l l' : List (BitVec 8)) (m : Mailbox) (offset : ℕ) :
    m.copy offset (l ++ l') = (m.copy offset l).copy (offset + 8 * l.length) l' := by
  induction l generalizing m offset with
  | nil => rfl
  | cons b rest ih =>
    show (m.store offset 8 b.toNat).copy (offset + 8) (rest ++ l') = _
    rw [ih, List.length_cons, Nat.mul_succ, Nat.add_comm (8 * rest.length) 8, Nat.add_assoc]
    rfl

/-- Copied bytes are one field. -/
theorem copy_eq_store (m : Mailbox) (offset : ℕ) (bytes : List (BitVec 8)) :
    m.copy offset bytes = m.store offset (8 * bytes.length) (bigEndian bytes) := by
  -- From the end: the last byte is the low one.
  induction bytes using List.reverseRecOn with
  | nil =>
    funext i
    rw [store, if_neg (by rw [List.length_nil]; omega)]
    rfl
  | append_singleton bytes b ih =>
    have hvalue := bigEndian_append bytes b
    have hlt : b.toNat < 256 := b.isLt
    have hhigh : bigEndian (bytes ++ [b]) >>> 8 = bigEndian bytes := by
      rw [hvalue, Nat.shiftRight_eq_div_pow]
      omega
    have hlow : bigEndian (bytes ++ [b]) % 2 ^ 8 = b.toNat := by
      rw [hvalue]
      omega
    have hlast : (m.copy offset bytes).copy (offset + 8 * bytes.length) [b]
        = (m.copy offset bytes).store (offset + 8 * bytes.length) 8 (bigEndian (bytes ++ [b])) := by
      rw [← store_mod, hlow]
      rfl
    rw [copy_append, hlast, ih, List.length_append, List.length_singleton, Nat.mul_add, Nat.mul_one,
      ← hhigh]
    exact store_store _ _ _ _ _

end Mailbox

/-- The fields of a block and their widths, in order. -/
abbrev Layout (F : Type*) := List (F × ℕ)

namespace Layout

variable {F G : Type*} [DecidableEq F] [DecidableEq G]

/-- Where a field starts. -/
def offset : Layout F → F → ℕ
  | [], _ => 0
  | (g, w) :: rest, f => if g = f then 0 else w + offset rest f

/-- The width of a field. -/
def width : Layout F → F → ℕ
  | [], _ => 0
  | (g, w) :: rest, f => if g = f then w else width rest f

/-- The width of the whole block. -/
def size (l : Layout F) : ℕ := (l.map Prod.snd).sum

/-- A block as part of another one. -/
def embed (g : F → G) (l : Layout F) : Layout G := l.map fun p => (g p.1, p.2)

/-- Two fields have no bit in common. -/
theorem disjoint {l : Layout F} {f g : F} (hf : f ∈ l.map Prod.fst) (hg : g ∈ l.map Prod.fst)
    (hne : f ≠ g) :
    l.offset f + l.width f ≤ l.offset g ∨ l.offset g + l.width g ≤ l.offset f := by
  induction l with
  | nil => cases hf
  | cons p rest ih =>
    obtain ⟨h, w⟩ := p
    rw [List.map_cons, List.mem_cons] at hf hg
    simp only [offset, width]
    -- One of the fields may be the first of the layout. Then it ends before the other one starts.
    by_cases hhf : h = f
    · have hhg : h ≠ g := fun heq => hne (hhf.symm.trans heq)
      rw [if_pos hhf, if_pos hhf, if_neg hhg]
      left
      omega
    · by_cases hhg : h = g
      · rw [if_neg hhf, if_pos hhg, if_pos hhg]
        right
        omega
      · have hf' : f ∈ rest.map Prod.fst := hf.resolve_left fun heq => hhf heq.symm
        have hg' : g ∈ rest.map Prod.fst := hg.resolve_left fun heq => hhg heq.symm
        rw [if_neg hhf, if_neg hhf, if_neg hhg, if_neg hhg]
        have := ih hf' hg'
        omega

/-! ### Fields of a block -/

/-- A field of a block is stored. -/
def setField (l : Layout F) (m : Mailbox) (f : F) (value : ℕ) : Mailbox :=
  m.store (l.offset f) (l.width f) value

/-- What a field of a block holds. -/
def readField (l : Layout F) (m : Mailbox) (f : F) : ℕ := m.read (l.offset f) (l.width f)

/-- Fields are stored one after the other. -/
def setAll (l : Layout F) (m : Mailbox) (sets : List (F × ℕ)) : Mailbox :=
  sets.foldl (fun m s => l.setField m s.1 s.2) m

/-- A field reads back what was written to it, cut to its width. -/
theorem readField_setField (l : Layout F) (m : Mailbox) (f : F) (value : ℕ) :
    l.readField (l.setField m f value) f = value % 2 ^ l.width f :=
  m.read_store _ _ _

/-- A write to one field of a layout does not change another. -/
theorem readField_setField_of_ne {l : Layout F} {f g : F} (hf : f ∈ l.map Prod.fst)
    (hg : g ∈ l.map Prod.fst) (hne : g ≠ f) (m : Mailbox) (value : ℕ) :
    l.readField (l.setField m g value) f = l.readField m f :=
  m.read_store_of_disjoint (disjoint hg hf hne)

/-- A field that is not among those that are stored. -/
theorem readField_setAll_of_notMem {l : Layout F} {f : F} (hf : f ∈ l.map Prod.fst)
    {sets : List (F × ℕ)} (hsets : sets.map Prod.fst ⊆ l.map Prod.fst)
    (hout : f ∉ sets.map Prod.fst) (m : Mailbox) :
    l.readField (l.setAll m sets) f = l.readField m f := by
  induction sets generalizing m with
  | nil => rfl
  | cons s rest ih =>
    rw [List.map_cons, List.mem_cons, not_or] at hout
    rw [List.map_cons, List.cons_subset] at hsets
    show l.readField (l.setAll (l.setField m s.1 s.2) rest) f = _
    rw [ih hsets.2 hout.2]
    exact readField_setField_of_ne hf hsets.1 (fun heq => hout.1 heq.symm) m _

/-- What the fields of a block hold that was zero and where each of the given fields was stored
once, up to the bits that do not fit. -/
theorem readField_setAll {l : Layout F} {f : F} (hf : f ∈ l.map Prod.fst) {sets : List (F × ℕ)}
    (hsets : sets.map Prod.fst ⊆ l.map Prod.fst) (hnodup : (sets.map Prod.fst).Nodup) :
    l.readField (l.setAll Mailbox.zero sets) f = (sets.lookup f).getD 0 % 2 ^ l.width f := by
  have hgen : ∀ m : Mailbox, l.readField m f = 0 →
      l.readField (l.setAll m sets) f = (sets.lookup f).getD 0 % 2 ^ l.width f := by
    -- Induction on the stores: the first one is for the field, or the field is still zero.
    induction sets with
    | nil =>
      intro m hm
      show l.readField m f = 0 % _
      rw [hm, Nat.zero_mod]
    | cons s rest ih =>
      intro m hm
      obtain ⟨g, value⟩ := s
      rw [List.map_cons, List.nodup_cons] at hnodup
      rw [List.map_cons, List.cons_subset] at hsets
      show l.readField (l.setAll (l.setField m g value) rest) f = _
      by_cases hgf : g = f
      · subst hgf
        have hlookup : ((g, value) :: rest).lookup g = some value := by
          rw [List.lookup_cons, beq_self_eq_true]
        rw [readField_setAll_of_notMem hf hsets.2 hnodup.1, readField_setField, hlookup]
        rfl
      · have hlookup : ((g, value) :: rest).lookup f = rest.lookup f := by
          have hbeq : (f == g) = false := beq_eq_false_iff_ne.mpr fun heq => hgf heq.symm
          rw [List.lookup_cons, hbeq]
        rw [hlookup]
        refine ih hsets.2 hnodup.2 _ ?_
        rw [readField_setField_of_ne hf hsets.1 hgf, hm]
  exact hgen _ (Mailbox.read_zero _ _)

/-- The block holds these fields, and zero in all of the others. -/
def Holds (l : Layout F) (m : Mailbox) (fields : List (F × ℕ)) : Prop :=
  ∀ f ∈ l.map Prod.fst, l.readField m f = (fields.lookup f).getD 0

/-- A block holds what was stored exactly if every value fits into its field. -/
theorem holds_setAll_iff {l : Layout F} {sets : List (F × ℕ)}
    (hsets : sets.map Prod.fst ⊆ l.map Prod.fst) (hnodup : (sets.map Prod.fst).Nodup) :
    l.Holds (l.setAll Mailbox.zero sets) sets ↔ ∀ s ∈ sets, s.2 < 2 ^ l.width s.1 := by
  have hpos : ∀ w, 0 < 2 ^ w := fun w => Nat.two_pow_pos w
  -- A list that sets no field twice gives back every value it has.
  have hlookup : ∀ s ∈ sets, sets.lookup s.1 = some s.2 := by
    clear hsets
    induction sets with
    | nil => exact fun s hs => by cases hs
    | cons t rest ih =>
      obtain ⟨g, value⟩ := t
      rw [List.map_cons, List.nodup_cons] at hnodup
      intro s hs
      cases hs with
      | head => rw [List.lookup_cons, beq_self_eq_true]
      | tail _ hs =>
        have hne : (s.1 == g) = false := by
          refine beq_eq_false_iff_ne.mpr fun heq => hnodup.1 ?_
          exact List.mem_map.mpr ⟨s, hs, heq⟩
        rw [List.lookup_cons, hne]
        exact ih hnodup.2 s hs
  constructor
  · -- A field that reads back what was set holds it, so the value fits.
    intro h s hs
    have hmem := hsets (List.mem_map_of_mem hs)
    have hread := h s.1 hmem
    rw [readField_setAll hmem hsets hnodup, hlookup s hs, Option.getD_some] at hread
    rw [← hread]
    exact Nat.mod_lt _ (hpos _)
  · -- A field that nobody set reads as zero.
    intro h f hf
    rw [readField_setAll hf hsets hnodup]
    refine Nat.mod_eq_of_lt ?_
    cases hf' : sets.lookup f with
    | none => exact hpos _
    | some value =>
      have hmem : (f, value) ∈ sets := by
        obtain ⟨l₁, l₂, heq, -⟩ := List.lookup_eq_some_iff.mp hf'
        rw [heq]
        exact List.mem_append_right _ List.mem_cons_self
      exact h _ hmem

/-! ### Blocks in blocks -/

/-- A field that the first part does not have lies in the second, behind all of the first. -/
theorem offset_append_of_notMem {l : Layout F} (l' : Layout F) {f : F} (h : f ∉ l.map Prod.fst) :
    offset (l ++ l') f = l.size + l'.offset f ∧ width (l ++ l') f = l'.width f := by
  induction l with
  | nil => exact ⟨(Nat.zero_add _).symm, rfl⟩
  | cons p rest ih =>
    obtain ⟨g, w⟩ := p
    rw [List.map_cons, List.mem_cons, not_or] at h
    -- The first field of the layout is not the one in question.
    have hne : g ≠ f := fun heq => h.1 heq.symm
    obtain ⟨hoffset, hwidth⟩ := ih h.2
    constructor
    · show (if g = f then 0 else w + offset (rest ++ l') f) = _
      rw [if_neg hne, hoffset, size, size, List.map_cons, List.sum_cons, Nat.add_assoc]
    · show (if g = f then w else width (rest ++ l') f) = _
      rw [if_neg hne, hwidth]

/-- A field of the first part lies where it did. -/
theorem offset_append_of_mem {l : Layout F} (l' : Layout F) {f : F} (h : f ∈ l.map Prod.fst) :
    offset (l ++ l') f = l.offset f ∧ width (l ++ l') f = l.width f := by
  induction l with
  | nil => cases h
  | cons p rest ih =>
    obtain ⟨g, w⟩ := p
    show (if g = f then 0 else w + offset (rest ++ l') f) =
      (if g = f then 0 else w + offset rest f) ∧
      (if g = f then w else width (rest ++ l') f) = if g = f then w else width rest f
    by_cases hgf : g = f
    · rw [if_pos hgf, if_pos hgf, if_pos hgf, if_pos hgf]
      exact ⟨rfl, rfl⟩
    · rw [List.map_cons, List.mem_cons] at h
      obtain ⟨hoffset, hwidth⟩ := ih (h.resolve_left fun heq => hgf heq.symm)
      rw [if_neg hgf, if_neg hgf, if_neg hgf, if_neg hgf, hoffset, hwidth]
      exact ⟨rfl, rfl⟩

/-- Renamed fields lie where they did. -/
theorem offset_embed {g : F → G} (hg : Function.Injective g) (l : Layout F) (f : F) :
    (embed g l).offset (g f) = l.offset f ∧ (embed g l).width (g f) = l.width f := by
  induction l with
  | nil => exact ⟨rfl, rfl⟩
  | cons p rest ih =>
    obtain ⟨h, w⟩ := p
    constructor
    · show (if g h = g f then 0 else w + offset (embed g rest) (g f))
        = if h = f then 0 else w + offset rest f
      simp only [hg.eq_iff, ih.1]
    · show (if g h = g f then w else width (embed g rest) (g f)) = if h = f then w else width rest f
      simp only [hg.eq_iff, ih.2]

/-- A field of a block in a block lies at its own offset from the start of the inner block. -/
theorem setField_embed {g : F → G} (hg : Function.Injective g) {head tail : Layout G} {l : Layout F}
    {f : F} (hf : f ∈ l.map Prod.fst) (hout : g f ∉ head.map Prod.fst) (m : Mailbox) (value : ℕ) :
    setField (head ++ (embed g l ++ tail)) m (g f) value
      = m.store (head.size + l.offset f) (l.width f) value := by
  have hmem : g f ∈ (embed g l).map Prod.fst := by
    obtain ⟨p, hp, rfl⟩ := List.mem_map.mp hf
    exact List.mem_map.mpr ⟨(g p.1, p.2), List.mem_map.mpr ⟨p, hp, rfl⟩, rfl⟩
  obtain ⟨hoffset, hwidth⟩ := offset_append_of_notMem (embed g l ++ tail) hout
  obtain ⟨hoffset', hwidth'⟩ := offset_append_of_mem tail hmem
  obtain ⟨hoffset'', hwidth''⟩ := offset_embed hg l f
  rw [setField, hoffset, hwidth, hoffset', hwidth', hoffset'', hwidth'']

end Layout

end EpDemo.Library
