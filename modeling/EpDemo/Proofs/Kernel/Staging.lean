import EpDemo.Kernel.Staging
import EpDemo.Proofs.Kernel.WarpCopy
import Mathlib.Data.List.Perm.Basic

/-!
# `EpDemo.Proofs.Kernel.Staging`: the token warps write each word of a row once

Sixteen vectors are 128 channels, and they are the vectors of one half of a warp in one turn of the
loop. So a reduction over the half gives the largest magnitude of these channels
(`halfWarpReduceMax_warpAmax`), and the scale that lane 0 or 16 stores is the one that all sixteen
vectors were cast with (`vectorStores_eq`).

Every word belongs to one vector (`wordVector`) and every vector to one thread, so nothing is stored
twice (`staged_once_iff`). Without whole groups of 128 channels, the last half warp would read from
lanes that have left the loop.
-/

set_option autoImplicit false

namespace EpDemo.Kernel.Staging

open EpDemo.Library

variable {F : Type} [LinearOrder F] {f : Floats F} {p : Shape} {x : ℕ → BitVec 16}
  {token thread i : ℕ}

/-! ### The largest magnitude -/

/-- A running maximum is below a bound when its start and all values are. -/
theorem foldl_max_le_iff (g : ℕ → F) (l : List ℕ) (init bound : F) :
    l.foldl (fun a j => max a (g j)) init ≤ bound ↔ init ≤ bound ∧ ∀ j ∈ l, g j ≤ bound := by
  induction l generalizing init with
  | nil => simp
  | cons j l ih =>
    rw [List.foldl_cons, ih, max_le_iff, List.forall_mem_cons, and_assoc]

/-- The maximum of a thread over its own vector. -/
theorem vectorAmax_le_iff (i : ℕ) (bound : F) :
    vectorAmax f x i ≤ bound ↔
      f.kFP8Margin ≤ bound ∧ ∀ j < kNumElemsPerRead, f.fabsf (fp32Value f x i j) ≤ bound := by
  rw [vectorAmax, foldl_max_le_iff]
  simp only [List.mem_range]

/-- The maximum over the channels of a scale. -/
theorem groupAmax_le_iff (s : ℕ) (bound : F) :
    groupAmax f x s ≤ bound ↔ f.kFP8Margin ≤ bound ∧
      ∀ k < kNumPerChannels, f.fabsf (f.bfloat162float (x (s * kNumPerChannels + k))) ≤ bound := by
  rw [groupAmax, Finset.fold_max_le]
  simp only [Finset.mem_range]

/-- The sixteen vectors around vector `i` are the 128 channels with its scale. -/
theorem vectors_le_iff (i : ℕ) (bound : F) :
    (∀ v, v / 16 = i / 16 → vectorAmax f x v ≤ bound) ↔ groupAmax f x (i / 16) ≤ bound := by
  rw [groupAmax_le_iff]
  simp only [vectorAmax_le_iff]
  constructor
  · intro h
    refine ⟨(h i rfl).1, fun k hk => ?_⟩
    have hk : k < 128 := hk
    have hvector := (h (i / 16 * 16 + k / 8) (by omega)).2 (k % 8) (Nat.mod_lt k (by decide))
    have hchannel : (i / 16 * 16 + k / 8) * 8 + k % 8 = i / 16 * 128 + k := by omega
    simp only [fp32Value, kNumElemsPerRead, hchannel] at hvector
    exact hvector
  · rintro ⟨hmargin, hgroup⟩ v hv
    refine ⟨hmargin, fun j hj => ?_⟩
    have hj : j < 8 := hj
    have hchannel : v * 8 + j = i / 16 * 128 + (v % 16 * 8 + j) := by omega
    show f.fabsf (f.bfloat162float (x (v * 8 + j))) ≤ bound
    rw [hchannel]
    exact hgroup _ (by show v % 16 * 8 + j < 128; omega)

/-- The four shuffles of the half warp are a butterfly. -/
theorem halfWarpReduceMax_eq : halfWarpReduceMax (F := F) = butterfly max 4 := rfl

/-- The reduction over a half warp, when all its vectors exist. -/
theorem halfWarpReduceMax_warpAmax (hwhole : hiddenBf16Int4 p % 16 = 0)
    (hi : i < hiddenBf16Int4 p) :
    halfWarpReduceMax (warpAmax f p x (i - i % 32)) (i % 32) = some (groupAmax f x (i / 16)) := by
  have hactive : ∀ l, l / 16 = i % 32 / 16 → i - i % 32 + l < hiddenBf16Int4 p ∧
      (i - i % 32 + l) / 16 = i / 16 := fun l hl => by omega
  -- The bounds of the result are those of the 128 channels.
  have hbound : ∀ bound, (∃ a, halfWarpReduceMax (warpAmax f p x (i - i % 32)) (i % 32) = some a ∧
      a ≤ bound) ↔ groupAmax f x (i / 16) ≤ bound := by
    intro bound
    rw [halfWarpReduceMax_eq, butterfly_max_le_iff, ← vectors_le_iff]
    constructor
    · intro h v hv
      obtain ⟨a, ha, hle⟩ := h (v - (i - i % 32)) (by omega)
      rw [warpAmax, if_pos (hactive _ (by omega)).1, Option.some.injEq] at ha
      rwa [← ha, show i - i % 32 + (v - (i - i % 32)) = v by omega] at hle
    · intro h l hl
      exact ⟨_, if_pos (hactive l hl).1, h _ (hactive l hl).2⟩
  obtain ⟨a, ha, hle⟩ := (hbound _).mpr le_rfl
  rw [ha, le_antisymm hle ((hbound a).mp ⟨a, ha, le_rfl⟩)]

/-! ### The words of a vector -/

/-- The words of the payload that a vector has. -/
def wordsPerVector (p : Shape) : ℕ := if p.useFp8 then 2 else 4

/-- The vector whose thread stores a word. -/
def wordVector (p : Shape) (word : ℕ) : Option ℕ :=
  if word < 4 then none
  else if word < 4 + p.hiddenBytes / 4 then some ((word - 4) / wordsPerVector p)
  else if word < p.numBytesPerMsg / 4 then some (16 * (word - 4 - p.hiddenBytes / 4))
  else none

/-- A word is stored by the thread of its vector, and the token index by thread 0. -/
theorem stagingThread_eq (p : Shape) (word : ℕ) :
    p.stagingThread word =
      if word = 0 then some 0 else (wordVector p word).map (· % numThreads) := by
  unfold Shape.stagingThread wordVector
  by_cases hzero : word = 0
  · rw [if_pos hzero, if_pos hzero]
  · rw [if_neg hzero, if_neg hzero]
    split
    · rfl
    · split
      · rfl
      · split <;> rfl

/-- The words that are stored for a vector: its scale, and its part of the payload. -/
def vectorWords (p : Shape) (i : ℕ) : List ℕ :=
  (if p.useFp8 = true ∧ i % 16 = 0 then [4 + p.hiddenBytes / 4 + i / 16] else []) ++
    (List.range (wordsPerVector p)).map fun n => 4 + (i * wordsPerVector p + n)

/-- A vector has at least one word. -/
theorem wordsPerVector_pos (p : Shape) : 0 < wordsPerVector p := by
  unfold wordsPerVector
  split <;> decide

/-- The payload is the words of the vectors. -/
theorem payload_words (hread : p.hidden % kNumElemsPerRead = 0) :
    p.hiddenBytes / 4 = hiddenBf16Int4 p * wordsPerVector p := by
  have hread : p.hidden % 8 = 0 := hread
  unfold Shape.hiddenBytes hiddenBf16Int4 wordsPerVector kNumElemsPerRead
  cases p.useFp8
  · simp only [Bool.false_eq_true, if_false]
    omega
  · simp only [if_true]
    omega

/-- After it are the scales, one for every sixteen vectors. -/
theorem message_words (hread : p.hidden % kNumElemsPerRead = 0) :
    p.numBytesPerMsg / 4 =
      4 + p.hiddenBytes / 4 + if p.useFp8 then hiddenBf16Int4 p / 16 else 0 := by
  have hread : p.hidden % 8 = 0 := hread
  unfold Shape.numBytesPerMsg Shape.hiddenBytes Shape.numScales hiddenBf16Int4 kNumElemsPerRead
  cases p.useFp8
  · simp only [Bool.false_eq_true, if_false]
    omega
  · simp only [if_true]
    omega

/-- The words of the payload of a vector. -/
theorem mem_payload_iff {word : ℕ} :
    (∃ n < wordsPerVector p, 4 + (i * wordsPerVector p + n) = word) ↔
      4 ≤ word ∧ (word - 4) / wordsPerVector p = i := by
  have hpos := wordsPerVector_pos p
  constructor
  · rintro ⟨n, hn, rfl⟩
    refine ⟨by omega, ?_⟩
    rw [Nat.add_sub_cancel_left, Nat.mul_comm, Nat.mul_add_div hpos, Nat.div_eq_of_lt hn,
      Nat.add_zero]
  · rintro ⟨hle, rfl⟩
    refine ⟨(word - 4) % wordsPerVector p, Nat.mod_lt _ hpos, ?_⟩
    rw [Nat.div_add_mod']
    omega

/-- The words that are stored for a vector are those that belong to it. -/
theorem mem_vectorWords_iff (hread : p.hidden % kNumElemsPerRead = 0)
    (hwhole : p.useFp8 = true → hiddenBf16Int4 p % 16 = 0) (hi : i < hiddenBf16Int4 p) {word : ℕ} :
    word ∈ vectorWords p i ↔ wordVector p word = some i := by
  have hpayload := payload_words hread
  have hmessage := message_words hread
  have hpos := wordsPerVector_pos p
  have hmem : word ∈ vectorWords p i ↔
      (p.useFp8 = true ∧ i % 16 = 0 ∧ word = 4 + p.hiddenBytes / 4 + i / 16) ∨
        4 ≤ word ∧ (word - 4) / wordsPerVector p = i := by
    rw [vectorWords, List.mem_append, List.mem_map, ← mem_payload_iff]
    simp only [List.mem_range]
    refine or_congr ?_ Iff.rfl
    split
    · rename_i hscale
      rw [List.mem_singleton]
      exact ⟨fun h => ⟨hscale.1, hscale.2, h⟩, fun h => h.2.2⟩
    · rename_i hscale
      exact ⟨fun h => absurd h List.not_mem_nil, fun h => absurd ⟨h.1, h.2.1⟩ hscale⟩
  rw [hmem, wordVector]
  by_cases hheader : word < 4
  · rw [if_pos hheader]
    constructor
    · rintro (⟨-, -, rfl⟩ | ⟨hle, -⟩) <;> omega
    · exact fun h => by cases h
  rw [if_neg hheader]
  by_cases hword : word < 4 + p.hiddenBytes / 4
  · rw [if_pos hword, Option.some.injEq]
    constructor
    · rintro (⟨-, -, rfl⟩ | ⟨-, h⟩)
      · omega
      · exact h
    · exact fun h => Or.inr ⟨by omega, h⟩
  -- Behind the payload there are only scales.
  have hbehind : ¬(4 ≤ word ∧ (word - 4) / wordsPerVector p = i) := by
    rintro ⟨-, hvector⟩
    have hlt := (Nat.div_lt_iff_lt_mul hpos).mp (hvector ▸ hi)
    omega
  rw [if_neg hword, or_iff_left hbehind]
  cases hfp8 : p.useFp8 with
  | false =>
    rw [hfp8] at hmessage
    rw [if_neg (by simp only [Bool.false_eq_true, if_false] at hmessage; omega)]
    simp
  | true =>
    rw [hfp8] at hmessage
    simp only [if_true] at hmessage
    have hwhole := hwhole hfp8
    by_cases hlt : word < p.numBytesPerMsg / 4
    · rw [if_pos hlt, Option.some.injEq]
      constructor
      · rintro ⟨-, hzero, rfl⟩
        omega
      · exact fun h => ⟨rfl, by omega, by omega⟩
    · rw [if_neg hlt]
      constructor
      · rintro ⟨-, hzero, rfl⟩
        omega
      · exact fun h => by cases h

/-- A thread stores every one of its words once. -/
theorem nodup_vectorWords (hread : p.hidden % kNumElemsPerRead = 0) (hi : i < hiddenBf16Int4 p) :
    (vectorWords p i).Nodup := by
  rw [vectorWords, List.nodup_append]
  refine ⟨?_, List.nodup_range.map fun n n' h => ?_, fun a ha b hb hab => ?_⟩
  · split
    · exact List.nodup_singleton _
    · exact List.nodup_nil
  · have h : 4 + (i * wordsPerVector p + n) = 4 + (i * wordsPerVector p + n') := h
    omega
  · -- A scale is behind the payload.
    subst hab
    obtain ⟨n, hn, rfl⟩ := List.mem_map.mp hb
    have hpayload := payload_words hread
    have hend : (i + 1) * wordsPerVector p ≤ hiddenBf16Int4 p * wordsPerVector p :=
      Nat.mul_le_mul_right _ hi
    rw [Nat.succ_mul] at hend
    rw [List.mem_range] at hn
    split at ha
    · have heq := List.mem_singleton.mp ha
      omega
    · exact absurd ha List.not_mem_nil

/-! ### The stores of a vector -/

/-- Behind the four words of the header comes the payload. -/
theorem stagedWord_payload {k : ℕ} (hk : k < p.hiddenBytes / 4) :
    stagedWord f p x token (4 + k) = payloadWord f p x k := by
  rw [stagedWord, if_neg (by omega), if_pos (by omega), Nat.add_sub_cancel_left]

/-- Behind the payload come the scales. -/
theorem stagedWord_scale (s : ℕ) :
    stagedWord f p x token (4 + p.hiddenBytes / 4 + s) = scaleWord f x s := by
  rw [stagedWord, if_neg (by omega), if_neg (by omega)]
  congr 1
  omega

/-- A thread stores for a vector the words that belong to it, as the row is to have them. -/
theorem vectorStores_eq (hread : p.hidden % kNumElemsPerRead = 0)
    (hwhole : p.useFp8 = true → hiddenBf16Int4 p % 16 = 0) (hi : i < hiddenBf16Int4 p)
    (hlane : i % 32 = thread % 32) :
    vectorStores f p x thread i =
      some ((vectorWords p i).map fun word => (word, stagedWord f p x token word)) := by
  have hpayload := payload_words hread
  have hword : ∀ n < wordsPerVector p, stagedWord f p x token (4 + (i * wordsPerVector p + n)) =
      payloadWord f p x (i * wordsPerVector p + n) := by
    intro n hn
    refine stagedWord_payload ?_
    have hend : (i + 1) * wordsPerVector p ≤ hiddenBf16Int4 p * wordsPerVector p :=
      Nat.mul_le_mul_right _ hi
    rw [Nat.succ_mul] at hend
    omega
  rw [vectorStores, ← hlane, vectorWords, List.map_append, List.map_map]
  cases hfp8 : p.useFp8 with
  | false =>
    simp only [wordsPerVector, hfp8, Bool.false_eq_true, if_false, false_and] at hword ⊢
    rw [bf16Stores, List.map_nil, List.nil_append]
    refine congrArg some (List.map_congr_left fun n hn => ?_)
    show _ = (4 + (i * 4 + n), stagedWord f p x token (4 + (i * 4 + n)))
    rw [hword n (List.mem_range.mp hn), payloadWord, hfp8]
    simp only [Bool.false_eq_true, if_false, kNumElemsPerRead]
    rw [show 2 * (i * 4 + n) + 1 = i * 8 + (2 * n + 1) by omega,
      show 2 * (i * 4 + n) = i * 8 + 2 * n by omega]
  | true =>
    have hamax := halfWarpReduceMax_warpAmax (f := f) (x := x) (hwhole hfp8) hi
    simp only [wordsPerVector, hfp8, if_true, true_and] at hword ⊢
    rw [fp8Stores, hamax]
    show some _ = _
    refine congrArg some (congrArg₂ (· ++ ·) ?_ (List.map_congr_left fun n hn => ?_))
    · -- The lane that stores the scale is the first of its half.
      have hgroup : i * kNumElemsPerRead / 128 = i / 16 := by
        show i * 8 / 128 = i / 16
        omega
      by_cases hfirst : i % 16 = 0
      · rw [if_pos (by omega), if_pos hfirst, List.map_singleton, stagedWord_scale, hgroup]
        rfl
      · rw [if_neg (by omega), if_neg hfirst, List.map_nil]
    · show _ = (4 + (i * 2 + n), stagedWord f p x token (4 + (i * 2 + n)))
      have hn : n < 2 := List.mem_range.mp hn
      rw [hword n hn, payloadWord, if_pos hfp8]
      -- The four channels have the scale of the vector.
      have hgroup : ∀ k < 4, (4 * (i * 2 + n) + k) / kNumPerChannels = i / 16 := fun k hk => by
        show (4 * (i * 2 + n) + k) / 128 = i / 16
        omega
      have hchannel : ∀ k, 4 * (i * 2 + n) + k = i * 8 + (4 * n + k) := fun k => by omega
      have hzero : 4 * (i * 2 + n) = 4 * (i * 2 + n) + 0 := rfl
      simp only [castPair, fp32Value, kNumElemsPerRead]
      rw [hgroup 2 (by decide), hzero, hgroup 0 (by decide)]
      simp only [hchannel, Nat.add_zero, Nat.add_assoc]

/-! ### The stores of a thread -/

/-- A list of parts that all give a result gives all results. -/
theorem mapM_eq_some {α β : Type} {g : α → Option β} {h : α → β} :
    ∀ {l : List α}, (∀ a ∈ l, g a = some (h a)) → l.mapM g = some (l.map h) := by
  intro l
  induction l with
  | nil => exact fun _ => rfl
  | cons a l ih =>
    intro hl
    rw [List.mapM_cons, hl a List.mem_cons_self, ih fun b hb => hl b (List.mem_cons_of_mem a hb)]
    rfl

/-- One part without a result is enough for none at all. -/
theorem mapM_eq_none {α β : Type} {g : α → Option β} {l : List α} {a : α} (ha : a ∈ l)
    (hnone : g a = none) : l.mapM g = none := by
  induction l with
  | nil => cases ha
  | cons b l ih =>
    rw [List.mapM_cons]
    cases List.mem_cons.mp ha with
    | inl heq =>
      rw [← heq, hnone]
      rfl
    | inr hmem =>
      cases g b with
      | none => rfl
      | some y =>
        rw [ih hmem]
        rfl

/-- The turns of a thread. -/
theorem turns_spec (hint : p.hidden < intBound) (hthread : thread < numThreads) :
    ∃ turns, strided intBound numThreads (hiddenBf16Int4 p) thread = some turns ∧ turns.Nodup ∧
      ∀ i, i ∈ turns ↔ i < hiddenBf16Int4 p ∧ i % numThreads = thread := by
  have hthreads : numThreads = 992 := rfl
  have hbound : intBound = 2 ^ 31 := rfl
  have hvectors : hiddenBf16Int4 p = p.hidden / 8 := rfl
  have hb : ∀ k, thread ≤ k → k < hiddenBf16Int4 p → k % numThreads = thread % numThreads →
      k + numThreads < intBound := fun k _ hlt _ => by omega
  obtain ⟨turns, heq, hnodup, hmem⟩ := strided_spec (by decide : 0 < numThreads) hb
  refine ⟨turns, heq, hnodup, fun i => ?_⟩
  rw [hmem, Nat.mod_eq_of_lt hthread]
  constructor
  · exact fun h => h.2
  · intro h
    have hle := Nat.mod_le i numThreads
    omega

/-- The stores of a thread are the words that the thread has, as the row is to have them. -/
theorem threadStores_spec (hread : p.hidden % kNumElemsPerRead = 0) (hint : p.hidden < intBound)
    (hwhole : p.useFp8 = true → hiddenBf16Int4 p % 16 = 0) (hthread : thread < numThreads) :
    ∃ words : List ℕ, threadStores f p x token thread =
        some (words.map fun word => (word, stagedWord f p x token word)) ∧
      words.Nodup ∧ ∀ word, word ∈ words ↔ p.stagingThread word = some thread := by
  obtain ⟨turns, heq, hnodup, hmem⟩ := turns_spec hint hthread
  -- A thread works on vectors of its own lane.
  have hlane : ∀ i ∈ turns, i % 32 = thread % 32 := by
    intro i hi
    have hmod : i % 992 = thread := ((hmem i).mp hi).2
    omega
  have hvectors : turns.mapM (vectorStores f p x thread) = some (turns.map fun i =>
      (vectorWords p i).map fun word => (word, stagedWord f p x token word)) :=
    mapM_eq_some fun i hi => vectorStores_eq hread hwhole ((hmem i).mp hi).1 (hlane i hi)
  -- Its words are those of its vectors.
  have hflat : ∀ word, word ∈ turns.flatMap (vectorWords p) ↔
      (wordVector p word).map (· % numThreads) = some thread := by
    intro word
    rw [List.mem_flatMap, Option.map_eq_some_iff]
    constructor
    · rintro ⟨i, hi, hword⟩
      obtain ⟨hlt, hmod⟩ := (hmem i).mp hi
      exact ⟨i, (mem_vectorWords_iff hread hwhole hlt).mp hword, hmod⟩
    · -- Only vectors within the token have words.
      rintro ⟨i, hvector, hmod⟩
      have hlt : i < hiddenBf16Int4 p := by
        have hpayload := payload_words hread
        have hmessage := message_words hread
        unfold wordVector at hvector
        split at hvector
        · cases hvector
        · split at hvector
          · cases hvector
            refine (Nat.div_lt_iff_lt_mul (wordsPerVector_pos p)).mpr ?_
            omega
          · split at hvector
            · cases hvector
              cases hfp8 : p.useFp8 <;> rw [hfp8] at hmessage <;>
                simp only [if_true, Bool.false_eq_true, if_false] at hmessage <;> omega
            · cases hvector
      exact ⟨i, (hmem i).mpr ⟨hlt, hmod⟩, (mem_vectorWords_iff hread hwhole hlt).mpr hvector⟩
  -- The source index is a word of its own, and thread 0 stores it.
  have hzero : 0 ∉ turns.flatMap (vectorWords p) := by
    rw [hflat]
    exact fun h => by cases h
  refine ⟨(if thread = 0 then [0] else []) ++ turns.flatMap (vectorWords p), ?_, ?_, fun word => ?_⟩
  · rw [threadStores, heq]
    show (turns.mapM (vectorStores f p x thread)).bind _ = _
    rw [hvectors]
    show some _ = some _
    rw [List.map_append, List.map_flatMap, List.flatMap_def]
    congr 2
    split <;> rfl
  · rw [List.nodup_append]
    refine ⟨by split <;> simp, List.nodup_flatMap.mpr ⟨fun i hi =>
      nodup_vectorWords hread ((hmem i).mp hi).1, ?_⟩, fun a ha b hb hab => ?_⟩
    · -- A word belongs to one vector.
      refine hnodup.pairwise_of_forall_ne fun i hi i' hi' hne => ?_
      show List.Disjoint (vectorWords p i) (vectorWords p i')
      intro word hword hword'
      have hvector := (mem_vectorWords_iff hread hwhole ((hmem i).mp hi).1).mp hword
      rw [(mem_vectorWords_iff hread hwhole ((hmem i').mp hi').1).mp hword'] at hvector
      exact hne (Option.some.inj hvector).symm
    · subst hab
      split at ha
      · rw [List.mem_singleton] at ha
        exact hzero (ha ▸ hb)
      · exact absurd ha List.not_mem_nil
  · rw [List.mem_append, stagingThread_eq]
    -- The source index and the other words.
    by_cases hword : word = 0
    · subst hword
      rw [if_pos rfl, or_iff_left hzero, Option.some.injEq]
      split
      · rename_i hfirst
        rw [hfirst, List.mem_singleton]
      · rename_i hlater
        exact ⟨fun h => absurd h List.not_mem_nil, fun h => absurd h.symm hlater⟩
    · rw [if_neg hword, hflat, or_iff_right]
      split <;> simp [hword]

/-- In a row with an unfinished group of 128 channels some thread has no defined stores. -/
theorem exists_threadStores_eq_none (hint : p.hidden < intBound) (hfp8 : p.useFp8 = true)
    (hpart : hiddenBf16Int4 p % 16 ≠ 0) :
    ∃ thread < numThreads, threadStores f p x token thread = none := by
  -- The first vector of the unfinished group, and the lane of the last one.
  obtain ⟨i, hi⟩ : ∃ i, i = hiddenBf16Int4 p / 16 * 16 := ⟨_, rfl⟩
  have hthread : i % numThreads < numThreads := Nat.mod_lt i (by decide)
  refine ⟨i % numThreads, hthread, ?_⟩
  obtain ⟨turns, heq, -, hmem⟩ := turns_spec hint hthread
  have hlane : i % numThreads % 32 = i % 32 := by
    show i % 992 % 32 = i % 32
    omega
  have hmissing : halfWarpReduceMax (warpAmax f p x (i - i % 32)) (i % 32) = none := by
    rw [← Option.not_isSome_iff_eq_none, halfWarpReduceMax_eq, butterfly_isSome_iff]
    intro hall
    have hlast := hall (i % 32 + 15) (by omega)
    rw [warpAmax, if_neg (by omega)] at hlast
    cases hlast
  have hnone : vectorStores f p x (i % numThreads) i = none := by
    rw [vectorStores, if_pos hfp8, hlane, fp8Stores, hmissing]
    rfl
  rw [threadStores, heq]
  show (turns.mapM (vectorStores f p x (i % numThreads))).bind _ = none
  rw [mapM_eq_none ((hmem i).mpr ⟨by omega, rfl⟩) hnone]
  rfl

/-! ### The token warps -/

/-- The words that some thread stores. -/
theorem exists_stagingThread_iff (hread : p.hidden % kNumElemsPerRead = 0) {word : ℕ} :
    (∃ thread < numThreads, p.stagingThread word = some thread) ↔
      word < p.numBytesPerMsg / 4 ∧ (word = 0 ∨ 4 ≤ word) := by
  have hpos : 0 < numThreads := by decide
  have hmessage := message_words hread
  rw [stagingThread_eq]
  by_cases hzero : word = 0
  · -- The first word is the source index. The next three are not written.
    subst hzero
    rw [if_pos rfl]
    exact ⟨fun _ => ⟨by omega, Or.inl rfl⟩, fun _ => ⟨0, hpos, rfl⟩⟩
  · rw [if_neg hzero, or_iff_right hzero, wordVector]
    by_cases hheader : word < 4
    · rw [if_pos hheader]
      refine ⟨fun h => ?_, fun h => by omega⟩
      obtain ⟨_, _, h⟩ := h
      cases h
    · rw [if_neg hheader]
      -- Then comes the payload.
      by_cases hword : word < 4 + p.hiddenBytes / 4
      · rw [if_pos hword]
        exact ⟨fun _ => by omega, fun _ => ⟨_, Nat.mod_lt _ hpos, rfl⟩⟩
      · rw [if_neg hword]
        -- Then come the scales, up to the end of the message.
        by_cases hlt : word < p.numBytesPerMsg / 4
        · rw [if_pos hlt]
          exact ⟨fun _ => by omega, fun _ => ⟨_, Nat.mod_lt _ hpos, rfl⟩⟩
        · rw [if_neg hlt]
          refine ⟨fun h => ?_, fun h => by omega⟩
          obtain ⟨_, _, h⟩ := h
          cases h

/-- The token warps store every word of a row exactly once, with the scale of its 128 channels, if
and only if with FP8 the channels are whole groups of 128. -/
theorem staged_once_iff (f : Floats F) (p : Shape) (x : ℕ → BitVec 16) (token : ℕ)
    (hread : p.hidden % kNumElemsPerRead = 0) (hint : p.hidden < intBound) :
    StagedOnce f p x token ↔ (p.useFp8 = true → p.hidden % kNumPerChannels = 0) := by
  have hgroups : hiddenBf16Int4 p % 16 = 0 ↔ p.hidden % kNumPerChannels = 0 := by
    have hread : p.hidden % 8 = 0 := hread
    show p.hidden / 8 % 16 = 0 ↔ p.hidden % 128 = 0
    omega
  simp only [← hgroups]
  constructor
  · rintro ⟨stores, hstores, -⟩ hfp8
    by_contra hpart
    obtain ⟨thread, hthread, hnone⟩ :
        ∃ thread < numThreads, threadStores f p x token thread = none :=
      exists_threadStores_eq_none hint hfp8 hpart
    rw [hstores thread hthread] at hnone
    cases hnone
  · intro hwhole
    have hspec : ∀ thread, ∃ words : List ℕ, thread < numThreads →
        threadStores f p x token thread =
            some (words.map fun word => (word, stagedWord f p x token word)) ∧
          words.Nodup ∧ ∀ word, word ∈ words ↔ p.stagingThread word = some thread := by
      intro thread
      by_cases hthread : thread < numThreads
      · have hspec : ∃ words : List ℕ, threadStores f p x token thread = _ ∧ _ :=
          threadStores_spec hread hint hwhole hthread
        obtain ⟨words, h⟩ := hspec
        exact ⟨words, fun _ => h⟩
      · exact ⟨[], fun h => absurd h hthread⟩
    choose words hwords using hspec
    refine ⟨fun thread => (words thread).map fun word => (word, stagedWord f p x token word),
      fun thread hthread => (hwords thread hthread).1, ?_⟩
    rw [← List.map_flatMap]
    refine List.Perm.map _ ((List.perm_ext_iff_of_nodup ?_ (List.nodup_range.filter _)).mpr
      fun word => ?_)
    · rw [List.nodup_flatMap]
      refine ⟨fun thread hthread => (hwords thread (List.mem_range.mp hthread)).2.1, ?_⟩
      refine List.nodup_range.pairwise_of_forall_ne fun a ha b hb hne => ?_
      -- A word has one thread.
      show List.Disjoint (words a) (words b)
      intro word hword hword'
      have hthread := ((hwords a (List.mem_range.mp ha)).2.2 word).mp hword
      rw [((hwords b (List.mem_range.mp hb)).2.2 word).mp hword'] at hthread
      exact hne (Option.some.inj hthread).symm
    · rw [List.mem_flatMap, List.mem_filter, List.mem_range, decide_eq_true_eq,
        ← exists_stagingThread_iff hread]
      refine exists_congr fun thread => ?_
      rw [List.mem_range]
      exact and_congr_right fun hthread => (hwords thread hthread).2.2 word

/-- Whole numbers in place of floats. -/
def wholeNumbers : Floats ℕ where
  bfloat162float b := b.toNat
  fabsf n := n
  mul a b := a * b
  div a b := a / b
  cvtFloat2ToFp8x2 a b := BitVec.ofNat 8 b ++ BitVec.ofNat 8 a
  bits := BitVec.ofNat 32
  kFP8Margin := 1
  kFP8Amax := 448
  kFP8AmaxInv := 1

/-- The smallest hidden size of `dispatch` is staged, and half a group more would not be. -/
theorem staged_once_iff_smallest :
    StagedOnce wholeNumbers ⟨2048, true⟩ (BitVec.ofNat 16) 5 ∧
      ¬StagedOnce wholeNumbers ⟨2048 + 64, true⟩ (BitVec.ofNat 16) 5 :=
  ⟨(staged_once_iff _ ⟨2048, true⟩ _ 5 (by decide) (by decide)).mpr fun _ => by decide,
    fun h => absurd ((staged_once_iff _ ⟨2048 + 64, true⟩ _ 5 (by decide) (by decide)).mp h rfl)
      (by decide)⟩

end EpDemo.Kernel.Staging
