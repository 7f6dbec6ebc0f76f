import EpDemo.Library.Stores
import EpDemo.Proofs.Kernel.Staging
import EpDemo.Proofs.System.Rounds

/-!
# `EpDemo.Proofs.System.StagedRows`: from the `bf16` tokens to the packed rows

The system takes the share of a warp in a staging row as one step. `stage_eq_stores` says that this
is what the 32 threads of the warp store, in whatever order their stores come.

So what a `dispatch` delivers is the cast of the tokens (`cast_delivered`): the 128 channels of a
group arrive cast with one scale, and column `g` of the scales of the row, which the receiver stores
transposed, is the scale of group `g`.
-/

set_option autoImplicit false

namespace EpDemo.System.Config

open EpDemo.Kernel EpDemo.Kernel.Staging EpDemo.Library

variable {A F : Type} [LinearOrder F] {c : Config A} {f : Floats F} {w : World A}

/-- The staging row of a token can be staged. -/
structure Stageable (p : Shape) : Prop where
  read : p.hidden % kNumElemsPerRead = 0
  int : p.hidden < intBound
  whole : p.useFp8 = true → p.hidden % kNumPerChannels = 0

/-- The hidden sizes of the kernels can be staged. -/
theorem Stageable.of_supported {p : Shape} (h : p.Supported) : Stageable p := by
  unfold Shape.Supported at h
  simp only [List.mem_cons, List.not_mem_nil, or_false] at h
  have hbound : intBound = 2 ^ 31 := rfl
  refine ⟨?_, by omega, fun _ => ?_⟩
  · show p.hidden % 8 = 0
    omega
  · show p.hidden % 128 = 0
    omega

/-- With FP8 the vectors fill whole half warps. -/
theorem Stageable.groups {p : Shape} (h : Stageable p) (hfp8 : p.useFp8 = true) :
    hiddenBf16Int4 p % 16 = 0 := by
  have hwhole : p.hidden % 128 = 0 := h.whole hfp8
  show p.hidden / 8 % 16 = 0
  omega

/-! ### One step of a warp -/

/-- The stores of the threads of a warp for a token, in some order. -/
def WarpStores (f : Floats F) (p : Shape) (y : ℕ → BitVec 16) (t warp : ℕ)
    (order : List (ℕ × Word)) : Prop :=
  ∃ stores : ℕ → List (ℕ × Word),
    (∀ lane < 32, threadStores f p y t (warp * 32 + lane) = some (stores lane)) ∧
    order.Perm ((List.range 32).flatMap stores)

/-- They are the words of the row that the warp has. -/
theorem WarpStores.spec {p : Shape} (hstage : Stageable p) {y : ℕ → BitVec 16} {t warp : ℕ}
    (hwarp : warp < numTokenWarps) {order : List (ℕ × Word)} (h : WarpStores f p y t warp order) :
    (∀ s ∈ order, s.2 = stagedWord f p y t s.1) ∧
      ∀ word, word ∈ order.map Prod.fst ↔ (p.stagingThread word).map (· / 32) = some warp := by
  -- The order of the warp mixes the stores of its 32 lanes.
  obtain ⟨stores, hstores, hperm⟩ := h
  have hthread : ∀ lane < 32, warp * 32 + lane < numThreads := fun lane hlane => by
    show warp * 32 + lane < numTokenWarps * 32
    omega
  -- Each lane stores the words of its own thread.
  have hspec : ∀ lane < 32, ∃ words : List ℕ,
      stores lane = words.map (fun word => (word, stagedWord f p y t word)) ∧
        ∀ word, word ∈ words ↔ p.stagingThread word = some (warp * 32 + lane) := by
    intro lane hlane
    obtain ⟨words, heq, -, hmem⟩ : ∃ words : List ℕ,
        threadStores f p y t (warp * 32 + lane) = _ ∧ _ :=
      threadStores_spec hstage.read hstage.int hstage.groups (hthread lane hlane)
    rw [hstores lane hlane, Option.some.injEq] at heq
    exact ⟨words, heq, hmem⟩
  -- So every store has the right word.
  constructor
  · intro s hs
    obtain ⟨lane, hlane, hs⟩ := List.mem_flatMap.mp (hperm.mem_iff.mp hs)
    obtain ⟨words, heq, -⟩ := hspec lane (List.mem_range.mp hlane)
    rw [heq] at hs
    obtain ⟨word, -, rfl⟩ := List.mem_map.mp hs
    rfl
  · -- And the words of the warp are those of its lanes.
    intro word
    rw [(hperm.map Prod.fst).mem_iff, List.map_flatMap, List.mem_flatMap, Option.map_eq_some_iff]
    constructor
    · rintro ⟨lane, hlane, hword⟩
      have hlane := List.mem_range.mp hlane
      obtain ⟨words, heq, hmem⟩ := hspec lane hlane
      rw [heq, List.map_map] at hword
      obtain ⟨word', hword', rfl⟩ := List.mem_map.mp hword
      exact ⟨_, (hmem word').mp hword', by omega⟩
    · -- The thread of a word gives its lane.
      rintro ⟨thread, hthread, hdiv⟩
      have hlane : thread % 32 < 32 := Nat.mod_lt thread (by decide)
      obtain ⟨words, heq, hmem⟩ := hspec _ hlane
      refine ⟨thread % 32, List.mem_range.mpr hlane, ?_⟩
      rw [heq, List.map_map]
      refine List.mem_map.mpr ⟨word, (hmem word).mpr ?_, rfl⟩
      rw [hthread, ← hdiv, Nat.div_add_mod']

/-- The step in which a warp writes its share of a row is the stores of its threads, in any order.
-/
theorem stage_eq_stores (c : Config A) (f : Floats F) (hstage : Stageable c.shape) (w : World A)
    (r t warp : ℕ) (hwarp : warp < numTokenWarps) (y : ℕ → BitVec 16)
    (hpacked : ∀ j, ((c.calls (w.call r)).input r).packed t j = stagedWord f c.shape y t j)
    (order : List (ℕ × Word)) (horder : WarpStores f c.shape y t warp order) :
    let buf := (c.calls (w.call r)).buf
    let row := c.fabric.sendData buf r (t * c.shape.numBytesPerMsg)
    let stores := order.map fun s => (row.add (4 * s.1), s.2)
    c.dispatchEffect w r (.stage t warp) =
      { w with send := Function.update w.send buf (storeAll (w.send buf) stores) } := by
  intro buf row stores
  obtain ⟨hvalue, hmem⟩ := horder.spec hstage hwarp
  -- What each place of the row is to have.
  obtain ⟨value, hplace⟩ : ∃ value : Ptr → Word, ∀ word : ℕ,
      value (row.add (4 * word)) = stagedWord f c.shape y t word := by
    refine ⟨fun p => stagedWord f c.shape y t (p.sub row / 4).toNat, fun word => ?_⟩
    have hword : ((row.add (4 * word)).sub row / 4).toNat = word := by
      show ((row.offset + 4 * word - row.offset) / 4).toNat = word
      omega
    exact congrArg (stagedWord f c.shape y t) hword
  have hstored : ∀ word : ℕ, row.add (4 * word) ∈ stores.map Prod.fst ↔
      (c.shape.stagingThread word).map (· / 32) = some warp := by
    intro word
    rw [← hmem, List.map_map, List.mem_map, List.mem_map]
    refine exists_congr fun s => and_congr_right fun _ => ?_
    show row.add (4 * (s.1 : ℤ)) = row.add (4 * word) ↔ s.1 = word
    simp only [Ptr.add, Ptr.mk.injEq, true_and]
    omega
  have hvalue' : ∀ s ∈ stores, s.2 = value s.1 := by
    intro s hs
    obtain ⟨s', hs', rfl⟩ := List.mem_map.mp hs
    exact (hvalue s' hs').trans (hplace s'.1).symm
  show World.mk .. = World.mk ..
  congr 1
  refine congrArg (Function.update w.send buf) (funext fun p => ?_)
  cases hindex : wordIndex row (c.shape.numBytesPerMsg / 4) p with
  | none =>
    show w.send buf p = _
    refine (storeAll_of_not_mem _ fun hp => ?_).symm
    -- A place that is stored to is a word of the row.
    rw [List.map_map] at hp
    obtain ⟨s, hs, rfl⟩ := List.mem_map.mp hp
    have hthread := (hmem s.1).mp (List.mem_map_of_mem hs)
    obtain ⟨thread, hthread, -⟩ := Option.map_eq_some_iff.mp hthread
    have hexists : thread < numThreads := by
      have hlt := Shape.stagingThread_lt hthread
      show thread < numTokenWarps * 32
      omega
    have hlt := ((exists_stagingThread_iff hstage.read).mp ⟨thread, hexists, hthread⟩).1
    have hword : wordIndex row (c.shape.numBytesPerMsg / 4) (row.add (4 * s.1)) = some s.1 :=
      wordIndex_eq_some.mpr ⟨hlt, rfl⟩
    cases hword.symm.trans hindex
  | some j =>
    obtain ⟨hj, rfl⟩ := wordIndex_eq_some.mp hindex
    show (if (c.shape.stagingThread j).map (· / 32) = some warp then
      if j = 0 then BitVec.ofInt 32 t else ((c.calls (w.call r)).input r).packed t j
      else w.send buf (row.add (4 * j))) = _
    by_cases hmine : (c.shape.stagingThread j).map (· / 32) = some warp
    · rw [if_pos hmine, storeAll_of_mem hvalue' _ ((hstored j).mpr hmine), hplace]
      split
      · rename_i hzero
        subst hzero
        rfl
      · exact hpacked j
    · rw [if_neg hmine, storeAll_of_not_mem _ (mt (hstored j).mp hmine)]

/-! ### What is delivered -/

/-- The staging rows of call `m` are those of the tokens `x`. -/
def Stages (c : Config A) (f : Floats F) (m : ℕ) (x : ℕ → ℕ → ℕ → BitVec 16) : Prop :=
  ∀ s < c.numRanks, ∀ t < (c.launch s m).numTokens, ∀ j,
    ((c.calls m).input s).packed t j = stagedWord f c.shape (x s t) t j

/-- A row of the packed output holds the cast of the token `y`. -/
structure HoldsCast (c : Config A) (f : Floats F) (w : World A) (d m le : ℕ) (row : ℤ)
    (y : ℕ → BitVec 16) : Prop where
  payload : ∀ k < c.shape.hiddenBytes / 4,
    w.recvX (d, m) (c.packedRow le row) k = payloadWord f c.shape y k
  scales : c.shape.useFp8 = true → ∀ g < c.shape.numScales,
    w.recvScales (d, m) ((le * c.stride * c.shape.numScales : ℕ) + row + g * c.stride) =
      scaleWord f y g

/-- A row that holds a token holds its cast, when the casts were staged. -/
theorem RowHolds.holdsCast {m d le s t : ℕ} {row : ℤ} {x : ℕ → ℕ → ℕ → BitVec 16}
    (hstages : c.Stages f m x) (hs : s < c.numRanks) (ht : t < (c.launch s m).numTokens)
    (h : c.RowHolds w d m le row s t) : c.HoldsCast f w d m le row (x s t) where
  payload k hk := by
    rw [h.recvX k hk, hstages s hs t ht, stagedWord_payload hk]
  scales hfp8 g hg := by
    rw [h.recvScales hfp8 g hg, hstages s hs t ht, stagedWord_scale]

/-- A `dispatch` that a rank has ended has put the cast of every token for its experts into exactly
one row. -/
theorem cast_delivered (c : Config A) (f : Floats F) (hv : c.Valid) (halt : c.Alternates)
    (w : World A) (h : c.system.Reachable w) (m : ℕ) (hkind : (c.calls m).kind = .dispatch)
    (x : ℕ → ℕ → ℕ → BitVec 16) (hstages : c.Stages f m x) (d : ℕ) (hd : d < c.numRanks)
    (hdone : c.CallDone w d m) (le : ℕ) (hle : le < c.numLocalExperts) (s : ℕ)
    (hs : s < c.numRanks) (t : ℕ)
    (ht : t ∈ (c.launch s m).tokensFor (d * c.numLocalExperts + le)) :
    ∃! row, c.InRange w d m le s row ∧ w.srcInfo (d, m) (c.packedRow le row) = t ∧
      c.HoldsCast f w d m le row (x s t) := by
  have hdelivered := delivered_of_callDone hv halt h hkind hd hdone hle
  obtain ⟨row, ⟨hin, hinfo⟩, hunique⟩ := hdelivered.token s hs t ht
  obtain ⟨t', -, hholds⟩ := hdelivered.row s hs row hin
  -- The row names its token.
  have htoken : t' = t := by
    have hinfo' := hholds.srcInfo
    rw [hinfo] at hinfo'
    exact_mod_cast hinfo'.symm
  subst htoken
  have hlt : t' < (c.launch s m).numTokens :=
    Finset.mem_range.mp (Finset.mem_filter.mp ht).1
  refine ⟨row, ⟨hin, hinfo, hholds.holdsCast hstages hs hlt⟩, ?_⟩
  rintro row' ⟨hin', hinfo', -⟩
  exact hunique row' ⟨hin', hinfo'⟩

/-! ### Two ranks -/

/-- The two ranks run one `dispatch` with FP8, in which every token has its channel numbers. -/
def castRanks : Config ℕ :=
  let base := twoRanks (some 1) (fun _ => 0) fun _ => 1
  let shape : Shape := ⟨2048, true⟩
  { base with
    shape := shape
    calls := fun k =>
      { base.calls k with
        input := fun r =>
          { (base.calls k).input r with
            packed := fun t => stagedWord wholeNumbers shape (BitVec.ofNat 16) t } } }

/-- The two ranks stage the casts of their channel numbers. -/
theorem castRanks_stages (m : ℕ) :
    castRanks.Stages wholeNumbers m fun _ _ => BitVec.ofNat 16 := fun _ _ _ _ _ => rfl

/-- Their inputs pass all checks. -/
theorem castRanks_valid : castRanks.Valid := by
  have hv : (twoRanks (some 1) (fun _ => 0) fun _ => 1).Valid := twoRanks_valid (by simp) _ _
  exact
    { hasCall := hv.hasCall
      numRanks_pos := hv.numRanks_pos
      numExperts_pos := hv.numExperts_pos
      dvd := hv.dvd
      numExperts_lt := hv.numExperts_lt
      rows_lt := hv.rows_lt
      mapped := hv.mapped
      input := fun m hm r hr =>
        let hin := hv.input m hm r hr
        { hin with } }

/-- They have a single call. -/
theorem castRanks_alternates : castRanks.Alternates :=
  SingleDispatch.alternates ⟨rfl, rfl, by decide⟩

/-- The stores of warp 0 for token 0, lane by lane. -/
def laneByLane : List (ℕ × Word) :=
  (List.range 32).flatMap fun lane =>
    (threadStores wholeNumbers castRanks.shape (BitVec.ofNat 16) 0 (0 * 32 + lane)).getD []

/-- The lanes may store one after the other. -/
theorem laneByLane_stores :
    WarpStores wholeNumbers castRanks.shape (BitVec.ofNat 16) 0 0 laneByLane := by
  refine ⟨fun lane => (threadStores wholeNumbers castRanks.shape (BitVec.ofNat 16) 0
    (0 * 32 + lane)).getD [], fun lane hlane => ?_, .refl _⟩
  have hthread : 0 * 32 + lane < numThreads := by
    show 0 * 32 + lane < 992
    omega
  have hstage : Stageable castRanks.shape := .of_supported (by decide)
  obtain ⟨words, heq, -⟩ : ∃ words : List ℕ,
      threadStores wholeNumbers castRanks.shape (BitVec.ofNat 16) 0 (0 * 32 + lane) = _ ∧ _ :=
    threadStores_spec hstage.read hstage.int hstage.groups hthread
  show threadStores wholeNumbers castRanks.shape (BitVec.ofNat 16) 0 (0 * 32 + lane) =
    some ((threadStores wholeNumbers castRanks.shape (BitVec.ofNat 16) 0 (0 * 32 + lane)).getD [])
  rw [heq]
  rfl

/-- One staging step of the system, and the stores of the lanes. -/
theorem stage_eq_stores_castRanks :
    let c := castRanks
    let row := c.fabric.sendData 0 0 (0 * c.shape.numBytesPerMsg)
    let stores := laneByLane.map fun s => (row.add (4 * s.1), s.2)
    c.dispatchEffect blank 0 (.stage 0 0) =
      { blank with send := Function.update blank.send 0 (storeAll (blank.send 0) stores) } :=
  stage_eq_stores castRanks wholeNumbers (.of_supported (by decide)) blank 0 0 0 (by decide)
    (BitVec.ofNat 16) (fun _ => rfl) laneByLane laneByLane_stores

/-- Rank 0 has one token for expert 7, the local expert 2 of rank 1. -/
theorem cast_delivered_castRanks :
    let c := castRanks
    let w := c.machine.exec blank wholeDispatch
    ∃! row, c.InRange w 1 0 2 0 row ∧ w.srcInfo (1, 0) (c.packedRow 2 row) = 0 ∧
      c.HoldsCast wholeNumbers w 1 0 2 row (BitVec.ofNat 16) := by
  intro c w
  have hrun : c.machine.Legal blank wholeDispatch ∧ c.CallDone w 1 0 := by
    refine ⟨by decide +kernel, fun _ => by decide +kernel, fun hkind => by cases hkind⟩
  exact cast_delivered c wholeNumbers castRanks_valid castRanks_alternates w
    (Machine.reachable_exec _ (.init (init_blank rfl)) hrun.1) 0 rfl (fun _ _ => BitVec.ofNat 16)
    (castRanks_stages 0) 1 (by decide) hrun.2 2 (by decide) 0 (by decide) 0 (by decide)

end EpDemo.System.Config
