import EpDemo.Mlx5gda.Commands
import EpDemo.Proofs.Mlx5gda.RingSizes
import Mathlib.Data.Fin.VecNotation

/-!
# `EpDemo.Proofs.Mlx5gda.Commands`: what the device reads in a command

Each macro stores one field of the layout of the command, also where the function passes the address
of a context (`devxSet_eq`, `devxSet_embed`): the macros work for every field that the functions
set, and a context starts where its fields do. A command is then the list of its fields, and the
device reads back what fits (`Layout.holds_setAll_iff`).

The logarithm of a send queue does not always fit (`ring_sizes_agree_iff`). The address of the
destination is copied over two fields at once (`memcpy_rmac`).
-/

set_option autoImplicit false

namespace EpDemo.Mlx5gda

open EpDemo.Library EpDemo.Library.Layout

/-! ### Macros -/

/-- The macros where they work. -/
def plainDevx : Devx where
  set m p offset width value := m.store (p + offset) width value.toNat
  set64 m p offset value := m.store (p + offset) 64 value.toNat

/-- These macros do what `Lawful` asks for. -/
theorem plainDevx_lawful : plainDevx.Lawful where
  set _ _ _ _ _ _ _ := rfl
  set64 _ _ _ _ _ _ := rfl

section

variable {F G : Type} [DecidableEq F] [DecidableEq G] {D : Devx}

/-- `DEVX_SET` works for the field. -/
def InWord (l : Layout F) (f : F) : Prop :=
  f ∈ l.map Prod.fst ∧ l.offset f % 32 + l.width f ≤ 32

instance (l : Layout F) (f : F) : Decidable (InWord l f) := inferInstanceAs (Decidable (_ ∧ _))

/-- `DEVX_SET64` works for the field. -/
def Aligned64 (l : Layout F) (f : F) : Prop :=
  f ∈ l.map Prod.fst ∧ l.offset f % 64 = 0 ∧ l.width f = 64

instance (l : Layout F) (f : F) : Decidable (Aligned64 l f) := inferInstanceAs (Decidable (_ ∧ _))

/-- A field of the command. -/
theorem devxSet_eq (hD : D.Lawful) {l : Layout F} {f : F} (hf : InWord l f) (value : BitVec 32)
    (m : Mailbox) : devxSet D l 0 f value m = l.setField m f value.toNat := by
  rw [devxSet, hD.set _ _ _ _ _ rfl hf.2, Nat.zero_add, setField]

/-- A field of 64 bits of the command. -/
theorem devxSet64_eq (hD : D.Lawful) {l : Layout F} {f : F} (hf : Aligned64 l f) (value : BitVec 64)
    (m : Mailbox) : devxSet64 D l 0 f value m = l.setField m f value.toNat := by
  rw [devxSet64, hD.set64 _ _ _ _ rfl hf.2.1, Nat.zero_add, setField, hf.2.2]

section

variable {g : F → G} {head tail : Layout G} {l : Layout F} {f : F}

/-- A field of a context of the command. -/
theorem devxSet_embed (hD : D.Lawful) (hg : Function.Injective g) (hhead : head.size % 8 = 0)
    (hout : g f ∉ head.map Prod.fst) (hf : InWord l f) (value : BitVec 32) (m : Mailbox) :
    devxSet D l head.size f value m
      = setField (head ++ (embed g l ++ tail)) m (g f) value.toNat := by
  rw [devxSet, hD.set _ _ _ _ _ hhead hf.2, setField_embed hg hf.1 hout]

/-- A field of 64 bits of a context of the command. -/
theorem devxSet64_embed (hD : D.Lawful) (hg : Function.Injective g) (hhead : head.size % 8 = 0)
    (hout : g f ∉ head.map Prod.fst) (hf : Aligned64 l f) (value : BitVec 64) (m : Mailbox) :
    devxSet64 D l head.size f value m
      = setField (head ++ (embed g l ++ tail)) m (g f) value.toNat := by
  rw [devxSet64, hD.set64 _ _ _ _ hhead hf.2.1, setField_embed hg hf.1 hout, hf.2.2]

/-- Bytes that are copied to a field of a context and fill it. -/
theorem copy_embed (hg : Function.Injective g) (hout : g f ∉ head.map Prod.fst)
    (hf : f ∈ l.map Prod.fst) {bytes : List (BitVec 8)} (hwidth : l.width f = 8 * bytes.length)
    (m : Mailbox) :
    m.copy (head.size + l.offset f) bytes
      = setField (head ++ (embed g l ++ tail)) m (g f) (Mailbox.bigEndian bytes) := by
  rw [Mailbox.copy_eq_store, setField_embed hg hf hout, hwidth]

end

end

/-! ### `mlx5gda_create_cq` -/

/-- The logarithm of the size of a queue of at least `n` entries. -/
theorem log_eq {n size : BitVec 32} (hpos : 0 < n.toInt)
    (hsize : ibgdaRoundUpPow2Or0 32 n = some size) :
    logCqSize size = Nat.clog 2 n.toNat ∧ logSqSize size = Nat.clog 2 n.toNat ∧
      Nat.clog 2 n.toNat ≤ 31 := by
  have hlt := toNat_lt_of_pos hpos
  have hle := exponent_le hlt.le
  have hne : n ≠ 0 := by
    intro hzero
    rw [hzero] at hpos
    exact absurd hpos (by decide)
  rw [ibgdaRoundUpPow2Or0_eq hne hlt.le le_rfl, Option.some.injEq] at hsize
  rw [← hsize]
  exact ⟨logCqSize_two_pow hle, logSqSize_two_pow hle, hle⟩

section

variable {D : Devx}

/-- Different fields of the context are different fields of the command. -/
theorem cqContext_injective : Function.Injective CreateCqInField.cqContext := by
  intro f f' h
  cases h
  rfl

/-- The fields of the context stand behind the head of the command. -/
theorem cqContext_notMem (f : CqcField) :
    CreateCqInField.cqContext f ∉ createCqInBitsHead.map Prod.fst := by
  simp [createCqInBitsHead]

/-- To set a field of the context is to set the field of the command. -/
theorem devxSet_cqc (hD : D.Lawful) {f : CqcField} (hf : InWord cqcBits f) (value : BitVec 32)
    (m : Mailbox) : devxSet D cqcBits createCqInBitsHead.size f value m
      = createCqInBits.setField m (.cqContext f) value.toNat :=
  devxSet_embed hD cqContext_injective (by decide) (cqContext_notMem f) hf value m

/-- The same for a field of 64 bits. -/
theorem devxSet64_cqc (hD : D.Lawful) {f : CqcField} (hf : Aligned64 cqcBits f) (value : BitVec 64)
    (m : Mailbox) : devxSet64 D cqcBits createCqInBitsHead.size f value m
      = createCqInBits.setField m (.cqContext f) value.toNat :=
  devxSet64_embed hD cqContext_injective (by decide) (cqContext_notMem f) hf value m

/-- What the command is to say: a queue of `2 ^ log` entries of 64 bytes that collapses and may
overrun. -/
def CreateCq.fields (a : CreateCq) (log : ℕ) : List (CreateCqInField × ℕ) :=
  [(.opcode, 0x400), (.cqUmemId, a.umemId.toNat), (.cqUmemValid, 1),
    (.cqUmemOffset, a.cqOffset.toNat), (.cqContext .dbrUmemValid, 1), (.cqContext .cqeSz, 0),
    (.cqContext .cc, 1), (.cqContext .oi, 1), (.cqContext .dbrUmemId, a.umemId.toNat),
    (.cqContext .logCqSize, log), (.cqContext .uarPage, a.pageId.toNat),
    (.cqContext .cEqn, a.eqn.toNat), (.cqContext .dbrAddr, a.dbrOffset.toNat)]

/-- The command is the list of its fields. -/
theorem CreateCq.cmdIn_eq (hD : D.Lawful) (a : CreateCq) {log : ℕ}
    (hlog : logCqSize a.numCqe = log) (hle : log ≤ 31) :
    a.cmdIn D = createCqInBits.setAll Mailbox.zero (a.fields log) := by
  have hofNat : (BitVec.ofNat 32 (logCqSize a.numCqe)).toNat = log := by
    rw [hlog, BitVec.toNat_ofNat]
    omega
  have hop : mlx5CmdOpCreateCq.toNat = 0x400 := rfl
  have hsize : mlx5CqeSize64b.toNat = 0 := rfl
  have hone : (1 : BitVec 32).toNat = 1 := rfl
  simp (disch := decide) only [CreateCq.cmdIn, devxSet_eq hD, devxSet64_eq hD, devxSet_cqc hD,
    devxSet64_cqc hD, hofNat, hop, hsize, hone]
  simp only [CreateCq.fields, setAll, List.foldl_cons, List.foldl_nil]

/-- The device reads the queue that `mlx5gda_create_cq` was called for in every field, and zero in
all of the others, exactly if the numbers of the UAR page and of the event queue fit into their
fields. -/
theorem createCq_holds_iff (hD : D.Lawful) (a : CreateCq) {cqe : BitVec 32} (hpos : 0 < cqe.toInt)
    (hsize : ibgdaRoundUpPow2Or0 32 cqe = some a.numCqe) :
    createCqInBits.Holds (a.cmdIn D) (a.fields (Nat.clog 2 cqe.toNat)) ↔
      a.pageId.toNat < 2 ^ 24 ∧ a.eqn.toNat < 2 ^ 8 := by
  obtain ⟨hlog, -, hle⟩ := log_eq hpos hsize
  rw [a.cmdIn_eq hD hlog hle, holds_setAll_iff]
  · simp only [CreateCq.fields, List.forall_mem_cons]
    constructor
    · rintro ⟨-, -, -, -, -, -, -, -, -, -, hpage, heqn, -⟩
      exact ⟨hpage, heqn⟩
    · rintro ⟨hpage, heqn⟩
      exact ⟨by decide, a.umemId.isLt, by decide, a.cqOffset.isLt, by decide, by decide, by decide,
        by decide, a.umemId.isLt, Nat.lt_succ_of_le hle, hpage, heqn, a.dbrOffset.isLt,
        fun _ hs => absurd hs List.not_mem_nil⟩
  · simp only [CreateCq.fields, List.map_cons, List.map_nil]
    decide
  · simp only [CreateCq.fields, List.map_cons, List.map_nil]
    decide

/-- A queue of 10000 entries. -/
def tenThousandCqes : CreateCq where
  umemId := 7
  cqOffset := 4096
  numCqe := 16384
  pageId := 0x51
  eqn := 3
  dbrOffset := 64

/-- The command for a queue of 10000 entries. -/
theorem createCq_holds_iff_tenThousand :
    createCqInBits.Holds (tenThousandCqes.cmdIn plainDevx)
        (tenThousandCqes.fields (Nat.clog 2 (10000 : BitVec 32).toNat)) ↔
      tenThousandCqes.pageId.toNat < 2 ^ 24 ∧ tenThousandCqes.eqn.toNat < 2 ^ 8 :=
  createCq_holds_iff plainDevx_lawful tenThousandCqes (by decide) (by decide)

end

/-! ### `mlx5gda_create_rc_qp` -/

section

variable {D : Devx}

/-- Different fields of the context are different fields of the command. -/
theorem createQpIn_qpc_injective : Function.Injective CreateQpInField.qpc := by
  intro f f' h
  cases h
  rfl

/-- The fields of the context stand behind the head of the command. -/
theorem createQpIn_qpc_notMem (f : QpcField) :
    CreateQpInField.qpc f ∉ createQpInBitsHead.map Prod.fst := by
  simp [createQpInBitsHead]

/-- To set a field of the context is to set the field of the command. -/
theorem devxSet_createQp (hD : D.Lawful) {f : QpcField} (hf : InWord qpcBits f) (value : BitVec 32)
    (m : Mailbox) : devxSet D qpcBits createQpInBitsHead.size f value m
      = createQpInBits.setField m (.qpc f) value.toNat :=
  devxSet_embed hD createQpIn_qpc_injective (by decide) (createQpIn_qpc_notMem f) hf value m

/-- The same for a field of 64 bits. -/
theorem devxSet64_createQp (hD : D.Lawful) {f : QpcField} (hf : Aligned64 qpcBits f)
    (value : BitVec 64) (m : Mailbox) : devxSet64 D qpcBits createQpInBitsHead.size f value m
      = createQpInBits.setField m (.qpc f) value.toNat :=
  devxSet64_embed hD createQpIn_qpc_injective (by decide) (createQpIn_qpc_notMem f) hf value m

/-- What the command is to say: a reliable connection with a send queue of `2 ^ log` slots and no
receive queue. -/
def CreateQp.fields (a : CreateQp) (log : ℕ) : List (CreateQpInField × ℕ) :=
  [(.opcode, 0x500), (.wqUmemId, a.umemId.toNat), (.wqUmemOffset, a.wqOffset.toNat),
    (.wqUmemValid, 1), (.qpc .st, 0), (.qpc .pmState, 3), (.qpc .pd, a.pdn.toNat),
    (.qpc .uarPage, a.pageId.toNat), (.qpc .rqType, 3), (.qpc .cqnSnd, a.cqn.toNat),
    (.qpc .logSqSize, log), (.qpc .logRqSize, 0), (.qpc .dbrUmemValid, 1),
    (.qpc .dbrAddr, a.dbrOffset.toNat), (.qpc .dbrUmemId, a.umemId.toNat), (.qpc .userIndex, 0),
    (.qpc .pageOffset, 0)]

/-- The command is the list of its fields. The logarithm of the size is the argument of
`DEVX_SET`, before it is cut to its field. -/
theorem CreateQp.cmdIn_eq (hD : D.Lawful) (a : CreateQp) {log : ℕ}
    (hlog : logSqSize a.numWqebb = log) (hle : log ≤ 31) :
    a.cmdIn D = createQpInBits.setAll Mailbox.zero (a.fields log) := by
  have hofNat : (BitVec.ofNat 32 (logSqSize a.numWqebb)).toNat = log := by
    rw [hlog, BitVec.toNat_ofNat]
    omega
  have hop : mlx5CmdOpCreateQp.toNat = 0x500 := rfl
  have hst : mlx5QpcStRc.toNat = 0 := rfl
  have hstate : mlx5QpcPmStateMigrated.toNat = 3 := rfl
  have htype : mlx5RqTypeZeroSizeRq.toNat = 3 := rfl
  have hone : (1 : BitVec 32).toNat = 1 := rfl
  have hzero : (0 : BitVec 32).toNat = 0 := rfl
  simp (disch := decide +kernel) only [CreateQp.cmdIn, devxSet_eq hD, devxSet64_eq hD,
    devxSet_createQp hD, devxSet64_createQp hD, hofNat, hop, hst, hstate, htype, hone, hzero]
  simp only [CreateQp.fields, setAll, List.foldl_cons, List.foldl_nil]

/-- The device reads the queue pair that `mlx5gda_create_rc_qp` was called for in every field, and
zero in all of the others, exactly if at most `2 ^ 15` slots were asked for and the numbers of the
protection domain, the UAR page and the completion queue fit into their fields. -/
theorem createQp_holds_iff (hD : D.Lawful) (a : CreateQp) {wqe : BitVec 32} (hpos : 0 < wqe.toInt)
    (hsize : ibgdaRoundUpPow2Or0 32 wqe = some a.numWqebb) :
    createQpInBits.Holds (a.cmdIn D) (a.fields (Nat.clog 2 wqe.toNat)) ↔
      wqe.toNat ≤ 2 ^ 15 ∧ a.pdn.toNat < 2 ^ 24 ∧ a.pageId.toNat < 2 ^ 24 ∧
        a.cqn.toNat < 2 ^ 24 := by
  obtain ⟨-, hlog, hle⟩ := log_eq hpos hsize
  have hslots : Nat.clog 2 wqe.toNat < 2 ^ 4 ↔ wqe.toNat ≤ 2 ^ 15 := by
    rw [← Nat.clog_le_iff_le_pow (by decide : 1 < 2)]
    omega
  rw [a.cmdIn_eq hD hlog hle, holds_setAll_iff, ← hslots]
  · simp only [CreateQp.fields, List.forall_mem_cons]
    constructor
    · rintro ⟨-, -, -, -, -, -, hpd, hpage, -, hcqn, hlog, -⟩
      exact ⟨hlog, hpd, hpage, hcqn⟩
    · rintro ⟨hlog, hpd, hpage, hcqn⟩
      exact ⟨by decide, a.umemId.isLt, a.wqOffset.isLt, by decide, by decide, by decide, hpd, hpage,
        by decide, hcqn, hlog, by decide, by decide, a.dbrOffset.isLt, a.umemId.isLt, by decide,
        by decide, fun _ hs => absurd hs List.not_mem_nil⟩
  · simp only [CreateQp.fields, List.map_cons, List.map_nil]
    decide
  · simp only [CreateQp.fields, List.map_cons, List.map_nil]
    decide

/-- A send queue of 10000 slots. -/
def tenThousandWqes : CreateQp where
  umemId := 7
  wqOffset := 8192
  pdn := 0x21
  pageId := 0x52
  cqn := 0x400
  numWqebb := 16384
  dbrOffset := 128

/-- The command for a queue pair of 10000 slots. -/
theorem createQp_holds_iff_tenThousand :
    createQpInBits.Holds (tenThousandWqes.cmdIn plainDevx)
        (tenThousandWqes.fields (Nat.clog 2 (10000 : BitVec 32).toNat)) ↔
      (10000 : BitVec 32).toNat ≤ 2 ^ 15 ∧ tenThousandWqes.pdn.toNat < 2 ^ 24 ∧
        tenThousandWqes.pageId.toNat < 2 ^ 24 ∧ tenThousandWqes.cqn.toNat < 2 ^ 24 :=
  createQp_holds_iff plainDevx_lawful tenThousandWqes (by decide) (by decide)

end

/-! ### The sizes of the rings -/

section

variable {D : Devx}

/-- The device reads the logarithm of a completion queue as it was computed. -/
theorem CreateCq.readField_logCqSize (hD : D.Lawful) (a : CreateCq) {log : ℕ}
    (hlog : logCqSize a.numCqe = log) (hle : log ≤ 31) :
    createCqInBits.readField (a.cmdIn D) (.cqContext .logCqSize) = log := by
  rw [a.cmdIn_eq hD hlog hle, readField_setAll (by decide)]
  · show log % 2 ^ 5 = log
    exact Nat.mod_eq_of_lt (Nat.lt_succ_of_le hle)
  · simp only [CreateCq.fields, List.map_cons, List.map_nil]
    decide
  · simp only [CreateCq.fields, List.map_cons, List.map_nil]
    decide

/-- It reads the low four bits of the logarithm of a send queue. -/
theorem CreateQp.readField_logSqSize (hD : D.Lawful) (a : CreateQp) {log : ℕ}
    (hlog : logSqSize a.numWqebb = log) (hle : log ≤ 31) :
    createQpInBits.readField (a.cmdIn D) (.qpc .logSqSize) = log % 2 ^ 4 := by
  rw [a.cmdIn_eq hD hlog hle, readField_setAll (by decide)]
  · rfl
  · simp only [CreateQp.fields, List.map_cons, List.map_nil]
    decide
  · simp only [CreateQp.fields, List.map_cons, List.map_nil]
    decide

/-- The rings that `mlx5gda_create_cq` and `mlx5gda_create_rc_qp` accept have the least sufficient
power of two as their size, the kernels are given its mask, and the device reads its exponent in the
command for a completion queue. In the command for a queue pair it does so exactly up to `2 ^ 15`
slots, because `log_sq_size` has four bits. -/
theorem ring_sizes_agree_iff (hD : D.Lawful) :
    (∀ (d d' : Device) (cqe : BitVec 32) (ans : CqAnswers) (cq : Cq) (a : CreateCq),
      mlx5gdaCreateCq d cqe.toInt ans = (d', some cq) → a.numCqe.toNat = cq.cqe →
        SizesAgree cqe a.numCqe ∧
          2 ^ createCqInBits.readField (a.cmdIn D) (.cqContext .logCqSize) = cq.cqe) ∧
    ∀ (d d' : Device) (wqe : BitVec 32) (ans : QpAnswers) (qp : Qp) (c : CreateCq) (a : CreateQp),
      mlx5gdaCreateRcQp d wqe.toInt ans = (d', some qp) → c.numCqe.toNat = qp.sendCq.cqe →
        a.numWqebb.toNat = qp.numWqebb →
          SizesAgree wqe a.numWqebb ∧
          (Lifecycle.QpDevctx.ofQp qp).wqeidMask = (wqeidMask a.numWqebb).toNat ∧
          2 ^ createCqInBits.readField (c.cmdIn D) (.cqContext .logCqSize) = qp.sendCq.cqe ∧
          (2 ^ createQpInBits.readField (a.cmdIn D) (.qpc .logSqSize) = qp.numWqebb ↔
            wqe.toNat ≤ 2 ^ 15) := by
  have hcqLog : ∀ (n : BitVec 32) (a : CreateCq), SizesAgree n a.numCqe → 0 < n.toInt →
      2 ^ createCqInBits.readField (a.cmdIn D) (.cqContext .logCqSize) = a.numCqe.toNat := by
    intro n a hagree hpos
    obtain ⟨hlog, -, hle⟩ := log_eq hpos (hagree.computed 32 le_rfl)
    rw [a.readField_logCqSize hD hlog hle, ← hlog]
    exact hagree.logCqSize
  constructor
  · intro d d' cqe ans cq a h ha
    obtain ⟨size, hagree, hsize⟩ := cq_sizesAgree h
    obtain rfl : a.numCqe = size := BitVec.eq_of_toNat_eq (ha.trans hsize)
    exact ⟨hagree, (hcqLog cqe a hagree (cqe_eq h).1).trans ha⟩
  · intro d d' wqe ans qp c a h hc ha
    have hpos := (numWqebb_eq h).1
    obtain ⟨size, hagree, hsize, hcqe, hmask⟩ := qp_sizesAgree h
    obtain rfl : a.numWqebb = size := BitVec.eq_of_toNat_eq (ha.trans hsize)
    have hcq : c.numCqe = a.numWqebb := BitVec.eq_of_toNat_eq (hc.trans hcqe)
    refine ⟨hagree, hmask, (hcqLog wqe c (hcq ▸ hagree) hpos).trans hc, ?_⟩
    obtain ⟨-, hlog, hle⟩ := log_eq hpos (hagree.computed 32 le_rfl)
    rw [a.readField_logSqSize hD hlog hle, ← ha, ← hagree.logSqSize, hlog,
      Nat.pow_right_inj (by decide), ← Nat.clog_le_iff_le_pow (by decide)]
    -- A remainder by `2 ^ 4` is the number itself exactly below `2 ^ 4`.
    omega

/-- A thousand entries, on a heap that was just created. -/
theorem ring_sizes_agree_iff_thousand :
    (∃ d' cq, mlx5gdaCreateCq (.fresh (2 ^ 30)) (1000 : BitVec 32).toInt (.success 1) =
        (d', some cq) ∧
      2 ^ createCqInBits.readField (({ tenThousandCqes with numCqe := 1024 } : CreateCq).cmdIn
        plainDevx) (.cqContext .logCqSize) = cq.cqe) ∧
      ∃ d' qp, mlx5gdaCreateRcQp (.fresh (2 ^ 30)) (1000 : BitVec 32).toInt
        (.success .infiniband 1 1) = (d', some qp) ∧
      2 ^ createQpInBits.readField (({ tenThousandWqes with numWqebb := 1024 } : CreateQp).cmdIn
        plainDevx) (.qpc .logSqSize) = qp.numWqebb := by
  have hcq : (mlx5gdaCreateCq (.fresh (2 ^ 30)) (1000 : BitVec 32).toInt
      (.success 1)).2.map Cq.cqe = some 1024 := by decide +kernel
  have hqp : (mlx5gdaCreateRcQp (.fresh (2 ^ 30)) (1000 : BitVec 32).toInt
      (.success .infiniband 1 1)).2.map (fun qp => (qp.sendCq.cqe, qp.numWqebb))
        = some (1024, 1024) := by decide +kernel
  obtain ⟨cq, hcq, hcqe⟩ := Option.map_eq_some_iff.mp hcq
  obtain ⟨qp, hqp, hsizes⟩ := Option.map_eq_some_iff.mp hqp
  obtain ⟨hsend, hslots⟩ := Prod.mk.inj hsizes
  exact ⟨⟨_, cq, Prod.ext rfl hcq, ((ring_sizes_agree_iff plainDevx_lawful).1 _ _ 1000 _ cq
      { tenThousandCqes with numCqe := 1024 } (Prod.ext rfl hcq) hcqe.symm).2⟩,
    ⟨_, qp, Prod.ext rfl hqp, ((ring_sizes_agree_iff plainDevx_lawful).2 _ _ 1000 _ qp
      { tenThousandCqes with numCqe := 1024 } { tenThousandWqes with numWqebb := 1024 }
      (Prod.ext rfl hqp) hsend.symm hslots.symm).2.2.2.mpr (by decide)⟩⟩

/-- A send queue of `65536` slots is accepted, and the device reads zero for the logarithm. -/
theorem log_sq_size_wraps :
    ∃ d' qp, mlx5gdaCreateRcQp (.fresh (2 ^ 30)) (65536 : BitVec 32).toInt
        (.success .infiniband 1 1) = (d', some qp) ∧
      qp.numWqebb = (65536 : BitVec 32).toNat ∧
      createQpInBits.readField (({ tenThousandWqes with numWqebb := 65536 } : CreateQp).cmdIn
        plainDevx) (.qpc .logSqSize) = 0 ∧
      2 ^ createQpInBits.readField (({ tenThousandWqes with numWqebb := 65536 } : CreateQp).cmdIn
        plainDevx) (.qpc .logSqSize) ≠ qp.numWqebb := by
  have hqp : (mlx5gdaCreateRcQp (.fresh (2 ^ 30)) (65536 : BitVec 32).toInt
      (.success .infiniband 1 1)).2.map Qp.numWqebb = some 65536 := by decide +kernel
  obtain ⟨qp, hqp, hslots⟩ := Option.map_eq_some_iff.mp hqp
  have hlog : logSqSize (65536 : BitVec 32) = 16 := logSqSize_two_pow (k := 16) (by decide)
  have hread := CreateQp.readField_logSqSize plainDevx_lawful
    { tenThousandWqes with numWqebb := 65536 } hlog (by decide)
  refine ⟨_, qp, Prod.ext rfl hqp, hslots, hread, ?_⟩
  rw [hread, hslots]
  decide

end

/-! ### `mlx5gda_modify_rc_qp` -/

section

variable {D : Devx}

/-- Different fields of the context are different fields of the command. -/
theorem modifyQpIn_qpc_injective : Function.Injective ModifyQpInField.qpc := by
  intro f f' h
  cases h
  rfl

/-- The fields of the context stand behind the head of the command. -/
theorem modifyQpIn_qpc_notMem (f : QpcField) :
    ModifyQpInField.qpc f ∉ rst2initQpInBitsHead.map Prod.fst := by
  simp [rst2initQpInBitsHead]

/-- To set a field of the context is to set the field of the command. -/
theorem devxSet_modifyQp (hD : D.Lawful) {f : QpcField} (hf : InWord qpcBits f) (value : BitVec 32)
    (m : Mailbox) : devxSet D qpcBits rst2initQpInBitsHead.size f value m
      = rst2initQpInBits.setField m (.qpc f) value.toNat :=
  devxSet_embed hD modifyQpIn_qpc_injective (by decide) (modifyQpIn_qpc_notMem f) hf value m

/-- Bytes that are copied to a field of the context and fill it. -/
theorem copy_modifyQp {f : QpcField} (hf : f ∈ qpcBits.map Prod.fst) {bytes : List (BitVec 8)}
    (hwidth : qpcBits.width f = 8 * bytes.length) (m : Mailbox) :
    m.copy (rst2initQpInBitsHead.size + qpcBits.offset f) bytes
      = rst2initQpInBits.setField m (.qpc f) (Mailbox.bigEndian bytes) :=
  copy_embed modifyQpIn_qpc_injective (modifyQpIn_qpc_notMem f) hf hwidth m

/-- The first two bytes of the address of the destination. -/
def AhAttr.rmacHigh (ahAttr : AhAttr) : ℕ := Mailbox.bigEndian [ahAttr.rmac 0, ahAttr.rmac 1]

/-- The other four. -/
def AhAttr.rmacLow (ahAttr : AhAttr) : ℕ :=
  Mailbox.bigEndian [ahAttr.rmac 2, ahAttr.rmac 3, ahAttr.rmac 4, ahAttr.rmac 5]

/-- The six bytes at `rmac_47_32` fill it and `rmac_31_0`. -/
theorem memcpy_rmac (ahAttr : AhAttr) (m : Mailbox) :
    memcpyAddrOf qpcBits rst2initQpInBitsHead.size (.primaryAddressPath .rmac4732)
        (List.ofFn ahAttr.rmac) m
      = rst2initQpInBits.setField
          (rst2initQpInBits.setField m (.qpc (.primaryAddressPath .rmac4732)) ahAttr.rmacHigh)
          (.qpc (.primaryAddressPath .rmac310)) ahAttr.rmacLow := by
  have hbytes : List.ofFn ahAttr.rmac = [ahAttr.rmac 0, ahAttr.rmac 1] ++
      [ahAttr.rmac 2, ahAttr.rmac 3, ahAttr.rmac 4, ahAttr.rmac 5] := by
    simp [List.ofFn_succ]
  have hnext : rst2initQpInBitsHead.size + qpcBits.offset (.primaryAddressPath .rmac4732) + 8 * 2
      = rst2initQpInBitsHead.size + qpcBits.offset (.primaryAddressPath .rmac310) := by decide
  rw [memcpyAddrOf, hbytes, Mailbox.copy_append, copy_modifyQp (by decide) rfl]
  show Mailbox.copy _ (rst2initQpInBitsHead.size +
    qpcBits.offset (.primaryAddressPath .rmac4732) + 8 * 2) _ = _
  rw [hnext, copy_modifyQp (by decide) rfl]
  rfl

/-- The sixteen bytes of the GID fill `rgid_rip`. -/
theorem memcpy_rgid (ahAttr : AhAttr) (m : Mailbox) :
    memcpyAddrOf qpcBits rst2initQpInBitsHead.size (.primaryAddressPath .rgidRip)
        (List.ofFn ahAttr.rgid) m
      = rst2initQpInBits.setField m (.qpc (.primaryAddressPath .rgidRip))
          (Mailbox.bigEndian (List.ofFn ahAttr.rgid)) :=
  copy_modifyQp (by decide) (by rw [List.length_ofFn]; decide) m

/-- The address path that the command is to give. -/
def AhAttr.fields (ahAttr : AhAttr) : LinkLayer → List (ModifyQpInField × ℕ)
  | .infiniband =>
    [(.qpc (.primaryAddressPath .sl), ahAttr.sl.toNat),
      (.qpc (.primaryAddressPath .rlid), ahAttr.dlid.toNat)]
  | .ethernet =>
    [(.qpc (.primaryAddressPath .rmac4732), ahAttr.rmacHigh),
      (.qpc (.primaryAddressPath .rmac310), ahAttr.rmacLow),
      (.qpc (.primaryAddressPath .hopLimit), 255),
      (.qpc (.primaryAddressPath .srcAddrIndex), ahAttr.sgidIndex.toNat),
      (.qpc (.primaryAddressPath .udpSport), ahAttr.dlid.toNat),
      (.qpc (.primaryAddressPath .rgidRip), Mailbox.bigEndian (List.ofFn ahAttr.rgid))]
  | .unspecified => []

/-- What a command that modifies a queue pair is to say. -/
def ModifyQp.fields (qpn : BitVec 32) : ModifyQp → List (ModifyQpInField × ℕ)
  | .rst2init portNum linkLayer pkeyIndex =>
    [(.opcode, 0x502), (.qpn, qpn.toNat), (.qpc .rwe, 1), (.qpc .rre, 1), (.qpc .rae, 1),
      (.qpc .atomicMode, 3), (.qpc (.primaryAddressPath .vhcaPortNum), portNum.toNat)] ++
    ((if linkLayer = .infiniband then
        [(.qpc (.primaryAddressPath .pkeyIndex), pkeyIndex.toNat)] else []) ++
      [(.qpc .pmState, 3)])
  | .init2rtr linkLayer ahAttr remoteQpn mtu =>
    [(.opcode, 0x503), (.qpn, qpn.toNat), (.qpc .mtu, mtu.toNat), (.qpc .logMsgMax, 30),
      (.qpc .remoteQpn, remoteQpn.toNat), (.qpc .minRnrNak, 7), (.qpc .logRraMax, 1)] ++
    ahAttr.fields linkLayer
  | .rtr2rts =>
    [(.opcode, 0x504), (.qpn, qpn.toNat), (.qpc .logAckReqFreq, 0), (.qpc .logSraMax, 1),
      (.qpc .nextSendPsn, 0), (.qpc .retryCount, 7), (.qpc .rnrRetry, 7),
      (.qpc (.primaryAddressPath .ackTimeout), 20)]

/-- A narrow argument keeps its value. -/
theorem toNat_setWidth_32 {w : ℕ} (hw : w ≤ 32) (x : BitVec w) :
    (x.setWidth 32).toNat = x.toNat := by
  rw [BitVec.toNat_setWidth]
  exact Nat.mod_eq_of_lt (x.isLt.trans_le (Nat.pow_le_pow_right (by decide) hw))

/-- The three commands begin with their opcode and the number of the queue pair. -/
theorem modifyQpHead_eq (hD : D.Lawful) (command : Command) (qpn : BitVec 32) :
    modifyQpHead D command qpn = rst2initQpInBits.setAll Mailbox.zero
      [(.opcode, (mlx5CmdOp command).toNat), (.qpn, qpn.toNat)] := by
  simp (disch := decide) only [modifyQpHead, devxSet_eq hD]
  rfl

/-- The address path is set field by field, on each link layer. -/
theorem setAddressPath_eq (hD : D.Lawful) (ahAttr : AhAttr) (linkLayer : LinkLayer) (m : Mailbox) :
    setAddressPath D rst2initQpInBitsHead.size ahAttr linkLayer m
      = rst2initQpInBits.setAll m (ahAttr.fields linkLayer) := by
  cases linkLayer with
  | unspecified => rfl
  | infiniband =>
    simp (disch := decide +kernel) only [setAddressPath, devxSet_modifyQp hD, toNat_setWidth_32,
      AhAttr.fields, setAll, List.foldl_cons, List.foldl_nil]
  | ethernet =>
    have hhop : (255 : BitVec 32).toNat = 255 := rfl
    simp (disch := decide +kernel) only [setAddressPath, devxSet_modifyQp hD, toNat_setWidth_32,
      memcpy_rmac, memcpy_rgid, hhop, AhAttr.fields, setAll, List.foldl_cons, List.foldl_nil]

/-- The command is the list of its fields. -/
theorem ModifyQp.cmdIn_eq (hD : D.Lawful) (qpn : BitVec 32) (c : ModifyQp) :
    c.cmdIn D qpn = rst2initQpInBits.setAll Mailbox.zero (c.fields qpn) := by
  cases c with
  | rst2init portNum linkLayer pkeyIndex =>
    have hop : (mlx5CmdOp .rst2init).toNat = 0x502 := rfl
    have hstate : mlx5QpcPmStateMigrated.toNat = 3 := rfl
    have hone : (1 : BitVec 32).toNat = 1 := rfl
    have hthree : (3 : BitVec 32).toNat = 3 := rfl
    -- Only an InfiniBand port sets the index of the partition key.
    by_cases hlayer : linkLayer = .infiniband
    · simp (disch := decide +kernel) only [cmdIn, modifyQpHead_eq hD, devxSet_modifyQp hD,
        toNat_setWidth_32, hop, hstate, hone, hthree, fields, if_pos hlayer, setAll,
        List.foldl_append, List.foldl_cons, List.foldl_nil]
    · simp (disch := decide +kernel) only [cmdIn, modifyQpHead_eq hD, devxSet_modifyQp hD,
        toNat_setWidth_32, hop, hstate, hone, hthree, fields, if_neg hlayer, setAll,
        List.foldl_append, List.foldl_cons, List.foldl_nil]
  | init2rtr linkLayer ahAttr remoteQpn mtu =>
    -- The address path is written between the other fields.
    have hop : (mlx5CmdOp .init2rtr).toNat = 0x503 := rfl
    have hmsg : (30 : BitVec 32).toNat = 30 := rfl
    have hnak : (7 : BitVec 32).toNat = 7 := rfl
    have hone : (1 : BitVec 32).toNat = 1 := rfl
    -- The attributes of the path are folded in as one block.
    simp (disch := decide +kernel) only [cmdIn, modifyQpHead_eq hD, devxSet_modifyQp hD, hop, hmsg,
      hnak, hone, setAddressPath_eq hD, fields, setAll, List.foldl_append, List.foldl_cons,
      List.foldl_nil]
  | rtr2rts =>
    have hop : (mlx5CmdOp .rtr2rts).toNat = 0x504 := rfl
    have hzero : (0 : BitVec 32).toNat = 0 := rfl
    have hone : (1 : BitVec 32).toNat = 1 := rfl
    have hseven : (7 : BitVec 32).toNat = 7 := rfl
    have htimeout : (20 : BitVec 32).toNat = 20 := rfl
    simp (disch := decide +kernel) only [cmdIn, modifyQpHead_eq hD, devxSet_modifyQp hD, hop, hzero,
      hone, hseven, htimeout, fields, setAll, List.foldl_cons, List.foldl_nil]

/-- The arguments fit into their fields. -/
def ModifyQp.Fits (qpn : BitVec 32) : ModifyQp → Prop
  | .rst2init .. => qpn.toNat < 2 ^ 24
  | .init2rtr linkLayer ahAttr remoteQpn mtu =>
    qpn.toNat < 2 ^ 24 ∧ mtu.toNat < 2 ^ 3 ∧ remoteQpn.toNat < 2 ^ 24 ∧
      (linkLayer = .infiniband → ahAttr.sl.toNat < 2 ^ 4)
  | .rtr2rts => qpn.toNat < 2 ^ 24

/-- The address path fits but for the service level, which has four bits. -/
theorem AhAttr.fits_iff (ahAttr : AhAttr) (linkLayer : LinkLayer) :
    (∀ s ∈ ahAttr.fields linkLayer, s.2 < 2 ^ rst2initQpInBits.width s.1) ↔
      (linkLayer = .infiniband → ahAttr.sl.toNat < 2 ^ 4) := by
  -- Each link layer has its own fields in the path.
  cases linkLayer with
  | unspecified =>
    constructor
    · rintro - h
      cases h
    · intro _ s hs
      cases hs
  | infiniband =>
    constructor
    · intro h _
      exact h _ List.mem_cons_self
    · intro hsl
      simp only [AhAttr.fields, List.forall_mem_cons]
      exact ⟨hsl rfl, ahAttr.dlid.isLt, fun _ hs => absurd hs List.not_mem_nil⟩
  | ethernet =>
    -- The sixteen bytes of the remote address fill their field.
    have hrgid := Mailbox.bigEndian_lt (List.ofFn ahAttr.rgid)
    rw [List.length_ofFn] at hrgid
    constructor
    · rintro - h
      cases h
    · intro _
      simp only [AhAttr.fields, List.forall_mem_cons]
      exact ⟨Mailbox.bigEndian_lt [ahAttr.rmac 0, ahAttr.rmac 1],
        Mailbox.bigEndian_lt [ahAttr.rmac 2, ahAttr.rmac 3, ahAttr.rmac 4, ahAttr.rmac 5],
        by decide, ahAttr.sgidIndex.isLt, ahAttr.dlid.isLt, hrgid,
        fun _ hs => absurd hs List.not_mem_nil⟩

/-- No field is set twice, and all of them are fields of the command. -/
theorem ModifyQp.fields_nodup (qpn : BitVec 32) (c : ModifyQp) :
    (c.fields qpn).map Prod.fst ⊆ rst2initQpInBits.map Prod.fst ∧
      ((c.fields qpn).map Prod.fst).Nodup := by
  cases c with
  | rst2init portNum linkLayer pkeyIndex =>
    cases linkLayer <;>
    · simp only [fields, List.map_cons, List.map_nil, reduceCtorEq, if_true, if_false,
        List.cons_append, List.nil_append]
      decide +kernel
  | init2rtr linkLayer ahAttr remoteQpn mtu =>
    cases linkLayer <;>
    · simp only [fields, AhAttr.fields, List.map_cons, List.map_nil, List.cons_append,
        List.nil_append]
      decide +kernel
  | rtr2rts =>
    simp only [fields, List.map_cons, List.map_nil]
    decide +kernel

/-- In each of the three commands, which all three functions fill in with the layout of
`rst2init_qp_in`, the device reads under the layout of the command what the function was called for
in every field, and zero in all of the others, exactly if the arguments fit. -/
theorem modifyQp_holds_iff (hD : D.Lawful) (qpn : BitVec 32) (c : ModifyQp) :
    c.bits.Holds (c.cmdIn D qpn) (c.fields qpn) ↔ c.Fits qpn := by
  -- All three commands use the layout of the first.
  have hbits : c.bits = rst2initQpInBits := by
    cases c <;> rfl
  obtain ⟨hmem, hnodup⟩ := c.fields_nodup qpn
  rw [hbits, c.cmdIn_eq hD, holds_setAll_iff hmem hnodup]
  cases c with
  | rst2init portNum linkLayer pkeyIndex =>
    -- A word of 16 bits always fits the key index.
    have hpkey : ∀ s ∈ (if linkLayer = .infiniband then
        [(ModifyQpInField.qpc (.primaryAddressPath .pkeyIndex), pkeyIndex.toNat)] else []),
        s.2 < 2 ^ rst2initQpInBits.width s.1 := by
      split_ifs
      · rw [List.forall_mem_singleton]
        exact pkeyIndex.isLt
      · exact fun _ hs => absurd hs List.not_mem_nil
    -- All fields but the number of the queue pair are constants or fit by their type.
    simp only [ModifyQp.fields, List.forall_mem_append, List.forall_mem_cons]
    constructor
    · rintro ⟨⟨-, hqpn, -⟩, -⟩
      exact hqpn
    · intro hqpn
      exact ⟨⟨by decide, hqpn, by decide, by decide, by decide, by decide, portNum.isLt,
        fun _ hs => absurd hs List.not_mem_nil⟩, hpkey, by decide,
        fun _ hs => absurd hs List.not_mem_nil⟩
  | init2rtr linkLayer ahAttr remoteQpn mtu =>
    -- Here the MTU, the remote number and the service level have to fit as well.
    simp only [ModifyQp.fields, List.forall_mem_append, AhAttr.fits_iff, List.forall_mem_cons]
    constructor
    · rintro ⟨⟨-, hqpn, hmtu, -, hremote, -⟩, hsl⟩
      exact ⟨hqpn, hmtu, hremote, hsl⟩
    · rintro ⟨hqpn, hmtu, hremote, hsl⟩
      exact ⟨⟨by decide, hqpn, hmtu, by decide, hremote, by decide, by decide,
        fun _ hs => absurd hs List.not_mem_nil⟩, hsl⟩
  | rtr2rts =>
    -- Everything but the number of the queue pair is a constant.
    simp only [ModifyQp.fields, List.forall_mem_cons]
    constructor
    · rintro ⟨-, hqpn, -⟩
      exact hqpn
    · intro hqpn
      exact ⟨by decide, hqpn, by decide, by decide, by decide, by decide, by decide, by decide,
        fun _ hs => absurd hs List.not_mem_nil⟩

/-- A connection over Ethernet. -/
def overEthernet : ModifyQp :=
  .init2rtr .ethernet
    { sl := 0, dlid := 0, sgidIndex := 3, rmac := ![0x0c, 0x42, 0xa1, 0x00, 0x00, 0x01]
      rgid := ![0, 0, 0, 0, 0, 0, 0, 0, 0, 0, 0xff, 0xff, 10, 0, 0, 1] } 0x1234 3

/-- The command for a queue pair over Ethernet. -/
theorem modifyQp_holds_iff_overEthernet :
    overEthernet.bits.Holds (overEthernet.cmdIn plainDevx 0x77) (overEthernet.fields 0x77) ↔
      overEthernet.Fits 0x77 :=
  modifyQp_holds_iff plainDevx_lawful 0x77 overEthernet

end

end EpDemo.Mlx5gda
