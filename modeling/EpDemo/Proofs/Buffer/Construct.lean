import EpDemo.Proofs.Buffer.Setup

/-!
# `EpDemo.Proofs.Buffer.Construct`: what the constructor leaves

The constructor allocates arrays, calls `init_ibgda` and allocates the workspace. The allocations
touch the ledger and the pointers only (`SameQueues`), and `init_ibgda` alone decides what the queue
pairs look like (`initIbgda_cases`): it runs to its end and every slot is set up, or it stops and
the slots are those of the turns that it had done. `new_returned` takes a constructor that returned
apart into these parts.
-/

set_option autoImplicit false

namespace EpDemo.Lifecycle

open EpDemo.Library EpDemo.Memheap EpDemo.Mlx5gda
open EpDemo.Buffer (IpcBuffer)

namespace EpBuffer

/-! ### Allocations -/

/-- The members that no allocation writes. -/
structure SameQueues (ep ep' : EpBuffer) : Prop where
  config : ep'.config = ep.config
  device : ep'.device = ep.device
  pdInitialised : ep'.pdInitialised = ep.pdInitialised
  qps : ep'.qps = ep.qps
  qpDevctxs : ep'.qpDevctxs = ep.qpDevctxs
  ibgdaDisabled : ep'.ibgdaDisabled = ep.ibgdaDisabled
  ipc : ep'.ipc = ep.ipc
  mappings : ep'.mappings = ep.mappings

/-- Nothing was written yet. -/
theorem SameQueues.refl (ep : EpBuffer) : SameQueues ep ep :=
  ⟨rfl, rfl, rfl, rfl, rfl, rfl, rfl, rfl⟩

/-- One allocation after the other. -/
theorem SameQueues.trans {ep ep' ep'' : EpBuffer} (h : SameQueues ep ep')
    (h' : SameQueues ep' ep'') : SameQueues ep ep'' :=
  ⟨h'.config.trans h.config, h'.device.trans h.device, h'.pdInitialised.trans h.pdInitialised,
    h'.qps.trans h.qps, h'.qpDevctxs.trans h.qpDevctxs, h'.ibgdaDisabled.trans h.ibgdaDisabled,
    h'.ipc.trans h.ipc, h'.mappings.trans h.mappings⟩

/-- To acquire a resource writes the ledger and a pointer. -/
theorem sameQueues_acquire (ep : EpBuffer) (k : Resource) : SameQueues ep (ep.acquire k) :=
  ⟨rfl, rfl, rfl, rfl, rfl, rfl, rfl, rfl⟩

/-- To release a resource writes the ledger and a pointer. -/
theorem sameQueues_release (ep : EpBuffer) (k : Resource) : SameQueues ep (ep.release k) := by
  unfold release
  split
  · exact .refl ep
  · exact ⟨rfl, rfl, rfl, rfl, rfl, rfl, rfl, rfl⟩

/-- A pointer to another resource is not changed. -/
theorem pointers_acquire_of_ne (ep : EpBuffer) {k k' : Resource} (h : k' ≠ k) :
    (ep.acquire k).pointers k' = ep.pointers k' :=
  Function.update_of_ne h ..

/-- The pointer to a new resource has its number. -/
@[simp] theorem pointers_acquire_self (ep : EpBuffer) (k : Resource) :
    (ep.acquire k).pointers k = some ep.ledger.next :=
  Function.update_self ..

/-- A release does not change the pointers to other resources. -/
theorem pointers_release_of_ne (ep : EpBuffer) {k k' : Resource} (h : k' ≠ k) :
    (ep.release k).pointers k' = ep.pointers k' := by
  unfold release
  split
  · rfl
  · exact Function.update_of_ne h ..

/-- The pointer to a released resource is null. -/
@[simp] theorem pointers_release_self (ep : EpBuffer) (k : Resource) :
    (ep.release k).pointers k = none := by
  unfold release
  split
  · assumption
  · exact Function.update_self ..

/-! ### Calls under `CUDA_CHECK` -/

/-- What a call acquires when it succeeds. -/
def Checked.kinds : Checked → List Resource
  | .call _ => []
  | .acquire k _ => [k]

/-- A checked call acquires one resource or none, and does not write the queue pairs. -/
theorem sameQueues_cudaCheck (ep : EpBuffer) (c : Checked) : SameQueues ep (ep.cudaCheck c).1 := by
  cases c with
  | call ok => exact .refl ep
  | acquire k ok =>
    cases ok
    · exact .refl ep
    · exact sameQueues_acquire ep k

/-- A list of checked calls does not write the queue pairs, wherever it stops. -/
theorem sameQueues_forEach_cudaCheck (ep : EpBuffer) (cs : List Checked) :
    SameQueues ep (forEach cudaCheck cs ep).1 :=
  forEach_invariant (I := SameQueues ep) (.refl ep) fun c _ t ht =>
    ht.trans (sameQueues_cudaCheck t c)

/-- A pointer that no call acquires is not changed. -/
theorem pointers_cudaCheck_of_notMem (ep : EpBuffer) {c : Checked} {k : Resource}
    (h : k ∉ c.kinds) : (ep.cudaCheck c).1.pointers k = ep.pointers k := by
  cases c with
  | call ok => rfl
  | acquire k' ok =>
    cases ok
    · rfl
    · exact pointers_acquire_of_ne ep (by simpa [Checked.kinds] using h)

/-- A list of checked calls writes the pointers of its own resources only. -/
theorem pointers_forEach_cudaCheck (ep : EpBuffer) {cs : List Checked} {k : Resource}
    (h : k ∉ cs.flatMap Checked.kinds) :
    (forEach cudaCheck cs ep).1.pointers k = ep.pointers k :=
  forEach_invariant (I := fun t => t.pointers k = ep.pointers k) rfl fun c hc t ht =>
    (pointers_cudaCheck_of_notMem t fun hk =>
      h (List.mem_flatMap.mpr ⟨c, hc, hk⟩)).trans ht

/-- The fabric memory is allocated without a look at the queue pairs, and a failure on the way
releases what was acquired. -/
theorem sameQueues_allocFabric (ep : EpBuffer) (ans : FabricAnswers) :
    SameQueues ep (ep.allocFabric ans).1 := by
  have h₁ := sameQueues_acquire ep .fabricMemHandle
  have h₂ := h₁.trans (sameQueues_acquire _ .fabricAddress)
  have h₃ := h₂.trans (sameQueues_acquire _ .fabricMapping)
  unfold allocFabric
  split_ifs
  · exact .refl ep
  · exact .refl ep
  · exact .refl ep
  · exact h₁.trans (sameQueues_release _ .fabricMemHandle)
  · exact (h₂.trans (sameQueues_release _ .fabricAddress)).trans
      (sameQueues_release _ .fabricMemHandle)
  · exact ((h₃.trans (sameQueues_release _ .fabricMapping)).trans
      (sameQueues_release _ .fabricAddress)).trans (sameQueues_release _ .fabricMemHandle)
  · exact h₃

/-- The fabric memory has three pointers, and no other one is written. -/
theorem pointers_allocFabric (ep : EpBuffer) (ans : FabricAnswers) {k : Resource}
    (hk : k ∉ [Resource.fabricMemHandle, .fabricAddress, .fabricMapping]) :
    (ep.allocFabric ans).1.pointers k = ep.pointers k := by
  simp only [List.mem_cons, List.not_mem_nil, or_false, not_or] at hk
  obtain ⟨hhandle, haddress, hmapping⟩ := hk
  unfold allocFabric
  split_ifs <;>
    simp only [pointers_release_of_ne, pointers_acquire_of_ne, ne_eq, hhandle, haddress, hmapping,
      not_false_eq_true]

/-- The resources of `init_ibgda`. -/
def ibgdaKinds : List Resource := [.pd, .mr, .ctrlBuf, .ctrlBufUmem, .ctrlBufHeap]

/-- The buffer is allocated without a look at the queue pairs, in both modes. -/
theorem sameQueues_allocGdrBuffer (ep : EpBuffer) (ans : NewAnswers) :
    SameQueues ep (ep.allocGdrBuffer ans).1 := by
  unfold allocGdrBuffer
  split
  · exact sameQueues_allocFabric ep ans.fabric
  · exact sameQueues_cudaCheck ep _

/-- What is allocated before `init_ibgda`. -/
def arrayKinds : List Resource :=
  [.raddrs, .rkeys, .qpDevctxs, .nvlinkAvailable, .ipcPeerPtrsHost, .ipcPeerPtrs, .commStream]

/-- What `gdr_buffer` is made of, in one mode or the other. -/
def gdrKinds : List Resource := [.gdrBuffer, .fabricMemHandle, .fabricAddress, .fabricMapping]

/-- The allocations before `init_ibgda` acquire none of its resources. -/
theorem notMem_of_ibgdaKinds : ∀ k ∈ ibgdaKinds, k ∉ arrayKinds ∧ k ∉ gdrKinds ∧
    k ≠ .workspace := by
  decide

/-- Only the pointers of `gdr_buffer` are written for it. -/
theorem pointers_allocGdrBuffer (ep : EpBuffer) (ans : NewAnswers) {k : Resource}
    (hk : k ∉ gdrKinds) : (ep.allocGdrBuffer ans).1.pointers k = ep.pointers k := by
  simp only [gdrKinds, List.mem_cons, List.not_mem_nil, or_false, not_or] at hk
  unfold allocGdrBuffer
  split
  · exact pointers_allocFabric ep _ (by simpa using hk.2)
  · exact pointers_cudaCheck_of_notMem ep (by simpa [Checked.kinds] using hk.1)

/-- Only the pointers of the arrays are written for them. -/
theorem pointers_allocArrays (ep : EpBuffer) (ans : NewAnswers) {k : Resource}
    (hk : k ∉ arrayKinds) : (ep.allocArrays ans).1.pointers k = ep.pointers k :=
  pointers_forEach_cudaCheck ep hk

/-- Only the pointer of the workspace is written for it. -/
theorem pointers_allocWorkspace (ep : EpBuffer) (ans : NewAnswers) {k : Resource}
    (hk : k ≠ .workspace) : (ep.allocWorkspace ans).1.pointers k = ep.pointers k :=
  pointers_forEach_cudaCheck ep (by simpa [Checked.kinds] using hk)

/-! ### `init_ibgda` -/

/-- `init_ibgda` comes to the protection domain and gets one. -/
def InitAnswers.AllocatesPd (ans : InitAnswers) : Prop :=
  ans.deviceFound = true ∧ ans.openDevice = true ∧ ans.queryPort = true ∧ ans.gidFound = true ∧
    ans.queryGid = true ∧ ans.allocPd = true

instance (ans : InitAnswers) : Decidable ans.AllocatesPd := inferInstanceAs (Decidable (_ ∧ _))

/-- Every call of `init_ibgda` succeeds whose result is looked at, for `n` queue pairs. -/
def InitAnswers.Succeed (ans : InitAnswers) (n : ℕ) : Prop :=
  ans.AllocatesPd ∧ (ans.ctrlBuf = true ∧ ans.umemReg = true ∧ ans.heapCreate = true) ∧
    ∀ i < n, (ans.setups i).Succeed

/-- The members before the loop of `init_ibgda`. -/
def prepared (ep : EpBuffer) (ans : InitAnswers) : EpBuffer :=
  let ep := { ep.acquire .pd with pdInitialised := ans.initObj }
  let ep := if ans.regMr then ep.acquire .mr else ep
  let ep := ((ep.acquire .ctrlBuf).acquire .ctrlBufUmem).acquire .ctrlBufHeap
  { ep with device := { ep.device with heap := memheapCreate ctrlBufSize } }

section

variable {ep : EpBuffer} {ans : InitAnswers}

/-- Without a protection domain nothing changes. -/
theorem initIbgda_of_not (h : ¬ans.AllocatesPd) :
    ∃ e, ep.initIbgda ans = (ep, some e) ∧ (e = .failed ∨ e = .threw) := by
  unfold initIbgda
  split_ifs with h₁ h₂ h₃ h₄ h₅ h₆
  · exact ⟨.threw, rfl, Or.inr rfl⟩
  · exact ⟨.failed, rfl, Or.inl rfl⟩
  · exact ⟨.failed, rfl, Or.inl rfl⟩
  · exact ⟨.failed, rfl, Or.inl rfl⟩
  · exact ⟨.failed, rfl, Or.inl rfl⟩
  · exact ⟨.failed, rfl, Or.inl rfl⟩
  · exact absurd ⟨by simpa using h₁, by simpa using h₂, by simpa using h₃, by simpa using h₄,
      by simpa using h₅, by simpa using h₆⟩ h

/-- With a protection domain `init_ibgda` goes on to the memory of the queue pairs. -/
theorem initIbgda_of_pd (h : ans.AllocatesPd) : ep.initIbgda ans = ep.initMemory ans := by
  obtain ⟨h₁, h₂, h₃, h₄, h₅, h₆⟩ := h
  simp [initIbgda, h₁, h₂, h₃, h₄, h₅, h₆]

/-- `init_ibgda` comes to its loop. -/
theorem initMemory_of_heap (h : ans.ctrlBuf = true ∧ ans.umemReg = true ∧ ans.heapCreate = true) :
    ep.initMemory ans =
      forEach (initSlot ans.setups) (List.range' 0 (ep.prepared ans).useQpCount)
        (ep.prepared ans) := by
  obtain ⟨h₁, h₂, h₃⟩ := h
  simp [initMemory, prepared, h₁, h₂, h₃]

/-- The members that `prepared` leaves alone. -/
theorem prepared_eq (ep : EpBuffer) (ans : InitAnswers) :
    (ep.prepared ans).config = ep.config ∧ (ep.prepared ans).qps = ep.qps ∧
      (ep.prepared ans).qpDevctxs = ep.qpDevctxs ∧
      (ep.prepared ans).ibgdaDisabled = ep.ibgdaDisabled ∧ (ep.prepared ans).ipc = ep.ipc ∧
      (ep.prepared ans).mappings = ep.mappings ∧
      (ep.prepared ans).pdInitialised = ans.initObj ∧
      (ep.prepared ans).device = { ep.device with heap := memheapCreate ctrlBufSize } := by
  unfold prepared
  cases ans.regMr <;> exact ⟨rfl, rfl, rfl, rfl, rfl, rfl, rfl, rfl⟩

/-- The memory region is there when it was registered. -/
theorem prepared_mr (hmr : ep.pointers .mr = none) :
    (ep.prepared ans).pointers .mr = none ↔ ans.regMr = false := by
  unfold prepared
  cases hreg : ans.regMr
  · simp [acquire, hmr]
  · simp [acquire]

/-- How `init_ibgda` leaves the members when it stops after the protection domain was allocated. -/
structure Halfway (ep t : EpBuffer) : Prop where
  config : t.config = ep.config
  ipc : t.ipc = ep.ipc
  mappings : t.mappings = ep.mappings
  ibgdaDisabled : t.ibgdaDisabled = ep.ibgdaDisabled
  pointers : ∀ k ∉ ibgdaKinds, t.pointers k = ep.pointers k
  pd : t.pointers .pd ≠ none
  slots : Slots t.device.objects.next t.qps
  length_le : t.qps.length ≤ ep.useQpCount
  issued : ∀ c ∈ t.device.issued, c ∈ ep.device.issued ∨ c.Legal

/-- The pointers that `prepared` does not write, and the one to the protection domain. -/
theorem prepared_pointers (ep : EpBuffer) (ans : InitAnswers) :
    (∀ k ∉ ibgdaKinds, (ep.prepared ans).pointers k = ep.pointers k) ∧
      (ep.prepared ans).pointers .pd ≠ none := by
  constructor
  · intro k hk
    simp only [ibgdaKinds, List.mem_cons, List.not_mem_nil, or_false, not_or] at hk
    obtain ⟨hpd, hmr, hbuf, humem, hheap⟩ := hk
    unfold prepared
    cases ans.regMr <;> simp [acquire, Function.update_of_ne, hpd, hmr, hbuf, humem, hheap]
  · unfold prepared
    cases ans.regMr <;> simp [acquire]

/-- `init_ibgda` stops before its loop. -/
theorem initMemory_of_not (ep : EpBuffer)
    (h : ¬(ans.ctrlBuf = true ∧ ans.umemReg = true ∧ ans.heapCreate = true)) :
    ∃ t e, ep.initMemory ans = (t, some e) ∧ (e = .failed ∨ e = .threw) ∧
      SameQueues { ep with pdInitialised := ans.initObj } t ∧
      (∀ k ∉ ibgdaKinds, t.pointers k = ep.pointers k) ∧ t.pointers .pd ≠ none := by
  -- The memory region is registered or not, and the code goes on in both cases.
  obtain ⟨base, hbase, hsame, hptr, hpd⟩ : ∃ base : EpBuffer,
      base = (if ans.regMr then
        ({ ep.acquire .pd with pdInitialised := ans.initObj } : EpBuffer).acquire .mr
        else { ep.acquire .pd with pdInitialised := ans.initObj }) ∧
      SameQueues { ep with pdInitialised := ans.initObj } base ∧
      (∀ k ∉ ibgdaKinds, base.pointers k = ep.pointers k) ∧ base.pointers .pd ≠ none := by
    refine ⟨_, rfl, ?_, fun k hk => ?_, ?_⟩
    · split
      · exact ⟨rfl, rfl, rfl, rfl, rfl, rfl, rfl, rfl⟩
      · exact ⟨rfl, rfl, rfl, rfl, rfl, rfl, rfl, rfl⟩
    · simp only [ibgdaKinds, List.mem_cons, List.not_mem_nil, or_false, not_or] at hk
      split <;> simp [acquire, Function.update_of_ne, hk]
    · split <;> simp [acquire]
  -- A resource of `init_ibgda` changes no pointer of another kind.
  have hmore : ∀ (t : EpBuffer) (k : Resource), k ∈ ibgdaKinds → k ≠ .pd →
      (∀ k' ∉ ibgdaKinds, t.pointers k' = ep.pointers k') ∧ t.pointers .pd ≠ none →
      (∀ k' ∉ ibgdaKinds, (t.acquire k).pointers k' = ep.pointers k') ∧
        (t.acquire k).pointers .pd ≠ none := fun t k hk hne ht =>
    ⟨fun k' hk' => (pointers_acquire_of_ne t (ne_of_mem_of_not_mem hk hk').symm).trans
        (ht.1 k' hk'),
      (pointers_acquire_of_ne t (Ne.symm hne)).trans_ne ht.2⟩
  have hbuf := hmore base .ctrlBuf (by decide) (by decide) ⟨hptr, hpd⟩
  have humem := hmore _ .ctrlBufUmem (by decide) (by decide) hbuf
  have hsame₁ := hsame.trans (sameQueues_acquire base .ctrlBuf)
  unfold initMemory
  simp only [← hbase]
  -- Each of the three allocations can fail, with what came before it still acquired.
  cases h₁ : ans.ctrlBuf with
  | false => exact ⟨base, .threw, rfl, Or.inr rfl, hsame, hptr, hpd⟩
  | true =>
  cases h₂ : ans.umemReg with
  | false =>
    refine ⟨(base.acquire .ctrlBuf).release .mr, .failed, rfl, Or.inl rfl,
      hsame₁.trans (sameQueues_release ..), fun k hk => ?_, ?_⟩
    · have hmr : Resource.mr ∈ ibgdaKinds := by decide
      rw [pointers_release_of_ne _ (ne_of_mem_of_not_mem hmr hk).symm, hbuf.1 k hk]
    · rw [pointers_release_of_ne _ (by decide)]
      exact hbuf.2
  | true =>
  cases h₃ : ans.heapCreate with
  | false =>
    exact ⟨(base.acquire .ctrlBuf).acquire .ctrlBufUmem, .failed, rfl, Or.inl rfl,
      hsame₁.trans (sameQueues_acquire ..), humem⟩
  | true => exact absurd ⟨h₁, h₂, h₃⟩ h

/-- `init_ibgda` with a protection domain: it sets up all slots, or it stops. -/
theorem initIbgda_cases (hqps : ep.qps = []) (hpd : ans.AllocatesPd) :
    (∃ t, ep.initIbgda ans = (t, none) ∧ ans.Succeed ep.useQpCount ∧
      Setting (ep.prepared ans) ans.setups ep.useQpCount t ∧ t.qps.length = ep.useQpCount) ∨
    ∃ t e, ep.initIbgda ans = (t, some e) ∧ (e = .failed ∨ e = .threw) ∧ Halfway ep t := by
  rw [initIbgda_of_pd hpd]
  obtain ⟨hconfig, hqps', -, hflag, hipc, hmaps, -, hdevice⟩ := prepared_eq ep ans
  obtain ⟨hpointers, hpd'⟩ := prepared_pointers ep ans
  have huse : (ep.prepared ans).useQpCount = ep.useQpCount := by rw [useQpCount, hconfig]; rfl
  by_cases hheap : ans.ctrlBuf = true ∧ ans.umemReg = true ∧ ans.heapCreate = true
  · rw [initMemory_of_heap hheap]
    have hcases := @initSlots_cases (ep.prepared ans) ans.setups (hqps'.trans hqps)
    rw [huse] at hcases ⊢
    rcases hcases with ⟨t, heq, hset, hlen⟩ | ⟨i, u, t, e, heq, hi, hstop, hlen, hflag'⟩
    · exact Or.inl ⟨t, heq, ⟨hpd, hheap, hset.done.succeeded⟩, hset, hlen⟩
    · refine Or.inr ⟨t, e, heq, hstop.exit.imp id And.left, ?_⟩
      have hframe := hstop.frame
      refine ⟨hframe.config.trans hconfig, hframe.ipc.trans hipc, hframe.mappings.trans hmaps,
        hflag'.trans hflag, fun k hk => ?_, ?_, hstop.slots, hlen ▸ hi.le, fun c hc => ?_⟩
      · rw [hframe.pointers, hpointers k hk]
      · rw [hframe.pointers]
        exact hpd'
      · rcases hstop.spared.issued c hc with hc | hc
        · rw [hdevice] at hc
          exact Or.inl hc
        · exact Or.inr hc
  · -- It stops before the loop, without any slot.
    refine Or.inr ?_
    have hno : Slots ep.device.objects.next ep.qps := hqps ▸ Slots.empty _
    have hzero : ep.qps.length ≤ ep.useQpCount := by rw [hqps]; exact Nat.zero_le _
    have hkeep : ∀ t : EpBuffer, SameQueues { ep with pdInitialised := ans.initObj } t →
        (∀ k ∉ ibgdaKinds, t.pointers k = ep.pointers k) → t.pointers .pd ≠ none →
        Halfway ep t := fun t hsame hptr hpd =>
      ⟨hsame.config, hsame.ipc, hsame.mappings, hsame.ibgdaDisabled, hptr, hpd,
        hsame.device ▸ hsame.qps ▸ hno, hsame.qps ▸ hzero, fun c hc => Or.inl (hsame.device ▸ hc)⟩
    obtain ⟨t, e, heq, hexit, hsame, hptr, hpd⟩ := initMemory_of_not ep hheap
    exact ⟨t, e, heq, hexit, hkeep t hsame hptr hpd⟩

end

/-! ### The constructor -/

/-- The parts of a constructor that returned. -/
theorem new_parts {config : IpcBuffer} {ans : NewAnswers} {ep : EpBuffer}
    (h : new config ans = (ep, none)) :
    ∃ a b ep₁ t, forEach cudaCheck [.call ans.getDevice, .call ans.getAttribute] (blank config) =
        (a, none) ∧
      a.allocGdrBuffer ans = (b, none) ∧ b.allocArrays ans = (ep₁, none) ∧
      ep₁.tryIbgda ans.init = (t, none) ∧ t.allocWorkspace ans = (ep, none) := by
  unfold new at h
  obtain ⟨a, ha, h⟩ := andThen_eq_none.mp h
  obtain ⟨b, hb, h⟩ := andThen_eq_none.mp h
  obtain ⟨ep₁, h₁, h⟩ := andThen_eq_none.mp h
  obtain ⟨t, ht, h⟩ := andThen_eq_none.mp h
  exact ⟨a, b, ep₁, t, ha, hb, h₁, ht, h⟩

/-- `init_ibgda` is called on members that are still blank, but for what the allocations acquired,
and the allocation of the workspace after it changes nothing else. -/
theorem new_returned {config : IpcBuffer} {ans : NewAnswers} {ep : EpBuffer}
    (h : new config ans = (ep, none)) :
    ∃ ep₁ t, SameQueues (blank config) ep₁ ∧ (∀ k ∈ ibgdaKinds, ep₁.pointers k = none) ∧
      (ep₁.initIbgda ans.init = (t, none) ∧ SameQueues t ep ∨
        ep₁.initIbgda ans.init = (t, some .failed) ∧
          SameQueues { t with ibgdaDisabled := true } ep) ∧
      ∀ k, k ≠ .workspace → ep.pointers k = t.pointers k := by
  obtain ⟨a, b, ep₁, t, ha, hb, h₁, ht, hw⟩ := new_parts h
  -- The allocations before `init_ibgda` write no queue pairs.
  have hsame : SameQueues (blank config) ep₁ := by
    have hsa := sameQueues_forEach_cudaCheck (blank config)
      [.call ans.getDevice, .call ans.getAttribute]
    have hsb := sameQueues_allocGdrBuffer a ans
    have hs₁ : SameQueues b (b.allocArrays ans).1 := sameQueues_forEach_cudaCheck b _
    rw [ha] at hsa
    rw [hb] at hsb
    rw [h₁] at hs₁
    exact (hsa.trans hsb).trans hs₁
  -- Nor do they acquire its resources.
  have hnull : ∀ k ∈ ibgdaKinds, ep₁.pointers k = none := by
    intro k hk
    have hpa : (forEach cudaCheck [.call ans.getDevice, .call ans.getAttribute]
        (blank config)).1.pointers k = none :=
      pointers_forEach_cudaCheck (blank config) (by simp [Checked.kinds])
    obtain ⟨harrays, hgdr, -⟩ := notMem_of_ibgdaKinds k hk
    have hpb := pointers_allocGdrBuffer a ans hgdr
    have hp₁ := pointers_allocArrays b ans harrays
    rw [ha] at hpa
    rw [hb] at hpb
    rw [h₁] at hp₁
    exact hp₁.trans (hpb.trans hpa)
  -- The workspace comes last.
  have hlast : SameQueues t ep := by
    have hs : SameQueues t (t.allocWorkspace ans).1 := sameQueues_forEach_cudaCheck t _
    rwa [hw] at hs
  have hpointers : ∀ k, k ≠ .workspace → ep.pointers k = t.pointers k := by
    intro k hk
    have hp := pointers_allocWorkspace t ans hk
    rwa [hw] at hp
  unfold tryIbgda at ht
  -- `init_ibgda` returned zero, or it returned an error that the constructor catches.
  rcases hinit : ep₁.initIbgda ans.init with ⟨u, _ | e⟩
  · rw [hinit] at ht
    cases ht
    exact ⟨ep₁, t, hsame, hnull, Or.inl ⟨hinit, hlast⟩, hpointers⟩
  · rw [hinit] at ht
    cases e <;> cases ht
    exact ⟨ep₁, u, hsame, hnull, Or.inr ⟨hinit, hlast⟩, hpointers⟩

/-- What holds of the slots of every `EpBuffer` between two calls. -/
structure Sound (ep : EpBuffer) : Prop where
  slots : Slots ep.device.objects.next ep.qps
  length_le : ep.qps.length ≤ ep.useQpCount
  enabled : ep.ibgdaDisabled = false → ep.qps.length = ep.useQpCount

/-- The invariant of the loops does not depend on what the allocations write. -/
theorem SameQueues.done {d : Device} {setups : ℕ → SetupAnswers} {i : ℕ} {ep ep' : EpBuffer}
    (h : SameQueues ep ep') (hdone : Done d setups i ep) : Done d setups i ep' := by
  obtain ⟨hspared, hslots, hready, hrest, hsucceeded, hserved, hheap⟩ := hdone
  constructor
  · rwa [h.device]
  · rwa [h.device, h.qps]
  · rwa [h.device, h.qps, h.qpDevctxs]
  · rwa [h.qps]
  · exact hsucceeded
  · rwa [h.qps]
  · rwa [h.device, h.qps]

/-- The number of queue pairs that are used comes from the configuration. -/
theorem SameQueues.useQpCount {ep ep' : EpBuffer} (h : SameQueues ep ep') :
    ep'.useQpCount = ep.useQpCount := by
  rw [EpBuffer.useQpCount, h.config]
  rfl

/-- The members after a constructor that returned: IBGDA is enabled and every slot is set up, or it
is disabled. -/
theorem new_cases {config : IpcBuffer} {ans : NewAnswers} {ep : EpBuffer}
    (h : new config ans = (ep, none)) :
    ep.config = config ∧ Sound ep ∧ (∀ c ∈ ep.device.issued, c.Legal) ∧
      (ep.ibgdaDisabled = false → ans.init.Succeed ep.useQpCount ∧
        ep.pdInitialised = ans.init.initObj ∧ (ep.pointers .mr = none ↔ ans.init.regMr = false) ∧
        Done (.fresh ctrlBufSize) ans.init.setups ep.useQpCount ep) := by
  obtain ⟨ep₁, t, hsame, hnull, hinit, hpointers⟩ := new_returned h
  have hqps : ep₁.qps = [] := hsame.qps
  have hissued : ep₁.device.issued = [] := by rw [hsame.device]; rfl
  have hcfg₁ : ep₁.config = config := hsame.config
  -- When `init_ibgda` fails, what it left is kept and IBGDA is disabled.
  have hfailed : ∀ t : EpBuffer, t.config = ep₁.config → Slots t.device.objects.next t.qps →
      t.qps.length ≤ ep₁.useQpCount → (∀ c ∈ t.device.issued, c ∈ ep₁.device.issued ∨ c.Legal) →
      SameQueues { t with ibgdaDisabled := true } ep →
      ep.config = config ∧ Sound ep ∧ (∀ c ∈ ep.device.issued, c.Legal) ∧
        (ep.ibgdaDisabled = false → ans.init.Succeed ep.useQpCount ∧
          ep.pdInitialised = ans.init.initObj ∧
          (ep.pointers .mr = none ↔ ans.init.regMr = false) ∧
          Done (.fresh ctrlBufSize) ans.init.setups ep.useQpCount ep) := by
    intro t hconfig hslots hle hlegal hlast
    have hdisabled : ep.ibgdaDisabled ≠ false := by rw [hlast.ibgdaDisabled]; simp
    have hcfg : ep.config = config := (hlast.config.trans hconfig).trans hcfg₁
    have huse : ep.useQpCount = ep₁.useQpCount := by
      rw [useQpCount, useQpCount, hcfg, hcfg₁]
    refine ⟨hcfg, ⟨?_, ?_, fun hno => absurd hno hdisabled⟩, fun c hc => ?_,
      fun hno => absurd hno hdisabled⟩
    · rw [hlast.device, hlast.qps]
      exact hslots
    · rw [hlast.qps, huse]
      exact hle
    · rw [hlast.device] at hc
      rcases hlegal c hc with hc | hc
      · exact absurd (hissued ▸ hc) List.not_mem_nil
      · exact hc
  by_cases hpd : ans.init.AllocatesPd
  · rcases initIbgda_cases hqps hpd with
      ⟨u, heq, hsucceed, hset, hlen⟩ | ⟨u, e, heq, -, hhalf⟩
    · -- `init_ibgda` returned zero.
      obtain ⟨hconfig, -, -, -, -, -, hobj, hdevice⟩ := prepared_eq ep₁ ans.init
      rcases hinit with ⟨hcase, hlast⟩ | ⟨hcase, -⟩
      swap
      · rw [heq] at hcase
        cases hcase
      obtain rfl : u = t := congrArg Prod.fst (heq.symm.trans hcase)
      have hdev : (ep₁.prepared ans.init).device = .fresh ctrlBufSize := by
        rw [hdevice, hsame.device]
        rfl
      have hcfg : ep.config = config := by
        rw [hlast.config, hset.frame.config, hconfig, hcfg₁]
      have huse : ep.useQpCount = ep₁.useQpCount := by
        rw [useQpCount, useQpCount, hcfg, hcfg₁]
      have hdone := hlast.done (hdev ▸ hset.done)
      rw [← huse] at hdone hlen
      refine ⟨hcfg, ⟨hdone.slots, (hlast.qps ▸ hlen).le, fun _ => hlast.qps ▸ hlen⟩,
        fun c hc => ?_, fun _ => ⟨huse ▸ hsucceed, ?_, ?_, hdone⟩⟩
      · rcases hdone.spared.issued c hc with hc | hc
        · exact absurd hc List.not_mem_nil
        · exact hc
      · rw [hlast.pdInitialised, hset.frame.pdInitialised, hobj]
      · rw [hpointers .mr (by decide), hset.frame.pointers]
        exact prepared_mr (hnull .mr (by decide))
    · rcases hinit with ⟨hcase, -⟩ | ⟨hcase, hlast⟩
      · rw [heq] at hcase
        cases hcase
      obtain rfl : u = t := congrArg Prod.fst (heq.symm.trans hcase)
      exact hfailed u hhalf.config hhalf.slots hhalf.length_le hhalf.issued hlast
  · obtain ⟨e, heq, -⟩ := @initIbgda_of_not ep₁ _ hpd
    rcases hinit with ⟨hcase, -⟩ | ⟨hcase, hlast⟩
    · rw [heq] at hcase
      cases hcase
    obtain rfl : ep₁ = t := congrArg Prod.fst (heq.symm.trans hcase)
    refine hfailed ep₁ rfl (hqps ▸ Slots.empty _) ?_ (fun c hc => Or.inl hc) hlast
    rw [hqps]
    exact Nat.zero_le _

end EpBuffer

end EpDemo.Lifecycle
