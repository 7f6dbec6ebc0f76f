import EpDemo.Proofs.Buffer.Calls
import EpDemo.Proofs.Buffer.NvlinkIpc

/-!
# `EpDemo.Proofs.Buffer.Ownership`: which member owns what

Every resource that is live is owned by a pointer, by a mapping of a rank, or by nothing at all:
`Accounts ep lost` is the accounting equation of the ledger for the members of `ep`, with `lost` the
resources that no member points to any more.

The constructor acquires each pointer once, so it loses nothing, wherever it stops (`accounts_new`).
Of the calls only `sync_nvlink_ipc_handles` acquires resources, and it loses a mapping when it opens
the memory of a rank whose slot is taken (`syncNvlinkIpcHandles_accounts`). The destructor releases
every pointer but those of `init_ibgda` (`destroy_accounts`).
-/

set_option autoImplicit false

namespace EpDemo.Lifecycle

open EpDemo.Library EpDemo.Memheap EpDemo.Mlx5gda
open EpDemo.Buffer (IpcBuffer IpcCall PeerPtr IpcArrays openPeer fabricPeer startArrays ipcArrays
  groupStart groupEnd peerAccess numInt32s)

namespace EpBuffer

/-! ### The accounting equation -/

/-- All kinds of resources. -/
def kinds : List Resource :=
  [.gdrBuffer, .fabricMemHandle, .fabricAddress, .fabricMapping, .raddrs, .rkeys, .qpDevctxs,
    .nvlinkAvailable, .ipcPeerPtrsHost, .ipcPeerPtrs, .commStream, .pd, .mr, .ctrlBuf,
    .ctrlBufUmem, .ctrlBufHeap, .workspace, .ipcMapping]

/-- The list of kinds is complete. -/
theorem mem_kinds (k : Resource) : k ∈ kinds := by cases k <;> decide

/-- It names no kind twice. -/
theorem nodup_kinds : kinds.Nodup := by decide

/-- What the pointers own. -/
def owned (ep : EpBuffer) : List (Ledger.Entry Resource) := Ledger.held id kinds ep.pointers

/-- What the slots of the ranks own. -/
def mapped (ep : EpBuffer) : List (Ledger.Entry Resource) :=
  Ledger.held (fun _ => .ipcMapping) (List.range ep.config.numRanks) ep.mappings

/-- What is live is what the members own together with what is lost. -/
def Accounts (ep : EpBuffer) (lost : List (Ledger.Entry Resource)) : Prop :=
  ep.ledger.Holds (owned ep ++ (mapped ep ++ lost))

/-- A fresh object owns nothing, and nothing is lost. -/
theorem accounts_blank (config : IpcBuffer) : Accounts (blank config) [] := by
  have howned : owned (blank config) = [] := Ledger.held_eq_nil.mpr fun _ _ => rfl
  have hmapped : mapped (blank config) = [] := Ledger.held_eq_nil.mpr fun _ _ => rfl
  rw [Accounts, howned, hmapped]
  exact .empty

section

variable {ep ep' : EpBuffer} {lost : List (Ledger.Entry Resource)} {k : Resource}

/-- Members that are the same own the same. -/
theorem Accounts.of_eq (h : Accounts ep lost) (hconfig : ep'.config = ep.config)
    (hledger : ep'.ledger = ep.ledger) (hpointers : ep'.pointers = ep.pointers)
    (hmappings : ep'.mappings = ep.mappings) : Accounts ep' lost := by
  rw [Accounts, owned, mapped, hconfig, hledger, hpointers, hmappings]
  exact h

/-- The loops over the queue pairs do not change what is owned. -/
theorem Accounts.frame (h : Accounts ep lost) (hframe : Frame ep ep') : Accounts ep' lost :=
  h.of_eq hframe.config hframe.ledger hframe.pointers hframe.mappings

/-- A resource is acquired for a null pointer. -/
theorem Accounts.acquire (h : Accounts ep lost) (hnull : ep.pointers k = none) :
    Accounts (ep.acquire k) lost :=
  Ledger.Holds.fill id h nodup_kinds (mem_kinds k) hnull

/-- A pointer is released, if it is not null. -/
theorem Accounts.release (h : Accounts ep lost) (k : Resource) : Accounts (ep.release k) lost := by
  unfold EpBuffer.release
  split
  · exact h
  · exact Ledger.Holds.clear id h nodup_kinds (mem_kinds k) ‹_›

/-- A list of releases keeps the accounts, for pointers that are null too. -/
theorem Accounts.foldl_release (ks : List Resource) :
    ∀ {ep : EpBuffer}, Accounts ep lost → Accounts (ks.foldl EpBuffer.release ep) lost := by
  induction ks with
  | nil => exact fun h => h
  | cons k ks ih => exact fun h => ih (h.release k)

/-! ### The constructor -/

/-- Calls under `CUDA_CHECK` that acquire different resources, for null pointers. -/
theorem Accounts.forEach_cudaCheck (cs : List Checked) :
    ∀ {ep : EpBuffer}, Accounts ep lost → (cs.flatMap Checked.kinds).Nodup →
      (∀ k ∈ cs.flatMap Checked.kinds, ep.pointers k = none) →
      Accounts (forEach cudaCheck cs ep).1 lost := by
  induction cs with
  | nil => exact fun h _ _ => h
  | cons c cs ih =>
    intro ep h hnodup hnull
    rw [List.flatMap_cons, List.nodup_append] at hnodup
    obtain ⟨-, hrest, hapart⟩ := hnodup
    -- A call acquires at most one resource, for a pointer that is null.
    have hfirst : Accounts (ep.cudaCheck c).1 lost := by
      cases c with
      | call ok => exact h
      | acquire k ok =>
        cases ok
        · exact h
        · exact h.acquire (hnull k (by simp [Checked.kinds]))
    refine andThen_invariant (I := fun u => Accounts u lost) hfirst fun t ht => ?_
    rw [ht] at hfirst
    refine ih hfirst hrest fun k hk => ?_
    -- The other calls acquire other resources, so their pointers are still null.
    have hother : k ∉ c.kinds := fun hmem => hapart k hmem k hk rfl
    have hsame := pointers_cudaCheck_of_notMem ep hother
    rw [ht] at hsame
    exact hsame.trans (hnull k (List.mem_append_right _ hk))

/-- The fabric memory is owned by its pointers, or was released where a step failed. -/
theorem Accounts.allocFabric (h : Accounts ep lost) (ans : FabricAnswers)
    (hnull : ∀ k ∈ [Resource.fabricMemHandle, .fabricAddress, .fabricMapping],
      ep.pointers k = none) : Accounts (ep.allocFabric ans).1 lost := by
  have h₁ : Accounts (ep.acquire .fabricMemHandle) lost := h.acquire (hnull _ (by simp))
  have h₂ : Accounts ((ep.acquire .fabricMemHandle).acquire .fabricAddress) lost :=
    h₁.acquire ((pointers_acquire_of_ne ep (by decide)).trans (hnull _ (by simp)))
  have h₃ : Accounts (((ep.acquire .fabricMemHandle).acquire .fabricAddress).acquire
      .fabricMapping) lost :=
    h₂.acquire ((pointers_acquire_of_ne _ (by decide)).trans
      ((pointers_acquire_of_ne ep (by decide)).trans (hnull _ (by simp))))
  unfold EpBuffer.allocFabric
  split_ifs
  · exact h
  · exact h
  · exact h
  · exact h₁.release _
  · exact (h₂.release _).release _
  · exact ((h₃.release _).release _).release _
  · exact h₃

/-- The buffer is owned by its pointers, in both modes. -/
theorem Accounts.allocGdrBuffer (h : Accounts ep lost) (ans : NewAnswers)
    (hnull : ∀ k ∈ gdrKinds, ep.pointers k = none) : Accounts (ep.allocGdrBuffer ans).1 lost := by
  unfold EpBuffer.allocGdrBuffer
  split
  · exact h.allocFabric ans.fabric fun k hk => hnull k (List.mem_cons_of_mem _ hk)
  · cases ans.gdrBuffer
    · exact h
    · exact h.acquire (hnull _ List.mem_cons_self)

/-- The members of `init_ibgda` once the memory region was asked for. -/
def registered (ep : EpBuffer) (ans : InitAnswers) : EpBuffer :=
  if ans.regMr then
    ({ ep.acquire .pd with pdInitialised := ans.initObj } : EpBuffer).acquire .mr
  else { ep.acquire .pd with pdInitialised := ans.initObj }

/-- To register the memory writes two pointers. -/
theorem pointers_registered_of_ne (ep : EpBuffer) (ans : InitAnswers) (hpd : k ≠ .pd)
    (hmr : k ≠ .mr) : (ep.registered ans).pointers k = ep.pointers k := by
  have hfirst : ({ ep.acquire .pd with pdInitialised := ans.initObj } : EpBuffer).pointers k =
      ep.pointers k := pointers_acquire_of_ne ep hpd
  unfold registered
  split
  · rw [pointers_acquire_of_ne _ hmr, hfirst]
  · exact hfirst

/-- The protection domain and the memory region are owned by their pointers. -/
theorem Accounts.registered (h : Accounts ep lost) (ans : InitAnswers)
    (hpd : ep.pointers .pd = none) (hmr : ep.pointers .mr = none) :
    Accounts (ep.registered ans) lost := by
  have hfirst : Accounts { ep.acquire .pd with pdInitialised := ans.initObj } lost :=
    (h.acquire hpd).of_eq rfl rfl rfl rfl
  unfold EpBuffer.registered
  split
  · refine hfirst.acquire (k := .mr) ?_
    show (ep.acquire .pd).pointers .mr = none
    rw [pointers_acquire_of_ne ep (by decide), hmr]
  · exact hfirst

/-- `init_ibgda` loses nothing, wherever it stops. -/
theorem Accounts.initIbgda (h : Accounts ep lost) (ans : InitAnswers) (hqps : ep.qps = [])
    (hnull : ∀ k ∈ ibgdaKinds, ep.pointers k = none) : Accounts (ep.initIbgda ans).1 lost := by
  by_cases hpd : ans.AllocatesPd
  swap
  · obtain ⟨e, heq, -⟩ := @initIbgda_of_not ep ans hpd
    rw [heq]
    exact h
  rw [initIbgda_of_pd hpd]
  have hnull' : ∀ k ∈ ibgdaKinds, k ≠ .pd → k ≠ .mr → (ep.registered ans).pointers k = none :=
    fun k hk hpd hmr => (pointers_registered_of_ne ep ans hpd hmr).trans (hnull k hk)
  have h₀ := h.registered ans (hnull _ (by decide)) (hnull _ (by decide))
  have h₁ := h₀.acquire (hnull' .ctrlBuf (by decide) (by decide) (by decide))
  have h₂ := h₁.acquire (k := .ctrlBufUmem) ((pointers_acquire_of_ne _ (by decide)).trans
    (hnull' _ (by decide) (by decide) (by decide)))
  have h₃ := h₂.acquire (k := .ctrlBufHeap) ((pointers_acquire_of_ne _ (by decide)).trans
    ((pointers_acquire_of_ne _ (by decide)).trans
      (hnull' _ (by decide) (by decide) (by decide))))
  by_cases hheap : ans.ctrlBuf = true ∧ ans.umemReg = true ∧ ans.heapCreate = true
  · -- The loop over the queue pairs does not touch these members.
    have hprepared : Accounts (ep.prepared ans) lost := h₃.of_eq rfl rfl rfl rfl
    rw [initMemory_of_heap hheap]
    rcases initSlots_cases ans.setups ((prepared_eq ep ans).2.1.trans hqps) with
      ⟨t, heq, hset, -⟩ | ⟨i, u, t, e, heq, -, hstop, -⟩
    · rw [heq]
      exact hprepared.frame hset.frame
    · rw [heq]
      exact hprepared.frame hstop.frame
  · have hstart : ep.initMemory ans =
        if !ans.ctrlBuf then (ep.registered ans, some .threw)
        else if !ans.umemReg then
          (((ep.registered ans).acquire .ctrlBuf).release .mr, some .failed)
        else if !ans.heapCreate then
          (((ep.registered ans).acquire .ctrlBuf).acquire .ctrlBufUmem, some .failed)
        else forEach (initSlot ans.setups) (List.range' 0 (ep.prepared ans).useQpCount)
          (ep.prepared ans) := rfl
    rw [hstart]
    split_ifs with hbuf humem hcreate
    · exact h₀
    · exact h₁.release _
    · exact h₂
    · exact absurd ⟨by simpa using hbuf, by simpa using humem, by simpa using hcreate⟩ hheap

/-- The first calls of the constructor acquire nothing. -/
theorem forEach_start (config : IpcBuffer) (ans : NewAnswers) :
    (forEach cudaCheck [.call ans.getDevice, .call ans.getAttribute] (blank config)).1 =
      blank config := by
  cases h₁ : ans.getDevice <;> cases h₂ : ans.getAttribute <;> rfl

/-- The pointers that are null when the constructor comes to `init_ibgda`. -/
theorem pointers_before_init {config : IpcBuffer} {ans : NewAnswers} {b ep₁ : EpBuffer}
    (hb : (blank config).allocGdrBuffer ans = (b, none)) (h₁ : b.allocArrays ans = (ep₁, none))
    (hgdr : k ∉ gdrKinds) (harrays : k ∉ arrayKinds) : ep₁.pointers k = none := by
  have hpb := pointers_allocGdrBuffer (blank config) ans hgdr
  have hp₁ := pointers_allocArrays b ans harrays
  rw [hb] at hpb
  rw [h₁] at hp₁
  exact hp₁.trans hpb

/-- `init_ibgda` changes the pointers to its own resources only. -/
theorem pointers_initIbgda (ep : EpBuffer) (ans : InitAnswers) (hqps : ep.qps = [])
    (hk : k ∉ ibgdaKinds) : (ep.initIbgda ans).1.pointers k = ep.pointers k := by
  by_cases hpd : ans.AllocatesPd
  · rcases initIbgda_cases hqps hpd with ⟨t, heq, -, hset, -⟩ | ⟨t, e, heq, -, hhalf⟩
    · rw [heq]
      exact (congrFun hset.frame.pointers k).trans ((prepared_pointers ep ans).1 k hk)
    · rw [heq]
      exact hhalf.pointers k hk
  · obtain ⟨e, heq, -⟩ := @initIbgda_of_not ep ans hpd
    rw [heq]

/-- The constructor sees `init_ibgda` return or throw, and takes a failure for a return. -/
theorem tryIbgda_fst (ep : EpBuffer) (ans : InitAnswers) :
    (ep.tryIbgda ans).1.ledger = (ep.initIbgda ans).1.ledger ∧
      (ep.tryIbgda ans).1.pointers = (ep.initIbgda ans).1.pointers ∧
      (ep.tryIbgda ans).1.mappings = (ep.initIbgda ans).1.mappings ∧
      (ep.tryIbgda ans).1.config = (ep.initIbgda ans).1.config := by
  unfold tryIbgda
  rcases ep.initIbgda ans with ⟨t, _ | e⟩
  · exact ⟨rfl, rfl, rfl, rfl⟩
  · cases e <;> exact ⟨rfl, rfl, rfl, rfl⟩

/-- The constructor loses nothing, wherever it stops. -/
theorem accounts_new (config : IpcBuffer) (ans : NewAnswers) :
    Accounts (new config ans).1 [] := by
  have hblank := accounts_blank config
  unfold new
  -- The two calls on the device acquire nothing.
  refine andThen_invariant (I := fun u => Accounts u []) ?_ fun a ha => ?_
  · rw [forEach_start]
    exact hblank
  obtain rfl : blank config = a := by
    have hstart := forEach_start config ans
    rw [ha] at hstart
    exact hstart.symm
  have hb : Accounts ((blank config).allocGdrBuffer ans).1 [] :=
    hblank.allocGdrBuffer ans fun _ _ => rfl
  refine andThen_invariant (I := fun u => Accounts u []) hb fun b hb' => ?_
  rw [hb'] at hb
  -- The pointers of the arrays are not those of the buffer.
  have hnull : ∀ k ∈ arrayKinds, b.pointers k = none := by
    intro k hk
    have hgdr : ∀ k ∈ arrayKinds, k ∉ gdrKinds := by decide
    have hsame := pointers_allocGdrBuffer (blank config) ans (hgdr k hk)
    rw [hb'] at hsame
    exact hsame
  have h₁ : Accounts (b.allocArrays ans).1 [] :=
    Accounts.forEach_cudaCheck _ hb (show arrayKinds.Nodup by decide) hnull
  refine andThen_invariant (I := fun u => Accounts u []) h₁ fun ep₁ h₁' => ?_
  rw [h₁'] at h₁
  have hqps : ep₁.qps = [] := by
    have hsame := (sameQueues_allocGdrBuffer (blank config) ans)
    have hsame' : SameQueues b (b.allocArrays ans).1 := sameQueues_forEach_cudaCheck b _
    rw [hb'] at hsame
    rw [h₁'] at hsame'
    exact (hsame.trans hsame').qps
  -- `init_ibgda` accounts for its own resources, and the constructor catches its error.
  have hinit : Accounts (ep₁.tryIbgda ans.init).1 [] := by
    obtain ⟨hledger, hpointers, hmappings, hconfig⟩ := tryIbgda_fst ep₁ ans.init
    refine (h₁.initIbgda ans.init hqps fun k hk => ?_).of_eq hconfig hledger hpointers hmappings
    obtain ⟨harrays, hgdr, -⟩ := notMem_of_ibgdaKinds k hk
    exact pointers_before_init hb' h₁' hgdr harrays
  refine andThen_invariant (I := fun u => Accounts u []) hinit fun t ht => ?_
  have hpointers := (tryIbgda_fst ep₁ ans.init).2.1
  rw [ht] at hinit hpointers
  -- The workspace is the last one.
  have hnull' : t.pointers .workspace = none := by
    have hsame : (ep₁.initIbgda ans.init).1.pointers .workspace = ep₁.pointers .workspace :=
      pointers_initIbgda ep₁ ans.init hqps (by decide)
    rw [hpointers, hsame]
    exact pointers_before_init hb' h₁' (by decide) (by decide)
  exact Accounts.forEach_cudaCheck _ hinit (show [Resource.workspace].Nodup by decide)
    fun k hk => by
    obtain rfl : k = .workspace := by simpa [Checked.kinds] using hk
    exact hnull'

/-! ### `sync_nvlink_ipc_handles` -/

/-- What `cudaIpcOpenMemHandle` gave. -/
def IsMapping (p : PeerPtr) : Prop := ∃ handle, p = .mapping handle

/-- The mappings are those in `ipc_peer_ptrs_host`. The rank itself has none, and in fabric mode no
rank has one. -/
structure Tracked (ep : EpBuffer) : Prop where
  mapping_iff : ∀ i, ep.mappings i ≠ none ↔ IsMapping (ep.ipc.ipcPeerPtrsHost i)
  own : ep.mappings ep.config.rank = none
  fabric : ep.config.useFabricMem = true → ∀ i, ep.mappings i = none

/-- Members that the property does not name may change. -/
theorem Tracked.of_eq (h : Tracked ep) (hconfig : ep'.config = ep.config)
    (hmappings : ep'.mappings = ep.mappings) (hipc : ep'.ipc = ep.ipc) : Tracked ep' := by
  constructor
  · rw [hmappings, hipc]
    exact h.mapping_iff
  · rw [hmappings, hconfig]
    exact h.own
  · rw [hmappings, hconfig]
    exact h.fabric

/-- The memory of a rank is opened, over what its slot holds. -/
theorem Accounts.openMapping (h : Accounts ep lost) {call : IpcCall} {i : ℕ}
    (hopens : opens ep.config call i = true) (hi : i < ep.config.numRanks) :
    ∃ more, Accounts (openMapping call ep i) (lost ++ more) ∧
      (more = [] ↔ ep.mappings i = none) := by
  have hmem : i ∈ List.range ep.config.numRanks := List.mem_range.mpr hi
  have hfront : ep.ledger.Holds (mapped ep ++ (owned ep ++ lost)) :=
    h.perm (List.perm_append_comm_assoc _ _ _)
  rw [EpBuffer.openMapping, if_pos hopens]
  cases hslot : ep.mappings i with
  | none =>
    -- The slot was empty, and owns the new mapping.
    have hfill := hfront.fill (fun _ => Resource.ipcMapping) List.nodup_range hmem hslot
    refine ⟨[], ?_, by simp⟩
    rw [List.append_nil]
    exact hfill.perm (List.perm_append_comm_assoc _ _ _)
  | some id =>
    -- The slot had a mapping, which nothing points to any more.
    have hover := hfront.overwrite (fun _ => Resource.ipcMapping) List.nodup_range hmem hslot
    have hlast : ((.ipcMapping, id) :: (owned ep ++ lost)).Perm
        (owned ep ++ (lost ++ [(.ipcMapping, id)])) :=
      (List.perm_middle.symm).trans ((List.perm_append_singleton _ _).symm.append_left _)
    refine ⟨[(.ipcMapping, id)], ?_, by simp⟩
    exact hover.perm ((hlast.append_left _).trans (List.perm_append_comm_assoc _ _ _))

/-- What the loop that opens the memory of the ranks from `a` on has done before rank `i`. -/
structure Opened (ep : EpBuffer) (call : IpcCall) (lost : List (Ledger.Entry Resource)) (a i : ℕ)
    (t : EpBuffer) : Prop where
  config : t.config = ep.config
  accounts : ∃ more, Accounts t (lost ++ more) ∧
    (more = [] ↔ ∀ j, a ≤ j → j < i → opens ep.config call j = true → ep.mappings j = none)
  mappings : ∀ j, t.mappings j ≠ none ↔
    (a ≤ j ∧ j < i ∧ opens ep.config call j = true) ∨ ep.mappings j ≠ none
  later : ∀ j, i ≤ j → t.mappings j = ep.mappings j

/-- One rank. -/
theorem Opened.succ {call : IpcCall} {a i : ℕ} {t : EpBuffer} (h : Opened ep call lost a i t)
    (hlo : a ≤ i) (hi : i < ep.config.numRanks) :
    Opened ep call lost a (i + 1) (openMapping call t i) := by
  obtain ⟨more, haccounts, hmore⟩ := h.accounts
  -- The rank is opened in this turn, and loses a mapping if it had one.
  by_cases hopens : opens ep.config call i = true
  · have hopens' : opens t.config call i = true := h.config ▸ hopens
    obtain ⟨new, haccounts', hnew⟩ := haccounts.openMapping hopens' (h.config ▸ hi)
    rw [h.later i le_rfl] at hnew
    have hmaps : (openMapping call t i).mappings =
        Function.update t.mappings i (some t.ledger.next) := by
      rw [EpBuffer.openMapping, if_pos hopens']
    refine ⟨(openMapping_opening t call i).config.trans h.config, ⟨more ++ new, ?_, ?_⟩,
      fun j => ?_, fun j hj => ?_⟩
    · rw [← List.append_assoc]
      exact haccounts'
    · rw [List.append_eq_nil_iff, hmore, hnew]
      constructor
      · rintro ⟨hbefore, hlast⟩ j hj hji
        by_cases heq : j = i
        · exact fun _ => heq ▸ hlast
        · exact hbefore j hj (by omega)
      · exact fun hall => ⟨fun j hj hji => hall j hj (by omega),
          hall i hlo (Nat.lt_succ_self i) hopens⟩
    · rw [hmaps]
      by_cases hji : j = i
      · subst hji
        rw [Function.update_self]
        simp [hlo, hopens]
      · rw [Function.update_of_ne hji, h.mappings j]
        simp only [show j < i + 1 ↔ j < i by omega]
    · rw [hmaps, Function.update_of_ne (by omega)]
      exact h.later j (by omega)
  · -- The rank is not opened, and nothing changes.
    have hsame : openMapping call t i = t := by
      rw [EpBuffer.openMapping, h.config, if_neg hopens]
    rw [hsame]
    refine ⟨h.config, ⟨more, haccounts, hmore.trans ?_⟩, fun j => ?_,
      fun j hj => h.later j (by omega)⟩
    · constructor
      · intro hall j hj hji hj'
        by_cases heq : j = i
        · exact absurd (heq ▸ hj') hopens
        · exact hall j hj (by omega) hj'
      · exact fun hall j hj hji => hall j hj (by omega)
    · rw [h.mappings j]
      by_cases hji : j = i
      · subst hji
        simp [hopens]
      · simp only [show j < i + 1 ↔ j < i by omega]

/-- One turn of the loop of the source. It leaves a mapping where the memory of the rank is opened,
and where there was one. -/
theorem openPeer_isMapping {config : IpcBuffer} {call : IpcCall} {s : IpcArrays} {i : ℕ}
    (hown : i = config.rank → ¬IsMapping (s.ipcPeerPtrsHost i)) :
    IsMapping ((openPeer config call s i).ipcPeerPtrsHost i) ↔
      opens config call i = true ∨ IsMapping (s.ipcPeerPtrsHost i) := by
  unfold openPeer opens
  by_cases hactive : call.activeRanksMask i = 0
  · simp [hactive]
  -- Inactive ranks and the rank itself are not opened.
  rw [if_neg hactive]
  by_cases hrank : i = config.rank
  · have hno := hown hrank
    rw [if_pos hrank]
    subst hrank
    simpa [IsMapping] using hno
  rw [if_neg hrank]
  by_cases haccess : peerAccess config call i = true
  swap
  · rw [if_neg haccess]
    simp [haccess]
  rw [if_pos haccess]
  dsimp only
  cases hhandle : call.remoteHandles[i]? with
  | none => simp
  | some handleInts =>
    -- The handle must be long enough, and the driver must open it.
    by_cases hsize : handleInts.length < numInt32s
    · simp [hsize]
    · by_cases hopen : call.openMemHandle i = .success
      · refine iff_of_true ?_ (Or.inl ?_)
        · simp [hsize, hopen, IsMapping]
        · simpa [hsize, hopen, hrank, haccess] using hactive
      · simp [hsize, hopen]

/-- The loop of the source and the mappings of the members agree. -/
theorem isMapping_ipcArrays (ht : Tracked ep) {call : IpcCall}
    (hmode : ep.config.useFabricMem = false) (i : ℕ) :
    IsMapping ((ipcArrays ep.config call ep.ipc.ipcPeerPtrsHost).ipcPeerPtrsHost i) ↔
      (groupStart ep.config call ≤ i ∧
        i < groupStart ep.config call +
          (groupEnd ep.config call - groupStart ep.config call) ∧
        opens ep.config call i = true) ∨ ep.mappings i ≠ none := by
  have hown : ∀ j, j = ep.config.rank → ¬IsMapping (ep.ipc.ipcPeerPtrsHost j) := by
    rintro j rfl
    rw [← ht.mapping_iff]
    exact not_not.mpr ht.own
  have hno : opens ep.config call ep.config.rank ≠ true := by simp [opens]
  rw [ipcArrays, hmode, if_neg (by simp)]
  -- After turn `k` the mappings are those of the ranks opened so far and those from before.
  refine foldl_range'_invariant (I := fun k (s : IpcArrays) => ∀ i,
    IsMapping (s.ipcPeerPtrsHost i) ↔
      (groupStart ep.config call ≤ i ∧ i < k ∧ opens ep.config call i = true) ∨
        ep.mappings i ≠ none) (fun i => ?_) (fun k s hlo _ hs i => ?_) i
  · rw [ht.mapping_iff]
    simp only [startArrays]
    exact ⟨Or.inr, fun h => h.resolve_left fun h => by omega⟩
  · by_cases hik : i = k
    · -- The turn for `i` itself.
      subst hik
      rw [openPeer_isMapping fun hrank => by
        rw [hs i, not_or, not_not]
        exact ⟨fun h => by omega, hrank ▸ ht.own⟩, hs i]
      constructor
      · rintro (hopens | h | h)
        · exact Or.inl ⟨hlo, Nat.lt_succ_self i, hopens⟩
        · omega
        · exact Or.inr h
      · rintro (⟨-, -, hopens⟩ | h)
        · exact Or.inl hopens
        · exact Or.inr (Or.inr h)
    · -- The turn for another rank.
      rw [(Buffer.openPeer_of_ne hik).2, hs i]
      simp only [show i < k + 1 ↔ i < k by omega]

/-- In fabric mode the loop of the source leaves no mapping. -/
theorem not_isMapping_ipcArrays (ht : Tracked ep) {call : IpcCall}
    (hmode : ep.config.useFabricMem = true) (i : ℕ) :
    ¬IsMapping ((ipcArrays ep.config call ep.ipc.ipcPeerPtrsHost).ipcPeerPtrsHost i) := by
  rw [ipcArrays, hmode, if_pos rfl]
  refine foldl_range'_invariant (I := fun _ (s : IpcArrays) => ∀ i,
    ¬IsMapping (s.ipcPeerPtrsHost i)) (fun i => ?_) (fun k s _ _ hs i => ?_) i
  · simp only [startArrays]
    rw [← ht.mapping_iff]
    exact not_not.mpr (ht.fabric hmode i)
  · unfold fabricPeer
    split
    · exact hs i
    · by_cases hik : i = k
      · subst hik
        simp only [Function.update_self]
        rintro ⟨handle, heq⟩
        split at heq <;> cases heq
      · simp only [Function.update_of_ne hik]
        exact hs i

/-- The call opens the memory of no rank whose slot is taken. In fabric mode it opens none. -/
def OpensFree (ep : EpBuffer) (call : IpcCall) (ans : IpcAnswers) : Prop :=
  ans.getDeviceCount = true → ep.config.useFabricMem = false →
    ∀ i, groupStart ep.config call ≤ i → i < groupEnd ep.config call →
      opens ep.config call i = true → ep.mappings i = none

/-- `sync_nvlink_ipc_handles` loses a mapping for each slot that was taken. -/
theorem syncNvlinkIpcHandles_accounts (h : Accounts ep lost) (ht : Tracked ep) (call : IpcCall)
    (ans : IpcAnswers) :
    ∃ more, Accounts (ep.syncNvlinkIpcHandles call ans).1 (lost ++ more) ∧
      Tracked (ep.syncNvlinkIpcHandles call ans).1 ∧ (more = [] ↔ OpensFree ep call ans) := by
  cases hcount : ans.getDeviceCount with
  | false =>
    have heq : ep.syncNvlinkIpcHandles call ans = (ep, some .threw) := by
      simp [EpBuffer.syncNvlinkIpcHandles, hcount]
    rw [heq]
    exact ⟨[], by rwa [List.append_nil], ht, by simp [OpensFree, hcount]⟩
  | true =>
    -- However the call ends, it leaves the mappings of the loop and the pointers to them.
    have hsame : (ep.syncNvlinkIpcHandles call ans).1.config = (ep.openMappings call).config ∧
        (ep.syncNvlinkIpcHandles call ans).1.ledger = (ep.openMappings call).ledger ∧
        (ep.syncNvlinkIpcHandles call ans).1.pointers = (ep.openMappings call).pointers ∧
        (ep.syncNvlinkIpcHandles call ans).1.mappings = (ep.openMappings call).mappings ∧
        (ep.syncNvlinkIpcHandles call ans).1.ipc.ipcPeerPtrsHost =
          (ipcArrays ep.config call ep.ipc.ipcPeerPtrsHost).ipcPeerPtrsHost := by
      unfold EpBuffer.syncNvlinkIpcHandles
      rw [hcount, if_neg (by simp)]
      dsimp only
      split_ifs <;> exact ⟨rfl, rfl, rfl, rfl, rfl⟩
    obtain ⟨hconfig, hledger, hpointers, hmappings, hhost⟩ := hsame
    cases hmode : ep.config.useFabricMem with
    | true =>
      have hnone : ep.openMappings call = ep := by
        rw [openMappings, if_pos hmode]
      rw [hnone] at hconfig hledger hpointers hmappings
      refine ⟨[], ?_, ⟨fun i => ?_, ?_, fun _ i => ?_⟩, by simp [OpensFree, hmode]⟩
      · rw [List.append_nil]
        exact h.of_eq hconfig hledger hpointers hmappings
      · rw [hmappings, hhost]
        exact iff_of_false (not_not.mpr (ht.fabric hmode i)) (not_isMapping_ipcArrays ht hmode i)
      · rw [hmappings, hconfig]
        exact ht.own
      · rw [hmappings]
        exact ht.fabric hmode i
    | false =>
      have hstart : Opened ep call lost (groupStart ep.config call) (groupStart ep.config call)
          ep :=
        ⟨rfl, ⟨[], by rwa [List.append_nil], by simp; intro j hlo hhi; omega⟩,
          fun j => ⟨Or.inr, fun h => h.resolve_left fun h => by omega⟩, fun _ _ => rfl⟩
      have hloop := foldl_range'_invariant
        (I := fun i t => Opened ep call lost (groupStart ep.config call) i t)
        (n := groupEnd ep.config call - groupStart ep.config call) hstart
        fun i t hlo hhi hopened => hopened.succ hlo (by
          have hend : groupEnd ep.config call ≤ ep.config.numRanks := min_le_right _ _
          omega)
      have hfold : ep.openMappings call =
          (List.range' (groupStart ep.config call)
            (groupEnd ep.config call - groupStart ep.config call)).foldl
              (EpBuffer.openMapping call) ep := by
        rw [openMappings, hmode, if_neg (by simp)]
      rw [← hfold] at hloop
      obtain ⟨more, haccounts, hmore⟩ := hloop.accounts
      refine ⟨more, haccounts.of_eq hconfig hledger hpointers hmappings,
        ⟨fun i => ?_, ?_, fun hfabric => ?_⟩, hmore.trans ?_⟩
      · rw [hmappings, hhost, hloop.mappings i, isMapping_ipcArrays ht hmode i]
      · rw [hmappings, hconfig, hloop.config]
        by_contra hne
        rcases (hloop.mappings ep.config.rank).mp hne with ⟨-, -, hopens⟩ | hne
        · simp [opens] at hopens
        · exact hne ht.own
      · rw [hconfig, hloop.config, hmode] at hfabric
        cases hfabric
      · constructor
        · exact fun hall _ _ i hlo hhi => hall i hlo (by omega)
        · exact fun hfree i hlo hhi => hfree hcount hmode i hlo (by omega)

/-! ### The destructor -/

/-- A list of releases makes its own pointers null, and no other one. -/
theorem pointers_foldl_release (ks : List Resource) (k : Resource) :
    ∀ (ep : EpBuffer), (ks.foldl EpBuffer.release ep).pointers k =
      if k ∈ ks then none else ep.pointers k := by
  induction ks with
  | nil => exact fun _ => rfl
  | cons k' ks ih =>
    intro ep
    rw [List.foldl_cons, ih]
    by_cases hmem : k ∈ ks
    · rw [if_pos hmem, if_pos (List.mem_cons_of_mem _ hmem)]
    · rw [if_neg hmem]
      by_cases hk : k = k'
      · subst hk
        rw [if_pos List.mem_cons_self, pointers_release_self]
      · rw [if_neg (by simp [hk, hmem]), pointers_release_of_ne ep hk]

/-- A list of releases does not write the queue pairs. -/
theorem sameQueues_foldl_release (ks : List Resource) :
    ∀ (ep : EpBuffer), SameQueues ep (ks.foldl EpBuffer.release ep) := by
  induction ks with
  | nil => exact .refl
  | cons k ks ih => exact fun ep => (sameQueues_release ep k).trans (ih _)

/-- What the loop over the ranks in the destructor has done before rank `i`. -/
structure Closed (ep : EpBuffer) (lost : List (Ledger.Entry Resource)) (i : ℕ) (t : EpBuffer) :
    Prop where
  accounts : Accounts t lost
  kept : t.config = ep.config ∧ t.device = ep.device ∧ t.pointers = ep.pointers ∧ t.ipc = ep.ipc
  empty : ∀ j < i, t.mappings j = none
  later : ∀ j, i ≤ j → t.mappings j = ep.mappings j

/-- A rank without an open mapping keeps the buffer as it is. -/
theorem closeMapping_none {t : EpBuffer} {i : ℕ} (h : t.mappings i = none) :
    closeMapping t i = t := by
  unfold closeMapping
  rw [h]
  cases t.ipc.ipcPeerPtrsHost i <;> rfl

/-- A mapping that is open is released by its own turn of the destructor. -/
theorem closeMapping_some {t : EpBuffer} {i id : ℕ} {handle : List (BitVec 32)}
    (hhost : t.ipc.ipcPeerPtrsHost i = .mapping handle) (h : t.mappings i = some id) :
    closeMapping t i =
      { t with
        ledger := t.ledger.release (.ipcMapping, id)
        mappings := Function.update t.mappings i none } := by
  unfold closeMapping
  rw [h, hhost]

/-- One rank. -/
theorem Closed.succ (ht : Tracked ep) {i : ℕ} {t : EpBuffer} (h : Closed ep lost i t)
    (hi : i < ep.config.numRanks) : Closed ep lost (i + 1) (closeMapping t i) := by
  obtain ⟨hconfig, hdevice, hpointers, hipc⟩ := h.kept
  have hslot := h.later i le_rfl
  -- Nothing is open for this rank.
  cases hmap : ep.mappings i with
  | none =>
    rw [closeMapping_none (hslot.trans hmap)]
    refine ⟨h.accounts, h.kept, fun j hj => ?_, fun j hj => h.later j (by omega)⟩
    by_cases hji : j = i
    · rw [hji, hslot, hmap]
    · exact h.empty j (by omega)
  | some id =>
    -- Its mapping is released, and was accounted for.
    obtain ⟨handle, hhost⟩ := (ht.mapping_iff i).mp (by rw [hmap]; exact nofun)
    rw [closeMapping_some (hipc ▸ hhost) (hslot.trans hmap)]
    have hmem : i ∈ List.range t.config.numRanks := List.mem_range.mpr (hconfig ▸ hi)
    have hfront : t.ledger.Holds (mapped t ++ (owned t ++ lost)) :=
      h.accounts.perm (List.perm_append_comm_assoc _ _ _)
    have hclear := hfront.clear (fun _ => Resource.ipcMapping) List.nodup_range hmem
      (hslot.trans hmap)
    refine ⟨hclear.perm (List.perm_append_comm_assoc _ _ _), h.kept, fun j hj => ?_,
      fun j hj => ?_⟩
    · show Function.update t.mappings i none j = none
      by_cases hji : j = i
      · rw [hji, Function.update_self]
      · rw [Function.update_of_ne hji]
        exact h.empty j (by omega)
    · show Function.update t.mappings i none j = ep.mappings j
      rw [Function.update_of_ne (by omega)]
      exact h.later j (by omega)

/-- The pointers that are not null are those of the mode. The host array is there. -/
structure Allocated (ep : EpBuffer) : Prop where
  gdrBuffer : ep.config.useFabricMem = true → ep.pointers .gdrBuffer = none
  fabric : ep.config.useFabricMem = false → ∀ k ∈ gdrKinds, k ≠ .gdrBuffer → ep.pointers k = none
  hostArray : ep.pointers .ipcPeerPtrsHost ≠ none
  ipcMapping : ep.pointers .ipcMapping = none

/-- The destructor releases every pointer but those of `init_ibgda`, and every mapping. -/
theorem destroy_accounts (h : Accounts ep lost) (ht : Tracked ep) (ha : Allocated ep) :
    Accounts ep.destroy lost ∧ mapped ep.destroy = [] ∧ ep.destroy.device = ep.device ∧
      ∀ k, ep.destroy.pointers k = if k ∈ ibgdaKinds then ep.pointers k else none := by
  obtain ⟨u₁, u₂, u₃, hu₁, hu₂, hu₃, hu₄⟩ : ∃ u₁ u₂ u₃ : EpBuffer,
      u₁ = (if ep.config.useFabricMem then
        [Resource.fabricMapping, .fabricAddress, .fabricMemHandle].foldl EpBuffer.release ep
        else ep.release .gdrBuffer) ∧
      u₂ = [Resource.raddrs, .rkeys, .qpDevctxs, .nvlinkAvailable, .ipcPeerPtrs].foldl
        EpBuffer.release u₁ ∧
      u₃ = (if u₂.pointers .ipcPeerPtrsHost = none then u₂
        else ((List.range' 0 u₂.config.numRanks).foldl closeMapping u₂).release
          .ipcPeerPtrsHost) ∧
      ep.destroy = [Resource.workspace, .commStream].foldl EpBuffer.release u₃ :=
    ⟨_, _, _, rfl, rfl, rfl, rfl⟩
  -- `gdr_buffer`, in one mode or the other.
  have h₁ : Accounts u₁ lost ∧ SameQueues ep u₁ ∧
      ∀ k, u₁.pointers k = if k ∈ gdrKinds then none else ep.pointers k := by
    rw [hu₁]
    cases hmode : ep.config.useFabricMem with
    | true =>
      rw [if_pos rfl]
      refine ⟨h.foldl_release _, sameQueues_foldl_release _ ep, fun k => ?_⟩
      rw [pointers_foldl_release]
      by_cases hk : k = .gdrBuffer
      · rw [hk, ha.gdrBuffer hmode]
        rfl
      · have hiff : k ∈ [Resource.fabricMapping, .fabricAddress, .fabricMemHandle] ↔
            k ∈ gdrKinds := by
          revert hk
          cases k <;> decide
        simp only [hiff]
    | false =>
      rw [if_neg (by simp)]
      refine ⟨h.release _, sameQueues_release ep _, fun k => ?_⟩
      by_cases hk : k = .gdrBuffer
      · rw [hk, pointers_release_self]
        rfl
      · rw [pointers_release_of_ne ep hk]
        split
        · exact ha.fabric hmode k ‹_› hk
        · rfl
  obtain ⟨haccounts₁, hsame₁, hpointers₁⟩ := h₁
  have haccounts₂ : Accounts u₂ lost := hu₂ ▸ haccounts₁.foldl_release _
  have hsame₂ : SameQueues ep u₂ := hu₂ ▸ hsame₁.trans (sameQueues_foldl_release _ u₁)
  have hpointers₂ : ∀ k, u₂.pointers k =
      if k ∈ [Resource.raddrs, .rkeys, .qpDevctxs, .nvlinkAvailable, .ipcPeerPtrs] then none
      else if k ∈ gdrKinds then none else ep.pointers k := by
    intro k
    rw [hu₂, pointers_foldl_release, hpointers₁]
  have hhost : u₂.pointers .ipcPeerPtrsHost ≠ none := by
    rw [hpointers₂]
    exact ha.hostArray
  have ht₂ : Tracked u₂ := ht.of_eq hsame₂.config hsame₂.mappings hsame₂.ipc
  have hstart : Closed u₂ lost 0 u₂ :=
    ⟨haccounts₂, ⟨rfl, rfl, rfl, rfl⟩, fun j hj => absurd hj (Nat.not_lt_zero j), fun _ _ => rfl⟩
  have hclosed := foldl_range'_invariant (I := fun i t => Closed u₂ lost i t)
    (n := u₂.config.numRanks) hstart fun i t _ hhi hc => hc.succ ht₂ (by omega)
  rw [Nat.zero_add] at hclosed
  rw [if_neg hhost] at hu₃
  obtain ⟨v, hv⟩ : ∃ v, v = (List.range' 0 u₂.config.numRanks).foldl closeMapping u₂ := ⟨_, rfl⟩
  rw [← hv] at hclosed hu₃
  obtain ⟨hconfig, hdevice, hpointers, -⟩ := hclosed.kept
  have hsame₃ : SameQueues v u₃ := hu₃ ▸ sameQueues_release v _
  have hsame₄ : SameQueues v ep.destroy :=
    hsame₃.trans (hu₄ ▸ sameQueues_foldl_release _ u₃)
  refine ⟨?_, ?_, ?_, fun k => ?_⟩
  · rw [hu₄, hu₃]
    exact (hclosed.accounts.release _).foldl_release _
  · refine Ledger.held_eq_nil.mpr fun i hi => ?_
    rw [hsame₄.mappings]
    rw [hsame₄.config, hconfig] at hi
    exact hclosed.empty i (List.mem_range.mp hi)
  · rw [hsame₄.device, hdevice, hsame₂.device]
  · rw [hu₄, pointers_foldl_release, hu₃]
    by_cases hk : k = .ipcPeerPtrsHost
    · rw [hk, pointers_release_self]
      rfl
    · rw [pointers_release_of_ne v hk, hpointers, hpointers₂]
      have hcase : k ∈ [Resource.workspace, .commStream] ∨
          k ∈ [Resource.raddrs, .rkeys, .qpDevctxs, .nvlinkAvailable, .ipcPeerPtrs] ∨
          k ∈ gdrKinds ∨ k = .ipcMapping ∨ k ∈ ibgdaKinds := by
        revert hk
        cases k <;> decide
      rcases hcase with hk | hk | hk | hk | hk
      · have hnot : k ∉ ibgdaKinds := by
          revert hk
          cases k <;> decide
        rw [if_pos hk, if_neg hnot]
      · have hnot : k ∉ ibgdaKinds := by
          revert hk
          cases k <;> decide
        rw [if_pos hk, if_neg hnot, ite_self]
      · have hnot : k ∉ ibgdaKinds := by
          revert hk
          cases k <;> decide
        rw [if_pos hk, if_neg hnot, ite_self, ite_self]
      · rw [hk, ha.ipcMapping]
        rfl
      · have hnot : k ∉ [Resource.workspace, .commStream] ∧
            k ∉ [Resource.raddrs, .rkeys, .qpDevctxs, .nvlinkAvailable, .ipcPeerPtrs] ∧
            k ∉ gdrKinds := by
          revert hk
          cases k <;> decide
        rw [if_neg hnot.1, if_neg hnot.2.1, if_neg hnot.2.2, if_pos hk]

end

end EpBuffer

end EpDemo.Lifecycle
