import EpDemo.Proofs.Buffer.FaultFree
import EpDemo.Proofs.Buffer.Ownership

/-!
# `EpDemo.Proofs.Buffer.Lifetime`: what is released at the end of a life

The life of an `EpBuffer` is its constructor, the calls on it and, if the constructor returned, its
destructor. At its end everything that was acquired should have been released exactly once.

Three things are not released. The destructor leaves the protection domain, the memory region, the
control buffer, its UMEM, its heap and the queue pairs. A constructor that throws leaves what its
members point to, because no destructor runs. `sync_nvlink_ipc_handles` opens the memory of a rank
again and forgets the mapping it had. `life_released_iff` says that a life is balanced if and only
if it goes through none of the three.
-/

set_option autoImplicit false

namespace EpDemo.Lifecycle

open EpDemo.Library EpDemo.Memheap EpDemo.Mlx5gda
open EpDemo.Buffer (IpcBuffer IpcCall)

/-! ### When the constructor returns -/

/-- The calls that allocate the buffer in fabric mode succeed. -/
def EpBuffer.FabricAnswers.Succeed (ans : EpBuffer.FabricAnswers) : Prop :=
  ans.deviceGet = true ∧ ans.granularity = true ∧ ans.memCreate = true ∧
    ans.addressReserve = true ∧ ans.memMap = true ∧ ans.setAccess = true

instance (ans : EpBuffer.FabricAnswers) : Decidable ans.Succeed :=
  inferInstanceAs (Decidable (_ ∧ _))

namespace EpBuffer

/-- The constructor comes to `gdr_buffer` and allocates it. -/
def NewAnswers.AllocatesGdrBuffer (ans : NewAnswers) (config : IpcBuffer) : Prop :=
  ans.getDevice = true ∧ ans.getAttribute = true ∧
    if config.useFabricMem then ans.fabric.Succeed else ans.gdrBuffer = true

instance (ans : NewAnswers) (config : IpcBuffer) : Decidable (ans.AllocatesGdrBuffer config) :=
  inferInstanceAs (Decidable (_ ∧ _))

/-- The allocations after `gdr_buffer` succeed, and there is a device for `init_ibgda`. -/
def NewAnswers.Completes (ans : NewAnswers) : Prop :=
  (ans.raddrs = true ∧ ans.rkeys = true ∧ ans.qpDevctxs = true ∧ ans.nvlinkAvailable = true ∧
    ans.nvlinkMemset = true ∧ ans.ipcPeerPtrsHost = true ∧ ans.ipcPeerPtrs = true ∧
    ans.ipcMemset = true ∧ ans.commStream = true) ∧
  ans.init.deviceFound = true ∧ ans.workspace = true ∧ ans.workspaceMemset = true

instance (ans : NewAnswers) : Decidable ans.Completes := inferInstanceAs (Decidable (_ ∧ _))

/-- The call succeeds. -/
def Checked.ok : Checked → Bool
  | .call ok => ok
  | .acquire _ ok => ok

/-- Calls under `CUDA_CHECK` run to their end when all of them succeed. -/
theorem forEach_cudaCheck_snd (cs : List Checked) :
    ∀ (ep : EpBuffer), (forEach cudaCheck cs ep).2 = none ↔ ∀ c ∈ cs, c.ok = true := by
  induction cs with
  | nil => exact fun ep => by simp [forEach]
  | cons c cs ih =>
    intro ep
    have hfirst : (ep.cudaCheck c).2 = none ↔ c.ok = true := by
      cases c with
      | call ok => cases ok <;> simp [cudaCheck, Checked.ok]
      | acquire k ok => cases ok <;> simp [cudaCheck, Checked.ok]
    show (andThen (ep.cudaCheck c) (forEach cudaCheck cs)).2 = none ↔ _
    rw [andThen_snd_eq_none, hfirst, ih, List.forall_mem_cons]

/-- What was acquired by calls that ran to their end is there. -/
theorem forEach_cudaCheck_acquired {k : Resource} {ok : Bool} {cs : List Checked} :
    ∀ {ep t : EpBuffer}, forEach cudaCheck cs ep = (t, none) → Checked.acquire k ok ∈ cs →
      t.pointers k ≠ none := by
  -- A pointer that is there stays there.
  have hkeep : ∀ (cs : List Checked) (ep : EpBuffer), ep.pointers k ≠ none →
      (forEach cudaCheck cs ep).1.pointers k ≠ none := fun cs ep h =>
    forEach_invariant (I := fun t : EpBuffer => t.pointers k ≠ none) h fun c _ t ht => by
      cases c with
      | call ok => exact ht
      | acquire k' ok =>
        cases ok
        · exact ht
        · by_cases hk : k = k'
          · subst hk
            show (t.acquire k).pointers k ≠ none
            rw [pointers_acquire_self]
            exact Option.some_ne_none _
          · exact (pointers_acquire_of_ne t hk).trans_ne ht
  induction cs with
  | nil => exact fun _ h => absurd h List.not_mem_nil
  | cons c cs ih =>
    intro ep t h hmem
    obtain ⟨u, hu, hrest⟩ := andThen_eq_none.mp h
    rcases List.mem_cons.mp hmem with rfl | hmem
    · cases ok with
      | false => cases hu
      | true =>
        have hlast := hkeep cs u (by
          rw [← show ep.acquire k = u from congrArg Prod.fst hu, pointers_acquire_self]
          exact Option.some_ne_none _)
        rwa [hrest] at hlast
    · exact ih hrest hmem

/-- The allocation of `gdr_buffer`. The pointers of the mode are there, or those of no mode. -/
theorem allocGdrBuffer_cases {ep : EpBuffer} (ans : NewAnswers)
    (hnull : ∀ k ∈ gdrKinds, ep.pointers k = none) :
    ((ep.allocGdrBuffer ans).2 = none ∧
        (if ep.config.useFabricMem then ans.fabric.Succeed else ans.gdrBuffer = true) ∧
        (∃ k ∈ gdrKinds, (ep.allocGdrBuffer ans).1.pointers k ≠ none) ∧
        (ep.config.useFabricMem = true → (ep.allocGdrBuffer ans).1.pointers .gdrBuffer = none) ∧
        (ep.config.useFabricMem = false → ∀ k ∈ gdrKinds, k ≠ .gdrBuffer →
          (ep.allocGdrBuffer ans).1.pointers k = none)) ∨
      ((ep.allocGdrBuffer ans).2 = some .threw ∧
        ¬(if ep.config.useFabricMem then ans.fabric.Succeed else ans.gdrBuffer = true) ∧
        ∀ k ∈ gdrKinds, (ep.allocGdrBuffer ans).1.pointers k = none) := by
  unfold allocGdrBuffer
  cases hmode : ep.config.useFabricMem with
  | true =>
    rw [if_pos rfl, if_pos rfl]
    -- What a step acquired is released when a later one fails.
    have hgdr := hnull .gdrBuffer (by decide)
    have hhandle := hnull .fabricMemHandle (by decide)
    have haddress := hnull .fabricAddress (by decide)
    have hmapping := hnull .fabricMapping (by decide)
    have hall : ∀ t : EpBuffer, t.pointers .gdrBuffer = none →
        t.pointers .fabricMemHandle = none → t.pointers .fabricAddress = none →
        t.pointers .fabricMapping = none → ∀ k ∈ gdrKinds, t.pointers k = none := by
      intro t h₁ h₂ h₃ h₄ k hk
      simp only [gdrKinds, List.mem_cons, List.not_mem_nil, or_false] at hk
      rcases hk with rfl | rfl | rfl | rfl <;> assumption
    unfold allocFabric
    split_ifs with h₁ h₂ h₃ h₄ h₅ h₆
    · exact Or.inr ⟨rfl, fun h => by simp [h.1] at h₁, hnull⟩
    · exact Or.inr ⟨rfl, fun h => by simp [h.2.1] at h₂, hnull⟩
    · exact Or.inr ⟨rfl, fun h => by simp [h.2.2.1] at h₃, hnull⟩
    · refine Or.inr ⟨rfl, fun h => by simp [h.2.2.2.1] at h₄, hall _ ?_ ?_ ?_ ?_⟩ <;>
        simp [pointers_release_of_ne, pointers_acquire_of_ne, hgdr, haddress, hmapping]
    · refine Or.inr ⟨rfl, fun h => by simp [h.2.2.2.2.1] at h₅, hall _ ?_ ?_ ?_ ?_⟩ <;>
        simp [pointers_release_of_ne, pointers_acquire_of_ne, hgdr, hmapping]
    · refine Or.inr ⟨rfl, fun h => by simp [h.2.2.2.2.2] at h₆, hall _ ?_ ?_ ?_ ?_⟩ <;>
        simp [pointers_release_of_ne, pointers_acquire_of_ne, hgdr]
    · refine Or.inl ⟨rfl, ?_, ⟨.fabricMapping, by decide, ?_⟩, fun _ => ?_,
        fun h => absurd h (by simp)⟩
      · exact ⟨by simpa using h₁, by simpa using h₂, by simpa using h₃, by simpa using h₄,
          by simpa using h₅, by simpa using h₆⟩
      · rw [pointers_acquire_self]
        exact Option.some_ne_none _
      · simp [pointers_acquire_of_ne, hgdr]
  | false =>
    rw [if_neg (by simp), if_neg (by simp)]
    cases hok : ans.gdrBuffer with
    | false => exact Or.inr ⟨rfl, by simp, hnull⟩
    | true =>
      refine Or.inl ⟨rfl, rfl, ⟨.gdrBuffer, by decide, ?_⟩,
        fun h => absurd h Bool.false_ne_true, fun _ k hk hne => ?_⟩
      · show (ep.acquire .gdrBuffer).pointers .gdrBuffer ≠ none
        rw [pointers_acquire_self]
        exact Option.some_ne_none _
      · show (ep.acquire .gdrBuffer).pointers k = none
        rw [pointers_acquire_of_ne ep hne]
        exact hnull k hk

/-- Without a protection domain `init_ibgda` changes nothing, and the constructor goes on if there
is a device. -/
theorem tryIbgda_of_not {ep : EpBuffer} {ans : InitAnswers} (h : ¬ans.AllocatesPd) :
    ((ep.tryIbgda ans).2 = none ↔ ans.deviceFound = true) ∧
      (ep.tryIbgda ans).1.device = ep.device ∧ (ep.tryIbgda ans).1.qps = ep.qps := by
  cases hfound : ans.deviceFound with
  | false =>
    -- Without a device the constructor throws.
    have heq : ep.tryIbgda ans = (ep, some .threw) := by simp [tryIbgda, initIbgda, hfound]
    rw [heq]
    exact ⟨by simp, rfl, rfl⟩
  | true =>
    -- The other failures make `init_ibgda` return -1, and the constructor goes on without IBGDA.
    have heq : ep.initIbgda ans = (ep, some .failed) := by
      unfold initIbgda
      rw [hfound, if_neg (by simp)]
      split_ifs with h₂ h₃ h₄ h₅ h₆
      · rfl
      · rfl
      · rfl
      · rfl
      · rfl
      · exact absurd ⟨hfound, by simpa using h₂, by simpa using h₃, by simpa using h₄,
          by simpa using h₅, by simpa using h₆⟩ h
    have hgo : ep.tryIbgda ans = ({ ep with ibgdaDisabled := true }, none) := by
      rw [tryIbgda, heq]
    rw [hgo]
    exact ⟨by simp, rfl, rfl⟩

/-- A constructor that returned allocated `gdr_buffer`. Without a protection domain it returns if
the other steps succeed, and only then. -/
theorem new_snd (config : IpcBuffer) (ans : NewAnswers) :
    ((new config ans).2 = none → ans.AllocatesGdrBuffer config) ∧
      (¬ans.init.AllocatesPd →
        ((new config ans).2 = none ↔ ans.AllocatesGdrBuffer config ∧ ans.Completes)) := by
  have hstart : (forEach cudaCheck [.call ans.getDevice, .call ans.getAttribute]
      (blank config)).2 = none ↔ ans.getDevice = true ∧ ans.getAttribute = true := by
    rw [forEach_cudaCheck_snd]
    simp [Checked.ok]
  have hgdr : ((blank config).allocGdrBuffer ans).2 = none ↔
      if config.useFabricMem then ans.fabric.Succeed else ans.gdrBuffer = true := by
    rcases @allocGdrBuffer_cases (blank config) ans fun _ _ => rfl with
      ⟨heq, hok, -⟩ | ⟨heq, hno, -⟩
    · exact iff_of_true heq hok
    · exact iff_of_false (by rw [heq]; exact nofun) hno
  -- The steps up to `gdr_buffer` come first, whatever follows.
  have hnew : (new config ans).2 = none ↔ ans.AllocatesGdrBuffer config ∧
      (andThen (((blank config).allocGdrBuffer ans).1.allocArrays ans) fun ep =>
        andThen (ep.tryIbgda ans.init) fun ep => ep.allocWorkspace ans).2 = none := by
    unfold new NewAnswers.AllocatesGdrBuffer
    rw [andThen_snd_eq_none, hstart, forEach_start, andThen_snd_eq_none, hgdr]
    tauto
  refine ⟨fun h => (hnew.mp h).1, fun hpd => ?_⟩
  -- Without a protection domain the other steps do not depend on `init_ibgda`.
  rw [hnew, andThen_snd_eq_none, andThen_snd_eq_none, (tryIbgda_of_not hpd).1]
  unfold allocArrays allocWorkspace
  rw [forEach_cudaCheck_snd, forEach_cudaCheck_snd]
  simp [Checked.ok, NewAnswers.Completes, and_assoc]

/-! ### What the constructor leaves -/

/-- A constructor that did not allocate `gdr_buffer` leaves nothing. -/
theorem new_of_not_allocates {config : IpcBuffer} {ans : NewAnswers}
    (h : ¬ans.AllocatesGdrBuffer config) :
    (new config ans).2 ≠ none ∧ (∀ k, (new config ans).1.pointers k = none) ∧
      SameQueues (blank config) (new config ans).1 := by
  refine ⟨fun hnone => h ((new_snd config ans).1 hnone), ?_⟩
  -- A failed allocation of `gdr_buffer` has released what it acquired.
  have hgdr : ((blank config).allocGdrBuffer ans).2 ≠ none →
      (∀ k, ((blank config).allocGdrBuffer ans).1.pointers k = none) := by
    intro hleft k
    by_cases hk : k ∈ gdrKinds
    · rcases @allocGdrBuffer_cases (blank config) ans fun _ _ => rfl with
        ⟨heq, -⟩ | ⟨-, -, hnull⟩
      · exact absurd heq hleft
      · exact hnull k hk
    · rw [pointers_allocGdrBuffer _ ans hk]
      rfl
  unfold new
  by_cases hstart : (forEach cudaCheck [.call ans.getDevice, .call ans.getAttribute]
      (blank config)).2 = none
  -- The two calls on the device may have failed before anything was acquired.
  swap
  · rw [andThen_of_left _ hstart, forEach_start]
    exact ⟨fun _ => rfl, .refl _⟩
  obtain ⟨a, ha⟩ : ∃ a, forEach cudaCheck [.call ans.getDevice, .call ans.getAttribute]
      (blank config) = (a, none) := ⟨_, Prod.ext rfl hstart⟩
  obtain rfl : blank config = a := by
    have hblank := forEach_start config ans
    rw [ha] at hblank
    exact hblank.symm
  -- Otherwise `gdr_buffer` is what failed.
  have hleft : ((blank config).allocGdrBuffer ans).2 ≠ none := by
    rcases @allocGdrBuffer_cases (blank config) ans fun _ _ => rfl with
      ⟨-, hok, -⟩ | ⟨heq, -⟩
    · rw [forEach_cudaCheck_snd] at hstart
      have hdevice : ans.getDevice = true := hstart (.call ans.getDevice) (by simp)
      have hattribute : ans.getAttribute = true := hstart (.call ans.getAttribute) (by simp)
      exact absurd ⟨hdevice, hattribute, hok⟩ h
    · rw [heq]
      exact nofun
  rw [ha, andThen_none, andThen_of_left _ hleft]
  exact ⟨hgdr hleft, sameQueues_allocGdrBuffer _ ans⟩

/-- The pointers of `gdr_buffer` are written once. -/
theorem pointers_new_gdr {config : IpcBuffer} {ans : NewAnswers}
    (h : ans.AllocatesGdrBuffer config) {k : Resource} (hk : k ∈ gdrKinds) :
    (new config ans).1.pointers k = ((blank config).allocGdrBuffer ans).1.pointers k := by
  have hapart : ∀ k ∈ gdrKinds, k ∉ arrayKinds ∧ k ∉ ibgdaKinds ∧ k ≠ .workspace := by decide
  obtain ⟨harrays, hibgda, hworkspace⟩ := hapart k hk
  -- Nothing is acquired before `gdr_buffer`.
  have hstart : forEach cudaCheck [.call ans.getDevice, .call ans.getAttribute] (blank config) =
      (blank config, none) :=
    Prod.ext (forEach_start config ans)
      ((forEach_cudaCheck_snd _ _).mpr (by simp [Checked.ok, h.1, h.2.1]))
  rw [new, hstart, andThen_none]
  refine andThen_invariant (I := fun u : EpBuffer =>
    u.pointers k = ((blank config).allocGdrBuffer ans).1.pointers k) rfl fun b hb => ?_
  rw [hb]
  -- The arrays, `init_ibgda` and the workspace have pointers of their own.
  have h₁ := pointers_allocArrays b ans harrays
  refine andThen_invariant (I := fun u : EpBuffer => u.pointers k = b.pointers k) h₁
    fun ep₁ h₁' => ?_
  rw [h₁'] at h₁
  have hqps : ep₁.qps = [] := by
    have hsame := (sameQueues_allocGdrBuffer (blank config) ans)
    have hsame' : SameQueues b (b.allocArrays ans).1 := sameQueues_forEach_cudaCheck b _
    rw [hb] at hsame
    rw [h₁'] at hsame'
    exact (hsame.trans hsame').qps
  have hinit : (ep₁.tryIbgda ans.init).1.pointers k = b.pointers k := by
    rw [(tryIbgda_fst ep₁ ans.init).2.1, pointers_initIbgda ep₁ ans.init hqps hibgda]
    exact h₁
  refine andThen_invariant (I := fun u : EpBuffer => u.pointers k = b.pointers k) hinit
    fun t ht => ?_
  rw [ht] at hinit
  rw [pointers_allocWorkspace t ans hworkspace]
  exact hinit

/-- What a constructor that returned leaves: the pointers of the mode, no mapping, and the resources
of `init_ibgda` exactly when it got a protection domain. -/
structure Constructed (config : IpcBuffer) (ans : NewAnswers) (ep : EpBuffer) : Prop where
  config : ep.config = config
  tracked : Tracked ep
  allocated : Allocated ep
  pd : ans.init.AllocatesPd → ep.pointers .pd ≠ none
  ibgda : ¬ans.init.AllocatesPd → ∀ k ∈ ibgdaKinds, ep.pointers k = none
  queues : ¬ans.init.AllocatesPd → ep.qps = [] ∧ ep.device.objects = .empty

/-- What `init_ibgda` leaves alone, however it ends. -/
theorem initIbgda_keeps (ep : EpBuffer) (ans : InitAnswers) (hqps : ep.qps = []) :
    (ep.initIbgda ans).1.config = ep.config ∧ (ep.initIbgda ans).1.ipc = ep.ipc ∧
      (ep.initIbgda ans).1.mappings = ep.mappings := by
  by_cases hpd : ans.AllocatesPd
  · obtain ⟨hconfig, -, -, -, hipc, hmaps, -⟩ := prepared_eq ep ans
    rcases initIbgda_cases hqps hpd with ⟨t, heq, -, hset, -⟩ | ⟨t, e, heq, -, hhalf⟩
    · rw [heq]
      exact ⟨hset.frame.config.trans hconfig, hset.frame.ipc.trans hipc,
        hset.frame.mappings.trans hmaps⟩
    · rw [heq]
      exact ⟨hhalf.config, hhalf.ipc, hhalf.mappings⟩
  · obtain ⟨e, heq, -⟩ := @initIbgda_of_not ep ans hpd
    rw [heq]
    exact ⟨rfl, rfl, rfl⟩

/-- Once it is there, the protection domain stays. -/
theorem initIbgda_pd {ep : EpBuffer} {ans : InitAnswers} (hqps : ep.qps = [])
    (hpd : ans.AllocatesPd) : (ep.initIbgda ans).1.pointers .pd ≠ none := by
  rcases initIbgda_cases hqps hpd with ⟨t, heq, -, hset, -⟩ | ⟨t, e, heq, -, hhalf⟩
  · rw [heq, show t.pointers = _ from hset.frame.pointers]
    exact (prepared_pointers ep ans).2
  · rw [heq]
    exact hhalf.pd

/-- The pointers that the constructor does not write after its arrays. -/
theorem new_arrays {config : IpcBuffer} {ans : NewAnswers} {ep : EpBuffer}
    (h : new config ans = (ep, none)) :
    ∃ b ep₁, (blank config).allocGdrBuffer ans = (b, none) ∧ b.allocArrays ans = (ep₁, none) ∧
      ∀ k, k ∉ ibgdaKinds → k ≠ .workspace → ep.pointers k = ep₁.pointers k := by
  obtain ⟨a, b, ep₁, t, ha, hb, h₁, ht, hw⟩ := new_parts h
  obtain rfl : blank config = a := by
    have hblank := forEach_start config ans
    rw [ha] at hblank
    exact hblank.symm
  refine ⟨b, ep₁, hb, h₁, fun k hk hne => ?_⟩
  have hqps : ep₁.qps = [] := by
    have hsame := sameQueues_allocGdrBuffer (blank config) ans
    have hsame' : SameQueues b (b.allocArrays ans).1 := sameQueues_forEach_cudaCheck b _
    rw [hb] at hsame
    rw [h₁] at hsame'
    exact (hsame.trans hsame').qps
  -- The workspace comes after `init_ibgda`, and neither of them writes this pointer.
  have hlast := pointers_allocWorkspace t ans hne
  have hinit := (tryIbgda_fst ep₁ ans.init).2.1
  rw [hw] at hlast
  rw [ht] at hinit
  rw [hlast, hinit, pointers_initIbgda ep₁ ans.init hqps hk]

/-- After a constructor that returned, the pointers are those of its mode. -/
theorem allocated_of_new {config : IpcBuffer} {ans : NewAnswers} {ep : EpBuffer}
    (h : new config ans = (ep, none)) (hconfig : ep.config = config) : Allocated ep := by
  have hgdr : ans.AllocatesGdrBuffer config := (new_snd config ans).1 (by rw [h])
  have hgdrs : ∀ k ∈ gdrKinds, ep.pointers k = ((blank config).allocGdrBuffer ans).1.pointers k :=
    fun k hk => by rw [← pointers_new_gdr hgdr hk, h]
  obtain ⟨b, ep₁, hb, h₁, hlater⟩ := new_arrays h
  rcases @allocGdrBuffer_cases (blank config) ans fun _ _ => rfl with
    ⟨-, -, -, hfabric, hplain⟩ | ⟨-, hno, -⟩
  swap
  · exact absurd hgdr.2.2 hno
  -- The mode decides which pointers of the buffer are null.
  refine ⟨fun hmode => ?_, fun hmode k hk hne => ?_, ?_, ?_⟩
  · rw [hgdrs _ (by decide)]
    exact hfabric (hconfig ▸ hmode)
  · rw [hgdrs k hk]
    exact hplain (hconfig ▸ hmode) k hk hne
  · rw [hlater _ (by decide) (by decide)]
    unfold allocArrays at h₁
    have hhost := @forEach_cudaCheck_acquired .ipcPeerPtrsHost ans.ipcPeerPtrsHost _ _ _ h₁
    exact hhost (by simp)
  · rw [hlater _ (by decide) (by decide)]
    exact pointers_before_init hb h₁ (by decide) (by decide)

/-- What `Constructed` says, of every constructor that returned. -/
theorem constructed {config : IpcBuffer} {ans : NewAnswers} {ep : EpBuffer}
    (h : new config ans = (ep, none)) : Constructed config ans ep := by
  obtain ⟨ep₁, t, hsame, hnull, hinit, hpointers⟩ := new_returned h
  have hqps : ep₁.qps = [] := hsame.qps
  -- `init_ibgda` has left `t`, whether it failed or not.
  have hfst : (ep₁.initIbgda ans.init).1 = t := by
    rcases hinit with ⟨hcase, -⟩ | ⟨hcase, -⟩ <;> rw [hcase]
  obtain ⟨hconfig', hipc', hmaps', hdevice', hqps'⟩ : ep.config = t.config ∧ ep.ipc = t.ipc ∧
      ep.mappings = t.mappings ∧ ep.device = t.device ∧ ep.qps = t.qps := by
    rcases hinit with ⟨-, hlast⟩ | ⟨-, hlast⟩ <;>
      exact ⟨hlast.config, hlast.ipc, hlast.mappings, hlast.device, hlast.qps⟩
  obtain ⟨hconfig, hipc, hmaps⟩ := initIbgda_keeps ep₁ ans.init hqps
  rw [hfst] at hconfig hipc hmaps
  have hcfg : ep.config = config := (hconfig'.trans hconfig).trans hsame.config
  have hnomap : ep.mappings = fun _ => none :=
    (hmaps'.trans hmaps).trans hsame.mappings
  have hstart : ep.ipc = .start := (hipc'.trans hipc).trans hsame.ipc
  refine ⟨hcfg, ⟨fun i => ?_, by rw [hnomap], fun _ i => by rw [hnomap]⟩,
    allocated_of_new h hcfg, fun hpd => ?_, fun hpd k hk => ?_, fun hpd => ?_⟩
  · -- No mapping is open at first.
    rw [hnomap, hstart]
    exact iff_of_false (not_not.mpr rfl) (by rintro ⟨handle, heq⟩; cases heq)
  · -- A protection domain is kept, since nothing releases it.
    rw [hpointers .pd (by decide), ← hfst]
    exact initIbgda_pd hqps hpd
  · -- Without one `init_ibgda` has changed nothing.
    obtain ⟨e, heq, -⟩ := @initIbgda_of_not ep₁ _ hpd
    rw [hpointers k (notMem_of_ibgdaKinds k hk).2.2, ← hfst, heq, hnull k hk]
  · obtain ⟨e, heq, -⟩ := @initIbgda_of_not ep₁ _ hpd
    rw [hdevice', hqps', ← hfst, heq, hsame.device]
    exact ⟨hqps, rfl⟩

/-! ### Calls -/

/-- `update_local_qpns` changes the queue pairs and the device only. -/
theorem updateLocalQpns_frame {ep : EpBuffer} (hsound : Sound ep) (setups : ℕ → SetupAnswers)
    (hc : Continues (ep.updateLocalQpns setups).2) : Frame ep (ep.updateLocalQpns setups).1 := by
  rcases updateLocalQpns_cases setups hsound.length_le with
    ⟨-, t, heq, -⟩ | ⟨-, t, ht, ⟨t', heq, hset, -⟩ | ⟨i, u, t', e, heq, -, hstop, -⟩⟩
  · rw [heq] at hc
    exact absurd hc id
  · rw [heq]
    exact ht.frame.trans hset.frame
  · rw [heq]
    exact ht.frame.trans hstop.frame

/-- A call opens the memory of no rank whose mapping it would forget. -/
def CleanCall (ep : EpBuffer) : Call → Prop
  | .syncNvlinkIpcHandles call ans => OpensFree ep call ans
  | .updateLocalQpns _ | .syncIb _ _ | .syncRoce _ _ _ => True

/-- No call of a run forgets a mapping. -/
def CleanCalls (ep : EpBuffer) : List Call → Prop
  | [] => True
  | c :: calls => CleanCall ep c ∧ CleanCalls (callMachine.fire ep c) calls

/-- Between two calls nothing is lost but `lost`. -/
structure Alive (ep : EpBuffer) (lost : List (Ledger.Entry Resource)) : Prop where
  accounts : Accounts ep lost
  tracked : Tracked ep
  sound : Sound ep

/-- A call loses something if and only if it is not clean. -/
theorem Alive.call {ep : EpBuffer} {lost : List (Ledger.Entry Resource)} (h : Alive ep lost)
    {c : Call} (hc : Continues (ep.call c).2) :
    ∃ more, Alive (ep.call c).1 (lost ++ more) ∧ (ep.call c).1.config = ep.config ∧
      (ep.call c).1.pointers = ep.pointers ∧ (more = [] ↔ CleanCall ep c) := by
  obtain ⟨hconfig, hsound⟩ := h.sound.call hc
  -- The calls on the queue pairs touch neither the ledger nor a pointer.
  have hframe : Frame ep (ep.call c).1 → CleanCall ep c →
      ∃ more, Alive (ep.call c).1 (lost ++ more) ∧ (ep.call c).1.config = ep.config ∧
        (ep.call c).1.pointers = ep.pointers ∧ (more = [] ↔ CleanCall ep c) := fun hf hclean =>
    ⟨[], ⟨by simpa using h.accounts.frame hf, h.tracked.of_eq hf.config hf.mappings hf.ipc, hsound⟩,
      hconfig, hf.pointers, iff_of_true rfl hclean⟩
  cases c with
  | updateLocalQpns setups => exact hframe (updateLocalQpns_frame h.sound setups hc) trivial
  | syncIb args lids => exact hframe (ep.syncQps_connecting args (.ib lids)).frame trivial
  | syncRoce args subnetPrefixes interfaceIds =>
    exact hframe (ep.syncQps_connecting args (.roce subnetPrefixes interfaceIds)).frame trivial
  | syncNvlinkIpcHandles call ans =>
    obtain ⟨more, haccounts, htracked, hmore⟩ :=
      syncNvlinkIpcHandles_accounts h.accounts h.tracked call ans
    exact ⟨more, ⟨haccounts, htracked, hsound⟩, hconfig,
      (ep.syncNvlinkIpcHandles_opening call ans).pointers, hmore⟩

/-- A run loses something if and only if one of its calls is not clean. -/
theorem Alive.exec (calls : List Call) :
    ∀ {ep : EpBuffer} {lost : List (Ledger.Entry Resource)}, Alive ep lost →
      callMachine.Legal ep calls →
      ∃ more, Alive (callMachine.exec ep calls) (lost ++ more) ∧
        (callMachine.exec ep calls).config = ep.config ∧
        (callMachine.exec ep calls).pointers = ep.pointers ∧ (more = [] ↔ CleanCalls ep calls) := by
  induction calls with
  | nil =>
    intro ep lost h _
    exact ⟨[], by simpa [Machine.exec] using h, rfl, rfl, iff_of_true rfl trivial⟩
  | cons c calls ih =>
    intro ep lost h hlegal
    obtain ⟨first, hfirst, hconfig, hpointers, hclean⟩ := h.call hlegal.1
    obtain ⟨rest, hrest, hconfig', hpointers', hclean'⟩ := ih hfirst hlegal.2
    refine ⟨first ++ rest, ?_, hconfig'.trans hconfig, hpointers'.trans hpointers, ?_⟩
    · rw [← List.append_assoc]
      exact hrest
    · rw [List.append_eq_nil_iff, hclean, hclean']
      rfl

/-- Without queue pairs no call makes one. -/
theorem queues_exec (calls : List Call) :
    ∀ {ep : EpBuffer}, ep.qps = [] → callMachine.Legal ep calls →
      (callMachine.exec ep calls).qps = [] ∧
        (callMachine.exec ep calls).device.objects = ep.device.objects := by
  induction calls with
  | nil => exact fun h _ => ⟨h, rfl⟩
  | cons c calls ih =>
    intro ep h hlegal
    have hcall : (ep.call c).1.qps = [] ∧ (ep.call c).1.device.objects = ep.device.objects := by
      cases c with
      | updateLocalQpns setups =>
        -- Without slots there is nothing to set up. With slots to fill, the call reads beyond the
        -- array.
        by_cases huse : ep.useQpCount = 0
        · have heq : ep.updateLocalQpns setups = (ep, none) := by
            simp [updateLocalQpns, destroyQps, rebuildQps, huse, forEach]
          rw [EpBuffer.call, heq]
          exact ⟨h, rfl⟩
        · have hlen : ep.qps.length < ep.useQpCount := by
            rw [h]
            exact Nat.pos_of_ne_zero huse
          rcases updateLocalQpns_cases setups hlen.le with ⟨-, t, heq, -⟩ | ⟨hlen', -⟩
          · have hcontinues : Continues (ep.updateLocalQpns setups).2 := hlegal.1
            rw [heq] at hcontinues
            exact absurd hcontinues id
          · exact absurd hlen' hlen.ne
      | syncIb args lids =>
        have hcon := ep.syncQps_connecting args (.ib lids)
        exact ⟨hcon.qps.trans h, hcon.objects⟩
      | syncRoce args subnetPrefixes interfaceIds =>
        have hcon := ep.syncQps_connecting args (.roce subnetPrefixes interfaceIds)
        exact ⟨hcon.qps.trans h, hcon.objects⟩
      | syncNvlinkIpcHandles call ans =>
        have hopen := ep.syncNvlinkIpcHandles_opening call ans
        exact ⟨hopen.qps.trans h, congrArg Device.objects hopen.device⟩
    obtain ⟨hqps, hobjects⟩ := ih hcall.1 hlegal.2
    exact ⟨hqps, hobjects.trans hcall.2⟩

/-! ### Lives -/

/-- The members at the end of a life. When the constructor throws, nothing follows. -/
def endOfLife (config : IpcBuffer) (ans : NewAnswers) (calls : List Call) : EpBuffer :=
  match new config ans with
  | (ep, none) => (callMachine.exec ep calls).destroy
  | (ep, some _) => ep

/-- There are calls on an `EpBuffer` only if its constructor returned, and the caller goes on after
each of them. -/
structure IsLife (config : IpcBuffer) (ans : NewAnswers) (calls : List Call) : Prop where
  returned : ∀ ep, new config ans = (ep, none) → callMachine.Legal ep calls
  threw : ∀ ep e, new config ans = (ep, some e) → calls = []

/-- A queue pair that is alive is in a slot. -/
def InSlots (ep : EpBuffer) : Prop :=
  ∀ id, (Obj.qp, id) ∈ ep.device.objects.acquired → (Obj.qp, id) ∉ ep.device.objects.released →
    ∃ qp, some qp ∈ ep.qps ∧ qp.mqp = id

/-- At the end of a life everything was released exactly once, and until the destructor no queue
pair that was alive had lost its slot. -/
def Released (config : IpcBuffer) (ans : NewAnswers) (calls : List Call) : Prop :=
  (endOfLife config ans calls).ledger.Balanced ∧
    (endOfLife config ans calls).device.objects.Balanced ∧
    ∀ n, InSlots (callMachine.exec (new config ans).1 (calls.take n))

/-- A constructor that allocates `gdr_buffer` returns, and `init_ibgda` fails before it has a
protection domain. -/
def CleanStart (config : IpcBuffer) (ans : NewAnswers) : Prop :=
  ans.AllocatesGdrBuffer config → ans.Completes ∧ ¬ans.init.AllocatesPd

/-- The life goes through none of the three leaks. -/
def Clean (config : IpcBuffer) (ans : NewAnswers) (calls : List Call) : Prop :=
  CleanStart config ans ∧ ∀ ep, new config ans = (ep, none) → CleanCalls ep calls

/-- Without objects no queue pair is missing. -/
theorem inSlots_of_empty {ep : EpBuffer} (h : ep.device.objects = .empty) : InSlots ep := by
  intro id hid
  rw [h] at hid
  exact absurd hid List.not_mem_nil

/-- Queue pairs that were never made are not missing. -/
theorem balanced_of_empty {ep : EpBuffer} (h : ep.device.objects = .empty) :
    ep.device.objects.Balanced := by
  rw [h]
  exact (Ledger.Holds.balanced_iff .empty).mpr rfl

/-- The ledger is balanced when no pointer, no mapping and nothing lost is left. -/
theorem Accounts.balanced_iff {ep : EpBuffer} {lost : List (Ledger.Entry Resource)}
    (h : Accounts ep lost) :
    ep.ledger.Balanced ↔ (∀ k, ep.pointers k = none) ∧ mapped ep = [] ∧ lost = [] := by
  have hholds : ep.ledger.Holds (owned ep ++ (mapped ep ++ lost)) := h
  rw [hholds.balanced_iff, List.append_eq_nil_iff, List.append_eq_nil_iff]
  have howned : owned ep = [] ↔ ∀ k, ep.pointers k = none :=
    Ledger.held_eq_nil.trans ⟨fun h k => h k (mem_kinds k), fun h k _ => h k⟩
  rw [howned]

/-- Calls that write neither the configuration nor the pointers keep what is allocated. -/
theorem Allocated.of_eq {ep ep' : EpBuffer} (h : Allocated ep) (hconfig : ep'.config = ep.config)
    (hpointers : ep'.pointers = ep.pointers) : Allocated ep' := by
  constructor
  · rw [hconfig, hpointers]
    exact h.gdrBuffer
  · rw [hconfig, hpointers]
    exact h.fabric
  · rw [hpointers]
    exact h.hostArray
  · rw [hpointers]
    exact h.ipcMapping

/-- The life of an `EpBuffer` whose constructor returned. -/
theorem released_iff_of_returned {config : IpcBuffer} {ans : NewAnswers} {calls : List Call}
    {ep : EpBuffer} (hnew : new config ans = (ep, none)) (hlegal : callMachine.Legal ep calls) :
    Released config ans calls ↔ ¬ans.init.AllocatesPd ∧ CleanCalls ep calls := by
  have hc := constructed hnew
  have hstart : Alive ep [] := by
    refine ⟨?_, hc.tracked, (new_cases hnew).2.1⟩
    have haccounts := accounts_new config ans
    rwa [hnew] at haccounts
  -- The calls keep the accounts, and what they lose is what `CleanCalls` forbids.
  obtain ⟨lost, halive, hconfig, hpointers, hlost⟩ := hstart.exec calls hlegal
  rw [List.nil_append] at halive
  obtain ⟨haccounts, hmapped, hdevice, hptr⟩ :=
    destroy_accounts halive.accounts halive.tracked (hc.allocated.of_eq hconfig hpointers)
  have hend : endOfLife config ans calls = (callMachine.exec ep calls).destroy := by
    rw [endOfLife, hnew]
  have hledger : (endOfLife config ans calls).ledger.Balanced ↔
      ¬ans.init.AllocatesPd ∧ CleanCalls ep calls := by
    -- Balanced means that no pointer is left, no mapping, and nothing lost.
    rw [hend, haccounts.balanced_iff, ← hlost]
    constructor
    · rintro ⟨hnull, -, hno⟩
      -- The destructor does not release the protection domain.
      refine ⟨fun hpd => hc.pd hpd ?_, hno⟩
      have hleft := hnull .pd
      rwa [hptr, if_pos (by decide), hpointers] at hleft
    · rintro ⟨hpd, hno⟩
      refine ⟨fun k => ?_, hmapped, hno⟩
      rw [hptr, hpointers]
      split
      · exact hc.ibgda hpd k ‹_›
      · rfl
  constructor
  · exact fun hreleased => hledger.mp hreleased.1
  · intro hclean
    -- Without it there were no queue pairs, so no object was created.
    obtain ⟨hqps, hobjects⟩ := hc.queues hclean.1
    refine ⟨hledger.mpr hclean, ?_, fun n => ?_⟩
    · refine balanced_of_empty ?_
      rw [hend, hdevice, (queues_exec calls hqps hlegal).2, hobjects]
    · refine inSlots_of_empty ?_
      rw [hnew, (queues_exec _ hqps (hlegal.take _ n)).2, hobjects]

/-- The life of an `EpBuffer` whose constructor threw. -/
theorem released_iff_of_threw {config : IpcBuffer} {ans : NewAnswers} {ep : EpBuffer} {e : Exit}
    (hnew : new config ans = (ep, some e)) :
    Released config ans [] ↔ ¬ans.AllocatesGdrBuffer config := by
  have hend : endOfLife config ans [] = ep := by rw [endOfLife, hnew]
  have haccounts := accounts_new config ans
  rw [hnew] at haccounts
  constructor
  · -- A pointer to the buffer is left.
    intro hreleased hgdr
    have hnull := (haccounts.balanced_iff.mp (hend ▸ hreleased.1)).1
    rcases @allocGdrBuffer_cases (blank config) ans fun _ _ => rfl with
      ⟨-, -, ⟨k, hk, hleft⟩, -⟩ | ⟨-, hno, -⟩
    · rw [← pointers_new_gdr hgdr hk, hnew] at hleft
      exact hleft (hnull k)
    · exact hno hgdr.2.2
  · intro hgdr
    obtain ⟨-, hnull, hsame⟩ := new_of_not_allocates hgdr
    rw [hnew] at hnull hsame
    have hobjects : ep.device.objects = .empty := by
      rw [show ep.device = (blank config).device from hsame.device]
      rfl
    refine ⟨?_, ?_, fun n => ?_⟩
    · rw [hend, haccounts.balanced_iff]
      refine ⟨hnull, Ledger.held_eq_nil.mpr fun i _ => ?_, rfl⟩
      rw [show ep.mappings = (blank config).mappings from hsame.mappings]
      rfl
    · rw [hend]
      exact balanced_of_empty hobjects
    · rw [hnew, List.take_nil]
      exact inSlots_of_empty hobjects

/-- Everything that a life acquires is released exactly once, and no queue pair loses its slot, if
and only if the life is clean. -/
theorem life_released_iff (config : IpcBuffer) (ans : NewAnswers) (calls : List Call)
    (h : IsLife config ans calls) : Released config ans calls ↔ Clean config ans calls := by
  have hsnd := new_snd config ans
  rcases hnew : new config ans with ⟨ep, _ | e⟩
  · rw [hnew] at hsnd
    have hgdr := hsnd.1 rfl
    rw [released_iff_of_returned hnew (h.returned ep hnew), Clean, CleanStart]
    constructor
    · rintro ⟨hpd, hcalls⟩
      refine ⟨fun _ => ⟨((hsnd.2 hpd).mp rfl).2, hpd⟩, fun ep' hep' => ?_⟩
      obtain rfl : ep = ep' := congrArg Prod.fst (hnew.symm.trans hep')
      exact hcalls
    · exact fun hclean => ⟨(hclean.1 hgdr).2, hclean.2 ep hnew⟩
  · rw [hnew] at hsnd
    obtain rfl : calls = [] := h.threw ep e hnew
    rw [released_iff_of_threw hnew, Clean, CleanStart]
    constructor
    · exact fun hgdr => ⟨fun h => absurd h hgdr, fun ep' hep' => by
        rw [hnew] at hep'
        cases hep'⟩
    · -- If all steps but the protection domain had succeeded, the constructor would have returned.
      intro hclean hgdr
      obtain ⟨hcompletes, hpd⟩ := hclean.1 hgdr
      have hreturns := (hsnd.2 hpd).mpr ⟨hgdr, hcompletes⟩
      cases hreturns

/-! ### Two ranks -/

/-- A machine whose device cannot be opened. IBGDA is disabled. -/
def withoutDevice : NewAnswers :=
  .success { InitAnswers.success .infiniband with openDevice := false }

/-- A call that opens the memory of rank 1. -/
def opensPeer : Call :=
  .syncNvlinkIpcHandles
    { remoteHandles := List.replicate 2 (List.replicate 16 0)
      activeRanksMask _ := 1
      deviceCount := 2
      deviceCount_pos := Nat.zero_lt_two
      canAccessPeer _ _ := (.success, 1)
      enablePeerAccess _ := .success
      openMemHandle _ := .success } ⟨true, true, true⟩

/-- The life without a device in which the memory of rank 1 is opened once. -/
theorem life_released_iff_withoutDevice : IsLife twoRanks withoutDevice [opensPeer] ∧
    Released twoRanks withoutDevice [opensPeer] := by
  have hlife : IsLife twoRanks withoutDevice [opensPeer] := by
    refine ⟨fun ep hep => ?_, fun ep e hep => by cases hep⟩
    obtain rfl : (new twoRanks withoutDevice).1 = ep := congrArg Prod.fst hep
    exact ⟨trivial, trivial⟩
  refine ⟨hlife, (life_released_iff _ _ _ hlife).mpr ⟨fun _ => ⟨by decide, by decide⟩, ?_⟩⟩
  intro ep hep
  obtain rfl : (new twoRanks withoutDevice).1 = ep := congrArg Prod.fst hep
  exact ⟨fun _ _ _ _ _ _ => rfl, trivial⟩

/-- When every step succeeds, the destructor leaves the resources of `init_ibgda`. -/
theorem not_released_of_success :
    ¬∀ (config : IpcBuffer) (ans : NewAnswers) (calls : List Call), IsLife config ans calls →
      Released config ans calls := by
  intro h
  obtain ⟨ep, hnew, -⟩ := new_succeeds twoRanks (InitAnswers.succeed_success .infiniband _)
  have hlife : IsLife twoRanks (.success (.success .infiniband)) [] :=
    ⟨fun _ _ => trivial, fun _ _ _ => rfl⟩
  have hlegal : callMachine.Legal ep [] := trivial
  have hreleased := h _ _ _ hlife
  rw [released_iff_of_returned hnew hlegal] at hreleased
  have hpd : (InitAnswers.success .infiniband).AllocatesPd :=
    (InitAnswers.succeed_success .infiniband 0).1
  exact hreleased.1 hpd

end EpBuffer

end EpDemo.Lifecycle
