import EpDemo.Proofs.System.Launches

/-!
# `EpDemo.Proofs.System.Messages`: the messages and signals of both kernels

Both kernels send messages and signals in the same way and differ in the addresses and the
order. A `Request` is what one action issues: message `key` of the current call of a rank, or
its signal for expert `e`. For both kernels this module gives the expert and the queue pair of
a request, its work request, its address at the destination, and whether it was issued. The
lemmas on `fire` say what a step changes in these terms, and `signalSent_tasks` is the order
that the kernels keep: a signal is issued after every message to the same expert.
-/

set_option autoImplicit false

namespace EpDemo.System

open EpDemo.Kernel EpDemo.Library

/-- What an action of a kernel issues. -/
inductive Request
  | data (key : ℕ × ℕ)
  | signal (e : ℕ)
  deriving DecidableEq

namespace Action

/-- The rank that issues a request and the request. -/
def request : Action → Option (ℕ × Request)
  | .dispatch r (.send t warp) => some (r, .data (t, warp))
  | .dispatch r (.signal e) => some (r, .signal e)
  | .combine r (.sendRow e k) => some (r, .data (e, k))
  | .combine r (.signal e) => some (r, .signal e)
  | _ => none

/-- The rank that zeroes an entry of its `next_clean_buffer`, and the entry. -/
def cleaned : Action → Option (ℕ × ℕ)
  | .dispatch r (.clean i) => some (r, i)
  | .combine r (.clean i) => some (r, i)
  | _ => none

/-- The rank and the group whose signal wait ends, and the value that it read. -/
def acquired : Action → Option (ℕ × ℕ × ℤ)
  | .dispatch r (.acquire e v) => some (r, e, v)
  | .combine r (.acquire e v) => some (r, e, v)
  | _ => none

/-- The steps that send a message. -/
theorem request_data_iff {a : Action} {r : ℕ} {key : ℕ × ℕ} : a.request = some (r, .data key) ↔
    a = .dispatch r (.send key.1 key.2) ∨ a = .combine r (.sendRow key.1 key.2) := by
  constructor
  · intro h
    cases a with
    | dispatch r' a =>
      cases a with
      | send t w =>
        cases h
        exact .inl rfl
      | _ => cases h
    | combine r' a =>
      cases a with
      | sendRow e k =>
        cases h
        exact .inr rfl
      | _ => cases h
    | deliver r' ctx => cases h
    | advance r' => cases h
  · rintro (rfl | rfl) <;> rfl

/-- The steps that send a signal. -/
theorem request_signal_iff {a : Action} {r e : ℕ} : a.request = some (r, .signal e) ↔
    a = .dispatch r (.signal e) ∨ a = .combine r (.signal e) := by
  constructor
  · intro h
    cases a with
    | dispatch r' a =>
      cases a with
      | signal e =>
        cases h
        exact .inl rfl
      | _ => cases h
    | combine r' a =>
      cases a with
      | signal e =>
        cases h
        exact .inr rfl
      | _ => cases h
    | deliver r' ctx => cases h
    | advance r' => cases h
  · rintro (rfl | rfl) <;> rfl

/-- The steps that clean an entry. -/
theorem cleaned_iff {a : Action} {r i : ℕ} : a.cleaned = some (r, i) ↔
    a = .dispatch r (.clean i) ∨ a = .combine r (.clean i) := by
  constructor
  · intro h
    cases a with
    | dispatch r' a =>
      cases a with
      | clean i =>
        cases h
        exact .inl rfl
      | _ => cases h
    | combine r' a =>
      cases a with
      | clean i =>
        cases h
        exact .inr rfl
      | _ => cases h
    | deliver r' ctx => cases h
    | advance r' => cases h
  · rintro (rfl | rfl) <;> rfl

/-- The steps with which a signal wait ends. -/
theorem acquired_iff {a : Action} {r e : ℕ} {v : ℤ} : a.acquired = some (r, e, v) ↔
    a = .dispatch r (.acquire e v) ∨ a = .combine r (.acquire e v) := by
  constructor
  · intro h
    cases a with
    | dispatch r' a =>
      cases a with
      | acquire e v =>
        cases h
        exact .inl rfl
      | _ => cases h
    | combine r' a =>
      cases a with
      | acquire e v =>
        cases h
        exact .inr rfl
      | _ => cases h
    | deliver r' ctx => cases h
    | advance r' => cases h
  · rintro (rfl | rfl) <;> rfl

/-- An action issues, cleans or acquires, but no two of these. -/
theorem of_request {a : Action} {y : ℕ × Request} (h : a.request = some y) :
    a.cleaned = none ∧ a.acquired = none ∧ ∀ r, a ≠ .advance r := by
  obtain ⟨r, key | e⟩ := y
  · rcases request_data_iff.mp h with rfl | rfl <;> simp [cleaned, acquired]
  · rcases request_signal_iff.mp h with rfl | rfl <;> simp [cleaned, acquired]

/-- A step that cleans does nothing else. -/
theorem of_cleaned {a : Action} {y : ℕ × ℕ} (h : a.cleaned = some y) :
    a.request = none ∧ a.acquired = none ∧ (∀ r, a ≠ .advance r) ∧ ∀ r ctx, a ≠ .deliver r ctx := by
  obtain ⟨r, i⟩ := y
  rcases cleaned_iff.mp h with rfl | rfl <;> simp [request, acquired]

/-- A step with which a wait ends does nothing else. -/
theorem of_acquired {a : Action} {y : ℕ × ℕ × ℤ} (h : a.acquired = some y) :
    a.request = none ∧ a.cleaned = none ∧ (∀ r, a ≠ .advance r) ∧ ∀ r ctx, a ≠ .deliver r ctx := by
  obtain ⟨r, e, v⟩ := y
  rcases acquired_iff.mp h with rfl | rfl <;> simp [request, cleaned]

end Action

namespace Config

variable {A : Type} (c : Config A)

/-- The queue pair of everything that goes to expert `e`. -/
def ctx (e : ℕ) : ℕ :=
  ctxIndex c.maxQpCount c.numRanks (e / c.numLocalExperts) (e % c.numLocalExperts)

/-! ### Signals -/

/-- The entry of the receive signals that group `e` of rank `r` signals. -/
def sendCell (m r e : ℕ) : ℕ :=
  match (c.calls m).kind with
  | .dispatch => e % c.numLocalExperts * c.numRanks + r
  | .combine => r * c.numLocalExperts + e % c.numLocalExperts

/-- The entry of the receive signals that group `e` waits for. -/
def waitCell (m e : ℕ) : ℕ :=
  match (c.calls m).kind with
  | .dispatch => e % c.numLocalExperts * c.numRanks + e / c.numLocalExperts
  | .combine => e

/-- The value of a signal. -/
def signalValue (m r e : ℕ) : ℤ :=
  match (c.calls m).kind with
  | .dispatch => toInt32 (-((c.launch r m).numTokensSent e : ℤ) - 1)
  | .combine => 1

/-- The signal word that a signal goes to. -/
def signalDst (m r e : ℕ) : Ptr :=
  c.fabric.target r (e / c.numLocalExperts)
    (c.fabric.recvSignal (c.calls m).buf r (c.sendCell m r e))

/-- The work request of a signal. -/
def signalWqe (m r e : ℕ) : Wqe :=
  .atomicAdd m e (c.calls m).buf (c.signalDst m r e) (c.signalValue m r e)

/-- Group `e` of rank `r` has issued its signal of call `m`. -/
def SignalSent (w : World A) (m r e : ℕ) : Prop :=
  match (c.calls m).kind with
  | .dispatch => ((w.disp (r, m)).signal e).isSent = true
  | .combine => ((w.comb (r, m)).signal e).isSent = true

instance (w : World A) (m r e : ℕ) : Decidable (c.SignalSent w m r e) := by
  unfold SignalSent
  split <;> infer_instance

/-- Rank `r` has zeroed an entry of `next_clean_buffer` in call `m`. -/
def Cleaned (w : World A) (m r i : ℕ) : Prop :=
  match (c.calls m).kind with
  | .dispatch => (w.disp (r, m)).cleaned i = true
  | .combine => (w.comb (r, m)).cleaned i = true

/-- The signal wait of group `e` of rank `r` has ended in call `m`. -/
def Taken (w : World A) (m r e : ℕ) : Prop :=
  match (c.calls m).kind with
  | .dispatch => ((w.disp (r, m)).recv e).hasCount = true
  | .combine => (w.comb (r, m)).recv e = .passed

/-! ### Messages -/

/-- The expert that a message goes to. -/
def dataExpert (m r : ℕ) (key : ℕ × ℕ) : ℕ :=
  match (c.calls m).kind with
  | .dispatch => ((c.launch r m).dstExpertIdx key.1 key.2).toNat
  | .combine => key.1

/-- The packed row that a message of `combine` carries. -/
def combineRow (w : World A) (m r : ℕ) (key : ℕ × ℕ) : ℤ :=
  c.packedRow (key.1 % c.numLocalExperts) ((c.combineLaunch w r m).rowIdx key.1 key.2)

/-- Where a message is staged. -/
def dataSrc (w : World A) (m r : ℕ) (key : ℕ × ℕ) : Ptr :=
  match (c.calls m).kind with
  | .dispatch => c.fabric.sendData (c.calls m).buf r (key.1 * c.shape.numBytesPerMsg)
  | .combine => c.fabric.sendData (c.calls m).buf r
    (c.combineRow w m r key * c.shape.numBytesPerSlot)

/-- The offset of a message in the receive data of its destination. -/
def dataOffset (w : World A) (m r : ℕ) (key : ℕ × ℕ) : ℤ :=
  match (c.calls m).kind with
  | .dispatch =>
    c.messageOffset (c.dataExpert m r key % c.numLocalExperts) r ((w.disp (r, m)).slot key)
  | .combine =>
    c.slotOffset (r * c.numLocalExperts + key.1 % c.numLocalExperts)
      (c.srcInfo w r m (c.combineRow w m r key))

/-- The size of a message. -/
def dataBytes (m : ℕ) : ℕ :=
  match (c.calls m).kind with
  | .dispatch => c.shape.numBytesPerMsg
  | .combine => c.shape.numBytesPerSlot

/-- What a plain store writes. -/
def dataContent (w : World A) (m r : ℕ) (key : ℕ × ℕ) : ℕ → Word :=
  match (c.calls m).kind with
  | .dispatch => fun j => w.send (c.calls m).buf ((c.dataSrc w m r key).add (4 * j))
  | .combine => ((c.calls m).input r).x (c.combineRow w m r key)

/-- Where a message goes. -/
def dataDst (w : World A) (m r : ℕ) (key : ℕ × ℕ) : Ptr :=
  c.fabric.target r (c.dataExpert m r key / c.numLocalExperts)
    (c.fabric.recvData (c.calls m).buf r (c.dataOffset w m r key))

/-- The work request of a message. -/
def dataWqe (w : World A) (m r : ℕ) (key : ℕ × ℕ) : Wqe :=
  .write m key (c.calls m).buf (c.dataSrc w m r key) (c.dataDst w m r key) (c.dataBytes m)

/-- The launch has such a message. -/
def Task (w : World A) (m r : ℕ) (key : ℕ × ℕ) : Prop :=
  match (c.calls m).kind with
  | .dispatch => key ∈ (c.launch r m).tasks (c.dataExpert m r key)
  | .combine => key.1 < c.numExperts ∧ key.2 < (c.combineLaunch w r m).numRows key.1

/-- A message has been copied or posted. -/
def DataSent (w : World A) (m r : ℕ) (key : ℕ × ℕ) : Prop :=
  match (c.calls m).kind with
  | .dispatch => ((w.disp (r, m)).token key).isSent = true
  | .combine => (w.comb (r, m)).row key = .sent

instance (w : World A) (m r : ℕ) (key : ℕ × ℕ) : Decidable (c.DataSent w m r key) := by
  unfold DataSent
  split <;> infer_instance

/-! ### Requests -/

/-- The expert of a request. -/
def requestExpert (m r : ℕ) : Request → ℕ
  | .data key => c.dataExpert m r key
  | .signal e => e

/-- The work request of a request, when it goes through the network card. -/
def requestWqe (w : World A) (m r : ℕ) : Request → Wqe
  | .data key => c.dataWqe w m r key
  | .signal e => c.signalWqe m r e

section

variable {c} {w : World A} {a : Action}

/-- A message is transferred to the rank of its expert. -/
theorem fire_data (hen : c.enabled w a) {r : ℕ} {key : ℕ × ℕ}
    (hreq : a.request = some (r, .data key)) :
    c.fire w a =
      { c.transfer w r (c.dataExpert (w.call r) r key / c.numLocalExperts)
          (c.ctx (c.dataExpert (w.call r) r key)) key (c.dataSrc w (w.call r) r key)
          (c.fabric.recvData (c.calls (w.call r)).buf r (c.dataOffset w (w.call r) r key))
          (c.dataBytes (w.call r)) (c.dataContent w (w.call r) r key) with
        disp := (c.fire w a).disp, comb := (c.fire w a).comb } := by
  cases Action.request_data_iff.mp hreq with
  | inl ha =>
    subst ha
    simp only [dataExpert, dataSrc, dataOffset, dataBytes, dataContent, hen.2.1]
    rfl
  | inr ha =>
    subst ha
    simp only [dataExpert, dataSrc, dataOffset, dataBytes, dataContent, combineRow, hen.2.1]
    rfl

/-- The signal that `dispatch` sends carries the count. -/
theorem Launches.signalValue_eq (hv : c.Sound) (hl : c.Launches w) {r e : ℕ} (hr : r < c.numRanks)
    (hkind : (c.calls (w.call r)).kind = .dispatch) (he : e < c.numExperts)
    (hsig : (w.disp (r, w.call r)).signal e ≠ .waiting) :
    (w.disp (r, w.call r)).signalValue e = c.signalValue (w.call r) r e := by
  have hacc := Dispatch.accounting_of_runs (hv.fits (hl.hasCall r hr) hr)
    (hl.disp r hr _ le_rfl hkind)
  have hcount := hacc.counted e he (hacc.polled e he hsig).2.1
  simp only [Dispatch.State.signalValue, hcount, signalValue, hkind]

/-- A signal goes to the rank of its expert. -/
theorem fire_signal (hv : c.Sound) (hl : c.Launches w) (hen : c.enabled w a) {r e : ℕ}
    (hreq : a.request = some (r, .signal e)) :
    c.fire w a =
      { c.signal w r (e / c.numLocalExperts) (c.ctx e) e
          (c.fabric.recvSignal (c.calls (w.call r)).buf r (c.sendCell (w.call r) r e))
          (c.signalValue (w.call r) r e) with
        disp := (c.fire w a).disp, comb := (c.fire w a).comb } := by
  cases Action.request_signal_iff.mp hreq with
  | inl ha =>
    subst ha
    obtain ⟨hr, hkind, ha, -⟩ := hen
    rw [← hl.signalValue_eq hv hr hkind ha.1 (by rw [ha.2]; decide)]
    simp only [sendCell, hkind]
    rfl
  | inr ha =>
    subst ha
    simp only [sendCell, signalValue, hen.2.1]
    rfl

/-- An entry of `next_clean_buffer` is zeroed. -/
theorem fire_cleaned {r i : ℕ} (hclean : a.cleaned = some (r, i)) :
    c.fire w a = { c.clean w r i with disp := (c.fire w a).disp, comb := (c.fire w a).comb } := by
  cases Action.cleaned_iff.mp hclean with
  | inl ha =>
    subst ha
    rfl
  | inr ha =>
    subst ha
    rfl

/-- Everything else leaves queues, signals and receive data alone. -/
theorem fire_quiet (hreq : a.request = none) (hclean : a.cleaned = none)
    (hdeliver : ∀ r ctx, a ≠ .deliver r ctx) :
    (c.fire w a).nic = w.nic ∧ (c.fire w a).sig = w.sig ∧ (c.fire w a).sigFrom = w.sigFrom ∧
      (c.fire w a).data = w.data ∧ (c.fire w a).dataFrom = w.dataFrom := by
  cases a with
  | dispatch r a =>
    cases a with
    | send t w => cases hreq
    | signal e => cases hreq
    | clean i => cases hclean
    | _ => exact ⟨rfl, rfl, rfl, rfl, rfl⟩
  | combine r a =>
    cases a with
    | sendRow e k => cases hreq
    | signal e => cases hreq
    | clean i => cases hclean
    | _ => exact ⟨rfl, rfl, rfl, rfl, rfl⟩
  | deliver r ctx => exact absurd rfl (hdeliver r ctx)
  | advance r => exact ⟨rfl, rfl, rfl, rfl, rfl⟩

/-- The network card takes the oldest work request out of the queue and executes it. -/
theorem fire_deliver_cons {r ctx : ℕ} {x : Wqe} {rest : List Wqe}
    (hq : w.nic (r, ctx) = x :: rest) :
    c.fire w (.deliver r ctx) =
      { w.execute x with nic := Function.update (w.execute x).nic (r, ctx) rest } := by
  simp only [fire, hq]

/-! ### What has been issued -/

/-- A launch that does not run changes in its workspace and active ranks only. -/
theorem disp_fire_of_ne (a : Action) {r m : ℕ} (hne : ∀ b, a = .dispatch r b → m ≠ w.call r) :
    ∃ ws activeRanks, (c.fire w a).disp (r, m) =
      { w.disp (r, m) with ws := ws, activeRanks := activeRanks } := by
  rw [disp_fire]
  cases a with
  | dispatch r' b =>
    have hpair : (r, m) ≠ (r', w.call r') := by
      rintro heq
      cases heq
      exact hne b rfl rfl
    exact ⟨_, _, Function.update_of_ne hpair ..⟩
  | advance r' =>
    by_cases hpair : (r, m) = (r', w.call r' + 1)
    · rw [hpair]
      exact ⟨_, _, Function.update_self ..⟩
    · exact ⟨_, _, Function.update_of_ne hpair ..⟩
  | _ => exact ⟨_, _, rfl⟩

/-- A launch that does not run changes in its workspace and active ranks only. -/
theorem comb_fire_of_ne (a : Action) {r m : ℕ} (hne : ∀ b, a = .combine r b → m ≠ w.call r) :
    ∃ ws activeRanks, (c.fire w a).comb (r, m) =
      { w.comb (r, m) with ws := ws, activeRanks := activeRanks } := by
  rw [comb_fire]
  cases a with
  | combine r' b =>
    have hpair : (r, m) ≠ (r', w.call r') := by
      rintro heq
      cases heq
      exact hne b rfl rfl
    exact ⟨_, _, Function.update_of_ne hpair ..⟩
  | advance r' =>
    by_cases hpair : (r, m) = (r', w.call r' + 1)
    · rw [hpair]
      exact ⟨_, _, Function.update_self ..⟩
    · exact ⟨_, _, Function.update_of_ne hpair ..⟩
  | _ => exact ⟨_, _, rfl⟩

/-- A launch that does not run keeps its program counters. -/
theorem disp_pc_fire (a : Action) {r m : ℕ} (hne : ∀ b, a = .dispatch r b → m ≠ w.call r) :
    ((c.fire w a).disp (r, m)).token = (w.disp (r, m)).token ∧
      ((c.fire w a).disp (r, m)).slot = (w.disp (r, m)).slot ∧
      ((c.fire w a).disp (r, m)).signal = (w.disp (r, m)).signal ∧
      ((c.fire w a).disp (r, m)).cleaned = (w.disp (r, m)).cleaned ∧
      ((c.fire w a).disp (r, m)).recv = (w.disp (r, m)).recv := by
  obtain ⟨ws, activeRanks, heq⟩ := disp_fire_of_ne a hne
  rw [heq]
  exact ⟨rfl, rfl, rfl, rfl, rfl⟩

/-- A launch that does not run keeps its program counters. -/
theorem comb_pc_fire (a : Action) {r m : ℕ} (hne : ∀ b, a = .combine r b → m ≠ w.call r) :
    ((c.fire w a).comb (r, m)).row = (w.comb (r, m)).row ∧
      ((c.fire w a).comb (r, m)).signal = (w.comb (r, m)).signal ∧
      ((c.fire w a).comb (r, m)).cleaned = (w.comb (r, m)).cleaned ∧
      ((c.fire w a).comb (r, m)).recv = (w.comb (r, m)).recv := by
  obtain ⟨ws, activeRanks, heq⟩ := comb_fire_of_ne a hne
  rw [heq]
  exact ⟨rfl, rfl, rfl, rfl⟩

/-- A kernel that runs moves as its machine does. -/
theorem disp_fire_self (r : ℕ) (b : Dispatch.Action) :
    (c.fire w (.dispatch r b)).disp (r, w.call r) =
      Dispatch.fire (c.launch r (w.call r)) (w.disp (r, w.call r)) b := by
  rw [disp_fire]
  exact Function.update_self ..

/-- A step of `combine` is a step of its kernel. -/
theorem comb_fire_self (r : ℕ) (b : Combine.Action) :
    (c.fire w (.combine r b)).comb (r, w.call r) =
      Combine.fire (c.combineLaunch w r (w.call r)) (w.comb (r, w.call r)) b := by
  rw [comb_fire]
  exact Function.update_self ..

/-- A step that is none of the kernel of a `dispatch` is no step for that call. -/
theorem not_step_dispatch (hen : c.enabled w a) {m r : ℕ} (hkind : (c.calls m).kind = .dispatch)
    (hrun : ¬∃ b, a = .dispatch r b ∧ m = w.call r) {b : Dispatch.Action} {b' : Combine.Action} :
    ¬((a = .dispatch r b ∨ a = .combine r b') ∧ m = w.call r) := by
  rintro ⟨rfl | rfl, rfl⟩
  · exact hrun ⟨_, rfl, rfl⟩
  · exact absurd (hkind.symm.trans hen.2.1) (by decide)

/-- A step that is none of the kernel of a `combine` is no step for that call. -/
theorem not_step_combine (hen : c.enabled w a) {m r : ℕ} (hkind : (c.calls m).kind = .combine)
    (hrun : ¬∃ b, a = .combine r b ∧ m = w.call r) {b : Dispatch.Action} {b' : Combine.Action} :
    ¬((a = .dispatch r b ∨ a = .combine r b') ∧ m = w.call r) := by
  rintro ⟨rfl | rfl, rfl⟩
  · exact absurd (hkind.symm.trans hen.2.1) (by decide)
  · exact hrun ⟨_, rfl, rfl⟩

/-- A signal is issued by its request. -/
theorem signalSent_fire (hen : c.enabled w a) (m r e : ℕ) :
    c.SignalSent (c.fire w a) m r e ↔
      c.SignalSent w m r e ∨ a.request = some (r, .signal e) ∧ m = w.call r := by
  rw [Action.request_signal_iff]
  unfold SignalSent
  -- Only the kernel of the call that the rank is in can change whether it has signalled.
  cases hkind : (c.calls m).kind with
  | dispatch =>
    by_cases hrun : ∃ b, a = .dispatch r b ∧ m = w.call r
    · obtain ⟨b, rfl, rfl⟩ := hrun
      rw [disp_fire_self, Dispatch.signal_isSent_fire hen.2.2.1]
      simp
    · rw [(disp_pc_fire a fun b hb hm => hrun ⟨b, hb, hm⟩).2.2.1]
      exact (or_iff_left (not_step_dispatch hen hkind hrun)).symm
  | combine =>
    by_cases hrun : ∃ b, a = .combine r b ∧ m = w.call r
    · obtain ⟨b, rfl, rfl⟩ := hrun
      rw [comb_fire_self, Combine.signal_isSent_fire hen.2.2.1]
      simp
    · rw [(comb_pc_fire a fun b hb hm => hrun ⟨b, hb, hm⟩).2.1]
      exact (or_iff_left (not_step_combine hen hkind hrun)).symm

/-- A message is issued by its request. -/
theorem dataSent_fire (hen : c.enabled w a) (m r : ℕ) (key : ℕ × ℕ) :
    c.DataSent (c.fire w a) m r key ↔
      c.DataSent w m r key ∨ a.request = some (r, .data key) ∧ m = w.call r := by
  rw [Action.request_data_iff]
  unfold DataSent
  -- As for the signals, with the tokens of a dispatch and the rows of a combine.
  cases hkind : (c.calls m).kind with
  | dispatch =>
    by_cases hrun : ∃ b, a = .dispatch r b ∧ m = w.call r
    · obtain ⟨b, rfl, rfl⟩ := hrun
      rw [disp_fire_self, Dispatch.isSent_fire hen.2.2.1]
      simp
    · rw [(disp_pc_fire a fun b hb hm => hrun ⟨b, hb, hm⟩).1]
      exact (or_iff_left (not_step_dispatch hen hkind hrun)).symm
  | combine =>
    by_cases hrun : ∃ b, a = .combine r b ∧ m = w.call r
    · obtain ⟨b, rfl, rfl⟩ := hrun
      rw [comb_fire_self, Combine.row_sent_fire hen.2.2.1]
      simp
    · rw [(comb_pc_fire a fun b hb hm => hrun ⟨b, hb, hm⟩).1]
      exact (or_iff_left (not_step_combine hen hkind hrun)).symm

/-- An entry is cleaned by the cleaning warp. -/
theorem cleaned_fire (hen : c.enabled w a) (m r i : ℕ) :
    c.Cleaned (c.fire w a) m r i ↔
      c.Cleaned w m r i ∨ a.cleaned = some (r, i) ∧ m = w.call r := by
  rw [Action.cleaned_iff]
  unfold Cleaned
  -- As for the requests, with the cleaning loop in place of the sends.
  cases hkind : (c.calls m).kind with
  | dispatch =>
    by_cases hrun : ∃ b, a = .dispatch r b ∧ m = w.call r
    · obtain ⟨b, rfl, rfl⟩ := hrun
      rw [disp_fire_self, Dispatch.cleaned_fire]
      simp
    · rw [(disp_pc_fire a fun b hb hm => hrun ⟨b, hb, hm⟩).2.2.2.1]
      exact (or_iff_left (not_step_dispatch hen hkind hrun)).symm
  | combine =>
    by_cases hrun : ∃ b, a = .combine r b ∧ m = w.call r
    · obtain ⟨b, rfl, rfl⟩ := hrun
      rw [comb_fire_self, Combine.cleaned_fire]
      simp
    · rw [(comb_pc_fire a fun b hb hm => hrun ⟨b, hb, hm⟩).2.2.1]
      exact (or_iff_left (not_step_combine hen hkind hrun)).symm

/-- A signal wait ends when it acquires the signal. -/
theorem taken_fire (hv : c.Valid) (hl : c.Launches w) (hen : c.enabled w a) (m r e : ℕ) :
    c.Taken (c.fire w a) m r e ↔
      c.Taken w m r e ∨ (∃ v, a.acquired = some (r, e, v)) ∧ m = w.call r := by
  simp only [Action.acquired_iff]
  unfold Taken
  -- The wait is over exactly if the kernel has taken the word, since no timeout is set.
  cases hkind : (c.calls m).kind with
  | dispatch =>
    by_cases hrun : ∃ b, a = .dispatch r b ∧ m = w.call r
    · obtain ⟨b, rfl, rfl⟩ := hrun
      have hactive := (hl.active hv r hen.1 _ le_rfl).1 hkind
      rw [disp_fire_self, Dispatch.recv_hasCount_fire hactive hen.2.2.1]
      simp
    · rw [(disp_pc_fire a fun b hb hm => hrun ⟨b, hb, hm⟩).2.2.2.2]
      refine (or_iff_left ?_).symm
      rintro ⟨⟨v, hacq⟩, hm⟩
      exact not_step_dispatch hen hkind hrun ⟨hacq, hm⟩
  | combine =>
    by_cases hrun : ∃ b, a = .combine r b ∧ m = w.call r
    · obtain ⟨b, rfl, rfl⟩ := hrun
      have hactive := (hl.active hv r hen.1 _ le_rfl).2 hkind
      rw [comb_fire_self, Combine.recv_passed_fire hactive hen.2.2.1]
      simp
    · rw [(comb_pc_fire a fun b hb hm => hrun ⟨b, hb, hm⟩).2.2.2]
      refine (or_iff_left ?_).symm
      rintro ⟨⟨v, hacq⟩, hm⟩
      exact not_step_combine hen hkind hrun ⟨hacq, hm⟩

/-! ### What a kernel guarantees about its requests -/

/-- A signal that has been issued was issued by a call that has started, after the array was
cleaned and after every message to its expert. -/
theorem Launches.of_signalSent (hv : c.Sound) (hl : c.Launches w) {m r e : ℕ} (hr : r < c.numRanks)
    (he : e < c.numExperts) (hsent : c.SignalSent w m r e) :
    m ≤ w.call r ∧ (∀ i < c.numExperts, c.Cleaned w m r i) ∧
      ∀ key, c.Task w m r key → c.dataExpert m r key = e → c.DataSent w m r key := by
  -- A later call has not started, so it cannot have signalled.
  have hle : m ≤ w.call r := by
    by_contra hlt
    obtain ⟨hdisp, hcomb⟩ := hl.future r hr m (by omega)
    unfold SignalSent at hsent
    cases hkind : (c.calls m).kind <;> simp only [hkind] at hsent
    · rw [hdisp.signal] at hsent
      cases hsent
    · rw [hcomb.signal] at hsent
      cases hsent
  have hcall := (hl.hasCall r hr).of_le hle
  refine ⟨hle, ?_⟩
  unfold SignalSent at hsent
  unfold Cleaned Task DataSent
  cases hkind : (c.calls m).kind with
  | dispatch =>
    -- In dispatch the signal waits for all tokens of its expert and for the cleaning.
    simp only [hkind] at hsent
    have hacc := Dispatch.accounting_of_runs (hv.fits hcall hr) (hl.disp r hr m hle hkind)
    have hne : (w.disp (r, m)).signal e ≠ .waiting := by
      intro hw
      rw [hw] at hsent
      cases hsent
    obtain ⟨htag, -, hall⟩ := hacc.polled e he hne
    refine ⟨hacc.tagged e he htag, fun key hkey hexp => ?_⟩
    rw [hexp] at hkey
    rw [hall key hkey]
    rfl
  | combine =>
    -- In combine it comes after the rows of its expert and after the flag.
    simp only [hkind] at hsent
    have hrun := hl.comb r hr m hle hkind
    have hgate := Combine.gate_of_runs hrun
    have hprog := Combine.order_of_runs hrun
    have hne : (w.comb (r, m)).signal e ≠ .waiting := by
      intro hw
      rw [hw] at hsent
      cases hsent
    refine ⟨hgate.cleaned (hgate.published_of_signal he hne), fun key hkey hexp => ?_⟩
    have hexp' : key.1 = e := by simpa only [dataExpert, hkind] using hexp
    have hrow := (hprog.rowsSent e hne).1 key.2 (hexp' ▸ hkey.2)
    rwa [← hexp'] at hrow

/-- A message is issued once, by a launch that has it, before the signal to its expert. -/
theorem Launches.of_request_data (hv : c.Sound) (hl : c.Launches w) (hen : c.enabled w a) {r : ℕ}
    {key : ℕ × ℕ} (hreq : a.request = some (r, .data key)) :
    r < c.numRanks ∧ c.Task w (w.call r) r key ∧ ¬c.DataSent w (w.call r) r key ∧
      c.dataExpert (w.call r) r key < c.numExperts := by
  -- A message is requested by a warp with a reserved slot, or by a warp with a staged row.
  cases Action.request_data_iff.mp hreq with
  | inl ha =>
    subst ha
    obtain ⟨hr, hkind, ⟨ht, hw, hpc⟩, -⟩ := hen
    have hfit := hv.fits (hl.hasCall r hr) hr
    have hacc := Dispatch.accounting_of_runs hfit (hl.disp r hr _ le_rfl hkind)
    have hdst := hacc.inRange key.1 key.2 (by rw [hpc]; rfl)
    simp only [Task, DataSent, dataExpert, hkind]
    exact ⟨hr, (Dispatch.mem_tasks_iff ht hw hdst).mpr rfl,
      by rw [show (w.disp (r, w.call r)).token key = .reserved from hpc]; decide,
      hfit.dst_lt ht hdst⟩
  | inr ha =>
    subst ha
    obtain ⟨hr, hkind, ⟨he, hk, hpc, -⟩, -⟩ := hen
    simp only [Task, DataSent, dataExpert, hkind]
    refine ⟨hr, ⟨he, hk⟩, fun hsent => ?_, he⟩
    rw [show (w.comb (r, w.call r)).row key = _ from hpc] at hsent
    split at hsent <;> cases hsent

/-- A signal is issued once, to an existing expert. -/
theorem of_request_signal (hen : c.enabled w a) {r e : ℕ} (hreq : a.request = some (r, .signal e)) :
    r < c.numRanks ∧ e < c.numExperts ∧ ¬c.SignalSent w (w.call r) r e := by
  cases Action.request_signal_iff.mp hreq with
  | inl ha =>
    subst ha
    obtain ⟨hr, hkind, ⟨he, hpc⟩, -⟩ := hen
    simp only [SignalSent, hkind, hpc]
    exact ⟨hr, he, by decide⟩
  | inr ha =>
    subst ha
    obtain ⟨hr, hkind, ⟨he, hpc⟩, -⟩ := hen
    simp only [SignalSent, hkind, hpc]
    exact ⟨hr, he, by decide⟩

/-- When a message is issued, the signal to its expert has not been. -/
theorem Launches.not_signalSent (hv : c.Sound) (hl : c.Launches w) (hen : c.enabled w a) {r : ℕ}
    {key : ℕ × ℕ} (hreq : a.request = some (r, .data key)) :
    ¬c.SignalSent w (w.call r) r (c.dataExpert (w.call r) r key) := by
  obtain ⟨hr, htask, hnot, he⟩ := hl.of_request_data hv hen hreq
  exact fun hsent => hnot ((hl.of_signalSent hv hr he hsent).2.2 key htask rfl)

end

end Config

end EpDemo.System
