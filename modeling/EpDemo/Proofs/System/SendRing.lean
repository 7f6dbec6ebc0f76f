import EpDemo.Proofs.System.DoubleBuffer
import EpDemo.System.SendRing

/-!
# `EpDemo.Proofs.System.SendRing`: when the send rings are not overrun

No kernel waits for completions, so nothing but the sizes of the calls bounds the number of
outstanding work requests. `numPosts` is the number of work requests that a call posts to a
queue pair, one for each message and one for each signal that goes through it, and `numLeft`
the number of those that it has not posted yet. If there is room for all of them when the call
starts, there is room for each of them when it is posted, however late the network card is:
`outstanding + numLeft` never grows while the call runs.
-/

set_option autoImplicit false

namespace EpDemo.System.Config

open EpDemo.Kernel EpDemo.Library

variable {A : Type}

/-! ### What a call posts -/

/-- Expert `e` is reached through queue pair `ctx` of rank `r`. -/
def Via (c : Config A) (r ctx e : ℕ) : Prop :=
  c.fabric.path r (e / c.numLocalExperts) = .rdma ∧ c.ctx e = ctx

instance (c : Config A) (r ctx e : ℕ) : Decidable (c.Via r ctx e) :=
  inferInstanceAs (Decidable (_ ∧ _))

/-- The messages of call `m` of rank `r`: its sends, or its rows. -/
def messages (c : Config A) (w : World A) (m r : ℕ) : Finset (ℕ × ℕ) :=
  match (c.calls m).kind with
  | .dispatch => (Finset.range (c.launch r m).numTokens ×ˢ Finset.range numTokenWarps).filter
      fun p => 0 ≤ (c.launch r m).dstExpertIdx p.1 p.2
  | .combine => (Finset.range c.numExperts).biUnion fun e =>
      (Finset.range ((c.combineLaunch w r m).numRows e)).image (Prod.mk e)

/-- The work requests that call `m` of rank `r` posts to queue pair `ctx`. -/
def numPosts (c : Config A) (w : World A) (m r ctx : ℕ) : ℕ :=
  ((c.messages w m r).filter fun key => c.Via r ctx (c.dataExpert m r key)).card +
    ((Finset.range c.numExperts).filter fun e => c.Via r ctx e).card

/-- Those of the current call that are not posted yet. -/
def numLeft (c : Config A) (w : World A) (r ctx : ℕ) : ℕ :=
  ((c.messages w (w.call r) r).filter fun key =>
      c.Via r ctx (c.dataExpert (w.call r) r key) ∧ ¬c.DataSent w (w.call r) r key).card +
    ((Finset.range c.numExperts).filter fun e =>
      c.Via r ctx e ∧ ¬c.SignalSent w (w.call r) r e).card

section

variable {c : Config A} {w : World A} {a : Action}

/-- The messages of a `combine`: a group and one of its rows. -/
theorem mem_messages_combine {m r : ℕ} {key : ℕ × ℕ} (hkind : (c.calls m).kind = .combine) :
    key ∈ c.messages w m r ↔
      key.1 < c.numExperts ∧ key.2 < (c.combineLaunch w r m).numRows key.1 := by
  obtain ⟨e, k⟩ := key
  simp only [messages, hkind, Finset.mem_biUnion, Finset.mem_image, Finset.mem_range,
    Prod.mk.injEq]
  constructor
  · rintro ⟨e', he, k', hk, rfl, rfl⟩
    exact ⟨he, hk⟩
  · rintro ⟨he, hk⟩
    exact ⟨e, he, k, hk, rfl, rfl⟩

/-- The messages of a `dispatch`: a token and a warp that has a destination for it. -/
theorem mem_messages_dispatch {m r t warp : ℕ} (hkind : (c.calls m).kind = .dispatch) :
    (t, warp) ∈ c.messages w m r ↔
      (t < (c.launch r m).numTokens ∧ warp < numTokenWarps) ∧
        0 ≤ (c.launch r m).dstExpertIdx t warp := by
  simp [messages, hkind]

/-- A `combine` posts at most its rows and one signal for each expert. -/
theorem numPosts_le_of_combine {m : ℕ} (hkind : (c.calls m).kind = .combine) (r ctx : ℕ) :
    c.numPosts w m r ctx ≤
      (∑ e ∈ Finset.range c.numExperts, (c.combineLaunch w r m).numRows e) + c.numExperts := by
  have hrows : (c.messages w m r).card ≤
      ∑ e ∈ Finset.range c.numExperts, (c.combineLaunch w r m).numRows e := by
    simp only [messages, hkind]
    refine Finset.card_biUnion_le.trans (Finset.sum_le_sum fun e _ => ?_)
    exact Finset.card_image_le.trans (Finset.card_range _).le
  exact Nat.add_le_add ((Finset.card_filter_le _ _).trans hrows)
    ((Finset.card_filter_le _ _).trans (Finset.card_range _).le)

/-- At most everything is left. -/
theorem numLeft_le (w : World A) (r ctx : ℕ) :
    c.numLeft w r ctx ≤ c.numPosts w (w.call r) r ctx := by
  refine Nat.add_le_add (Finset.card_le_card ?_) (Finset.card_le_card ?_)
  · exact Finset.monotone_filter_right _ fun _ _ h => h.1
  · exact Finset.monotone_filter_right _ fun _ _ h => h.1

/-- The messages of a call do not change while it runs. -/
theorem messages_fire (hen : c.enabled w a) {r : ℕ} (hadv : a ≠ .advance r) :
    c.messages (c.fire w a) (w.call r) r = c.messages w (w.call r) r := by
  unfold messages
  cases hkind : (c.calls (w.call r)).kind with
  | dispatch => rfl
  | combine =>
    have hlayout : c.layoutRange (c.fire w a) r (w.call r) = c.layoutRange w r (w.call r) := by
      unfold layoutRange
      cases ((c.calls (w.call r)).input r).source with
      | given srcInfo layoutRange => rfl
      | call k =>
        show ((c.fire w a).disp (r, k)).layoutRange = (w.disp (r, k)).layoutRange
        rw [disp_fire]
        cases a with
        | dispatch r' b =>
          -- Rank `r` runs a `combine`, so another rank moves.
          have hne : (r, k) ≠ (r', w.call r') := by
            rintro heq
            cases heq
            exact absurd (hkind.symm.trans hen.2.1) (by decide)
          simp only [Function.update_of_ne hne]
        | advance r' =>
          have hne : (r, k) ≠ (r', w.call r' + 1) := by
            rintro heq
            cases heq
            exact hadv rfl
          simp only [Function.update_of_ne hne]
        | combine r' b => rfl
        | deliver r' ctx => rfl
    simp only [CombineLaunch.numRows, CombineLaunch.layout, combineLaunch, hlayout]

/-- What the next call posts is known before it starts. -/
theorem numPosts_advance (c : Config A) (w : World A) (r ctx : ℕ) :
    c.numPosts (c.fire w (.advance r)) (w.call r + 1) r ctx =
      c.numPosts w (w.call r + 1) r ctx := by
  have hlayout : c.layoutRange (c.fire w (.advance r)) r (w.call r + 1) =
      c.layoutRange w r (w.call r + 1) := by
    unfold layoutRange
    cases ((c.calls (w.call r + 1)).input r).source with
    | given srcInfo layoutRange => rfl
    | call k =>
      show ((c.fire w (.advance r)).disp (r, k)).layoutRange = (w.disp (r, k)).layoutRange
      rw [disp_fire]
      by_cases hk : k = w.call r + 1
      · subst hk
        simp only [Function.update_self]
      · have hne : (r, k) ≠ (r, w.call r + 1) := by simpa using hk
        simp only [Function.update_of_ne hne]
  simp only [numPosts, messages, CombineLaunch.numRows, CombineLaunch.layout, combineLaunch,
    hlayout]

/-- A rank keeps its call, unless it advances. -/
theorem call_fire_of_ne {r : ℕ} (hadv : a ≠ .advance r) : (c.fire w a).call r = w.call r := by
  rw [call_fire]
  cases a with
  | advance r' =>
    have hne : r ≠ r' := by
      rintro rfl
      exact hadv rfl
    exact Function.update_of_ne hne ..
  | _ => rfl

/-! ### What an action posts -/

/-- The queue pair of a request. -/
theorem posts_eq (hen : c.enabled w a) :
    c.posts w a =
      match a.request with
      | some (r, q) =>
        if c.fabric.path r (c.requestExpert (w.call r) r q / c.numLocalExperts) = .rdma then
          some (r, c.ctx (c.requestExpert (w.call r) r q))
        else none
      | none => none := by
  -- Only the four sending actions can post.
  cases a with
  | dispatch r a =>
    cases a with
    | send t warp =>
      simp only [Action.request, requestExpert, dataExpert, hen.2.1]
      rfl
    | signal e => rfl
    | _ => rfl
  | combine r a =>
    cases a with
    | sendRow e k =>
      simp only [Action.request, requestExpert, dataExpert, hen.2.1]
      rfl
    | signal e => rfl
    | _ => rfl
  | deliver r ctx => rfl
  | advance r => rfl

/-- An action that is not one of the network card posts at most one work request. -/
theorem nic_length_fire (hen : c.enabled w a) (hdeliver : ∀ r ctx, a ≠ .deliver r ctx)
    (q : ℕ × ℕ) :
    ((c.fire w a).nic q).length = (w.nic q).length + if c.posts w a = some q then 1 else 0 := by
  -- A queue gets one more element or stays as it is.
  have key : ∀ (cond : Prop) [Decidable cond] (x : Wqe) (q₀ : ℕ × ℕ),
      ((if cond then Function.update w.nic q₀ (w.nic q₀ ++ [x]) else w.nic) q).length =
        (w.nic q).length + if (if cond then some q₀ else none) = some q then 1 else 0 := by
    intro cond _ x q₀
    by_cases hcond : cond
    · by_cases hq : q = q₀
      · simp [hcond, hq]
      · simp [hcond, Function.update_of_ne hq, Ne.symm hq]
    · simp [hcond]
  cases a with
  | dispatch r a =>
    cases a with
    | send t warp =>
      simp only [fire, dispatchEffect, transfer_eq, posts]
      exact key ..
    | signal e =>
      simp only [fire, dispatchEffect, signal_eq, posts]
      exact key ..
    | _ => simp [fire, dispatchEffect, posts, Config.clean]
  | combine r a =>
    cases a with
    | sendRow e k =>
      simp only [fire, combineEffect, transfer_eq, posts]
      exact key ..
    | signal e =>
      simp only [fire, combineEffect, signal_eq, posts]
      exact key ..
    | _ => simp [fire, combineEffect, posts, Config.clean]
  | deliver r ctx => exact absurd rfl (hdeliver r ctx)
  | advance r => simp [fire, posts]

/-- A warp that has a slot has a destination. -/
def Slotted (c : Config A) (w : World A) : Prop :=
  ∀ r m t warp, ((w.disp (r, m)).token (t, warp)).hasSlot = true →
    0 ≤ (c.launch r m).dstExpertIdx t warp

/-- Every step keeps it. A slot is reserved with the destination at hand. -/
theorem Slotted.fire (h : c.Slotted w) (hen : c.enabled w a) : c.Slotted (c.fire w a) := by
  intro r m t warp hslot
  by_cases hrun : ∃ b, a = .dispatch r b ∧ m = w.call r
  · obtain ⟨b, rfl, rfl⟩ := hrun
    rw [disp_fire_self] at hslot
    by_cases hb : b = .reserve t warp
    · subst hb
      exact hen.2.2.1.2.2.2.1
    · rw [(Dispatch.hasSlot_fire hen.2.2.1 hb).1] at hslot
      exact h r _ t warp hslot
  · rw [(disp_pc_fire a fun b hb hm => hrun ⟨b, hb, hm⟩).1] at hslot
    exact h r m t warp hslot

/-- A message is one of the call, and is issued once. -/
theorem Slotted.of_request_data (h : c.Slotted w) (hen : c.enabled w a) {r : ℕ} {key : ℕ × ℕ}
    (hreq : a.request = some (r, .data key)) :
    key ∈ c.messages w (w.call r) r ∧ ¬c.DataSent w (w.call r) r key := by
  cases Action.request_data_iff.mp hreq with
  | inl ha =>
    subst ha
    obtain ⟨-, hkind, ⟨ht, hw, hpc⟩, -⟩ := hen
    have hdst := h r (w.call r) key.1 key.2 (by rw [hpc]; rfl)
    refine ⟨(mem_messages_dispatch hkind).mpr ⟨⟨ht, hw⟩, hdst⟩, ?_⟩
    simp only [DataSent, hkind]
    rw [show (w.disp (r, w.call r)).token key = .reserved from hpc]
    decide
  | inr ha =>
    subst ha
    obtain ⟨-, hkind, ⟨he, hk, hpc, -⟩, -⟩ := hen
    refine ⟨(mem_messages_combine hkind).mpr ⟨he, hk⟩, fun hsent => ?_⟩
    simp only [DataSent, hkind] at hsent
    rw [show (w.comb (r, w.call r)).row key = _ from hpc] at hsent
    split at hsent <;> cases hsent

/-- What is posted is left no more, and nothing else changes what is left. -/
theorem Slotted.numLeft_fire (h : c.Slotted w) (hen : c.enabled w a) {r : ℕ} (ctx : ℕ)
    (hadv : a ≠ .advance r) :
    c.numLeft (c.fire w a) r ctx + (if c.posts w a = some (r, ctx) then 1 else 0) ≤
      c.numLeft w r ctx := by
  -- What is left can only shrink, for messages and for signals.
  unfold numLeft
  rw [call_fire_of_ne hadv, messages_fire hen hadv]
  have hdata : ((c.messages w (w.call r) r).filter fun key =>
      c.Via r ctx (c.dataExpert (w.call r) r key) ∧ ¬c.DataSent (c.fire w a) (w.call r) r key) ⊆
      (c.messages w (w.call r) r).filter fun key =>
        c.Via r ctx (c.dataExpert (w.call r) r key) ∧ ¬c.DataSent w (w.call r) r key :=
    Finset.monotone_filter_right _ fun key _ hk =>
      ⟨hk.1, fun hsent => hk.2 ((dataSent_fire hen ..).mpr (.inl hsent))⟩
  have hsignal : ((Finset.range c.numExperts).filter fun e =>
      c.Via r ctx e ∧ ¬c.SignalSent (c.fire w a) (w.call r) r e) ⊆
      (Finset.range c.numExperts).filter fun e =>
        c.Via r ctx e ∧ ¬c.SignalSent w (w.call r) r e :=
    Finset.monotone_filter_right _ fun e _ he =>
      ⟨he.1, fun hsent => he.2 ((signalSent_fire hen ..).mpr (.inl hsent))⟩
  -- A step that posts to this queue takes away one of them.
  by_cases hposts : c.posts w a = some (r, ctx)
  · rw [if_pos hposts]
    rw [posts_eq hen] at hposts
    cases hreq : a.request with
    | none => simp [hreq] at hposts
    | some y =>
      obtain ⟨r', q⟩ := y
      simp only [hreq] at hposts
      split at hposts
      · rename_i hpath
        obtain ⟨rfl, hctx⟩ := Prod.mk.inj (Option.some.inj hposts)
        cases q with
        | data key =>
          -- A message that was left is now sent.
          obtain ⟨hmem, hnot⟩ := h.of_request_data hen hreq
          have hlt := Finset.card_lt_card (Finset.ssubset_iff_of_subset hdata |>.mpr
            ⟨key, Finset.mem_filter.mpr ⟨hmem, ⟨hpath, hctx⟩, hnot⟩, fun hk =>
              (Finset.mem_filter.mp hk).2.2 ((dataSent_fire hen ..).mpr (.inr ⟨hreq, rfl⟩))⟩)
          have := Finset.card_le_card hsignal
          omega
        | signal e =>
          -- Or a signal that was left is now sent.
          obtain ⟨-, he, hnot⟩ := of_request_signal hen hreq
          have hlt := Finset.card_lt_card (Finset.ssubset_iff_of_subset hsignal |>.mpr
            ⟨e, Finset.mem_filter.mpr ⟨Finset.mem_range.mpr he, ⟨hpath, hctx⟩, hnot⟩, fun hk =>
              (Finset.mem_filter.mp hk).2.2 ((signalSent_fire hen ..).mpr (.inr ⟨hreq, rfl⟩))⟩)
          have := Finset.card_le_card hdata
          omega
      · cases hposts
  · rw [if_neg hposts]
    rw [Nat.add_zero]
    exact Nat.add_le_add (Finset.card_le_card hdata) (Finset.card_le_card hsignal)

end

/-! ### The rings -/

/-- What the rings say about the queues: every work request that is not executed is in the ring,
uncompleted. -/
structure Posted (c : Config A) (p : Rings A) : Prop where
  slotted : c.Slotted p.world
  ring : ∀ q, (p.ring q).Consistent 14
  pending : ∀ q, (p.ring q).consumed + (p.world.nic q).length ≤ (p.ring q).written

section

variable {c : Config A} {p : Rings A} {a : RingAction}

/-- New rings have nothing in them, and nothing has been posted. -/
theorem Posted.init (h : c.RingInit p) : c.Posted p where
  slotted r m t warp hslot := by
    rw [(h.world.disp _).token] at hslot
    exact absurd hslot (by decide)
  ring q := by
    rw [h.ring]
    exact Ring.consistent_empty 16 14
  pending q := by
    rw [h.ring, h.world.nic]
    exact le_rfl

/-- The ring of a queue pair after a step of the world. -/
theorem ring_fire (p : Rings A) (b : Action) (q : ℕ × ℕ) :
    (c.ringFire p (.world b)).ring q =
      if c.posts p.world b = some q then (p.ring q).write wqeidMask else p.ring q := by
  cases hposts : c.posts p.world b with
  | none => simp [ringFire, hposts]
  | some q₀ =>
    by_cases hq : q = q₀
    · subst hq
      simp [ringFire, hposts]
    · simp [ringFire, hposts, Function.update_of_ne hq, Ne.symm hq]

/-- Every step keeps rings and queues in step. -/
theorem Posted.fire (h : c.Posted p) (hen : c.ringEnabled p a) : c.Posted (c.ringFire p a) := by
  cases a with
  | complete q₀ =>
    -- A completion frees one entry of its own ring.
    have hen' : (p.ring q₀).consumed + (p.world.nic q₀).length < (p.ring q₀).written := hen
    refine ⟨h.slotted, fun q => ?_, fun q => ?_⟩
    · by_cases hq : q = q₀
      · rw [hq]
        show Ring.Consistent 14 (Function.update p.ring q₀ (p.ring q₀).consume q₀)
        rw [Function.update_self]
        exact (h.ring q₀).consume (by unfold Ring.outstanding; omega)
      · show Ring.Consistent 14 (Function.update p.ring q₀ (p.ring q₀).consume q)
        rw [Function.update_of_ne hq]
        exact h.ring q
    · -- There is an entry that was posted and has left the queue.
      show (Function.update p.ring q₀ (p.ring q₀).consume q).consumed + (p.world.nic q).length ≤
        (Function.update p.ring q₀ (p.ring q₀).consume q).written
      by_cases hq : q = q₀
      · rw [hq, Function.update_self]
        show (p.ring q₀).consumed + 1 + _ ≤ (p.ring q₀).written
        omega
      · rw [Function.update_of_ne hq]
        exact h.pending q
  | world b =>
    -- The step of a kernel or of the network.
    refine ⟨h.slotted.fire hen, fun q => ?_, fun q => ?_⟩
    · rw [ring_fire]
      split
      · exact (h.ring q).write (by decide)
      · exact h.ring q
    · have hpend := h.pending q
      rw [ring_fire]
      show _ + ((c.fire p.world b).nic q).length ≤ _
      -- A delivery takes one element from a queue and posts nothing.
      by_cases hdel : ∃ r ctx, b = .deliver r ctx
      · obtain ⟨r, ctx, rfl⟩ := hdel
        rw [if_neg (by simp [posts])]
        have hle : ((c.fire p.world (.deliver r ctx)).nic q).length ≤ (p.world.nic q).length := by
          cases hnic : p.world.nic (r, ctx) with
          | nil => simp [Config.fire, hnic]
          | cons x rest =>
            have hsame : (p.world.execute x).nic = p.world.nic := by cases x <;> rfl
            by_cases hq : q = (r, ctx)
            · subst hq
              simp [Config.fire, hnic]
            · simp [Config.fire, hnic, Function.update_of_ne hq, hsame]
        omega
      · -- Any other step adds at most one element, together with one entry of the ring.
        push Not at hdel
        have hlen := nic_length_fire (q := q) hen hdel
        split at hlen
        · rename_i hposts
          rw [if_pos hposts]
          show (p.ring q).consumed + _ ≤ (p.ring q).written + 1
          omega
        · rename_i hposts
          rw [if_neg hposts]
          omega

/-- The rings agree with the queues in every run. -/
theorem posted_of_reachable (h : c.ringSystem.Reachable p) : c.Posted p := by
  refine h.invariant (I := c.Posted) (fun q hq => .init hq) ?_
  rintro q b q' - hq ⟨hen, rfl⟩
  exact hq.fire hen

end

/-! ### Calls that start when there is room for them -/

/-- When a rank starts a call, the uncompleted work requests of each of its queue pairs and
those that the call will post to it fit into the ring. -/
def HasRoom (c : Config A) (p : Rings A) : RingAction → Prop
  | .world (.advance r) => ∀ ctx, (p.ring (r, ctx)).outstanding +
      c.numPosts p.world (p.world.call r + 1) r ctx ≤ numWqebb
  | _ => True

/-- The runs in which every call starts when there is room for it. -/
def pacedSystem (c : Config A) : TransitionSystem (Rings A) RingAction where
  init p := c.RingInit p ∧ ∀ r ctx, c.numPosts p.world 0 r ctx ≤ numWqebb
  step := (c.ringSystem.restrict c.HasRoom).step

section

variable {c : Config A} {p : Rings A}

/-- Runs in which no post waits for a slot are runs of the system with rings. -/
theorem ringSystem_of_paced (h : c.pacedSystem.Reachable p) : c.ringSystem.Reachable p :=
  h.mono (T := c.pacedSystem) (U := c.ringSystem) (fun _ hs => hs.1) fun _ _ _ _ hstep => hstep.2

/-- There is room for everything that is left to post. -/
theorem room_of_paced (h : c.pacedSystem.Reachable p) (r ctx : ℕ) :
    (p.ring (r, ctx)).outstanding + c.numLeft p.world r ctx ≤ numWqebb := by
  refine h.invariant (I := fun p => ∀ r ctx,
    (p.ring (r, ctx)).outstanding + c.numLeft p.world r ctx ≤ numWqebb) ?_ ?_ r ctx
  · intro q hq r ctx
    have hle := c.numLeft_le q.world r ctx
    rw [hq.1.world.call] at hle
    rw [hq.1.ring]
    exact (Nat.zero_add _).trans_le (hle.trans (hq.2 r ctx))
  · rintro q a q' hreach hold ⟨hroom, hen, rfl⟩ r ctx
    replace hen : c.ringEnabled q a := hen
    show ((c.ringFire q a).ring (r, ctx)).outstanding +
      c.numLeft (c.ringFire q a).world r ctx ≤ numWqebb
    have hposted := posted_of_reachable (ringSystem_of_paced hreach)
    cases a with
    | complete q₀ =>
      have hle : ((c.ringFire q (.complete q₀)).ring (r, ctx)).outstanding ≤
          (q.ring (r, ctx)).outstanding := by
        show (Function.update q.ring q₀ (q.ring q₀).consume (r, ctx)).outstanding ≤ _
        by_cases hq : (r, ctx) = q₀
        · rw [hq, Function.update_self]
          show (q.ring q₀).written - ((q.ring q₀).consumed + 1) ≤ _
          unfold Ring.outstanding
          omega
        · rw [Function.update_of_ne hq]
      exact (Nat.add_le_add_right hle _).trans (hold r ctx)
    | world b =>
      rw [ring_fire]
      by_cases hadv : b = .advance r
      · -- The call starts: everything is left, and there is room for it.
        subst hadv
        have hle := c.numLeft_le (c.fire q.world (.advance r)) r ctx
        have hcall : (c.fire q.world (.advance r)).call r = q.world.call r + 1 := by
          rw [call_fire]
          exact Function.update_self ..
        rw [hcall, numPosts_advance] at hle
        rw [if_neg (by simp [posts])]
        exact (Nat.add_le_add_left hle _).trans (hroom ctx)
      · have hleft := hposted.slotted.numLeft_fire hen ctx hadv
        have hpend := hold r ctx
        have hring := (hposted.ring (r, ctx)).consumed_le
        show _ + c.numLeft (c.fire q.world b) r ctx ≤ _
        split at hleft
        · rename_i hposts
          rw [if_pos hposts]
          unfold Ring.outstanding at hpend ⊢
          show (q.ring (r, ctx)).written + 1 - (q.ring (r, ctx)).consumed + _ ≤ _
          omega
        · rename_i hposts
          rw [if_neg hposts]
          omega

/-- A posted work request is one of those that are left. -/
theorem numLeft_pos (h : c.Posted p) {a : Action} (hen : c.enabled p.world a) {r ctx : ℕ}
    (hposts : c.posts p.world a = some (r, ctx)) : 0 < c.numLeft p.world r ctx := by
  have hadv : a ≠ .advance r := by
    rintro rfl
    cases hposts
  have hleft := h.slotted.numLeft_fire hen ctx hadv
  rw [if_pos hposts] at hleft
  omega

end

/-- No ring is overrun in a run in which every call starts when the ring has room for what it
posts, for any routing, any number of calls and however late the network card completes. -/
theorem ring_never_overrun (c : Config A) (p : Rings A) (hp : c.pacedSystem.Reachable p) :
    c.NoOverrun p := by
  rintro a hen ⟨r, ctx⟩ hposts
  have hposted := posted_of_reachable (ringSystem_of_paced hp)
  have hroom := room_of_paced hp r ctx
  have hpos := numLeft_pos hposted hen hposts
  have hlt : (p.ring (r, ctx)).outstanding < numWqebb := by omega
  exact ⟨((hposted.ring (r, ctx)).free_iff (by decide)).mpr hlt, hlt⟩

/-! ### Rows for one peer -/

/-- A `combine` of two ranks with an expert each: `n` tokens of rank 1 went to both experts, and
rank 0 owes rank 1 their rows. -/
def oneWay (n : ℕ) : Config ℕ where
  numRanks := 2
  numExperts := 2
  numMaxDispatchTokensPerRank := n
  maxQpCount := 256
  shape := { hidden := 2048, useFp8 := false }
  fabric :=
    { nvlinkAvailable := fun _ _ => false
      ipcPeerPtrs := fun _ d => Fabric.mxaBuffer d
      raddrArray := fun _ d => Fabric.mxaBuffer d
      buffers := fun _ => ⟨0, 0, 0, 0⟩ }
  length := some 1
  calls _ :=
    { kind := .combine
      fused := true
      buf := 0
      clean := 1
      input := fun r =>
        { numTokens := if r = 1 then n else 0
          numTopk := 2
          topkIdx := fun i => (i % 2 : ℕ)
          timeoutTicks := -1
          packed := fun _ _ => 0
          x := fun _ _ => 5
          topkWeights := fun _ => 2
          zeroCopy := true
          source := .given (fun row => row) fun i => pack2 (if i = 1 then n else 0) 0 } }
  zero := 0
  mulAdd acc y weight := acc + y.toNat * weight.toNat
  round acc := BitVec.ofNat 32 acc

/-- A state before the call. -/
def newRings : Rings ℕ := { world := blank, ring := fun _ => .empty 16 }

/-- The new rings are those of a state before the call. -/
theorem newRings_init (n : ℕ) : (oneWay n).RingInit newRings where
  world := init_blank rfl
  ring _ := rfl

/-- Rank 1 gets its `n` rows, and there are no others. -/
theorem oneWay_numRows {n : ℕ} (hn : n < 2 ^ 31) (w : World ℕ) (r m e : ℕ) :
    ((oneWay n).combineLaunch w r m).numRows e = if e = 1 then n else 0 := by
  have hlayout : ((oneWay n).combineLaunch w r m).layout e =
      unpack2 (pack2 (if e = 1 then (n : ℤ) else 0) 0) := by
    simp [CombineLaunch.layout, combineLaunch, layoutRange, launch, Launch.numLocalExperts, oneWay,
      Nat.mod_one]
  rw [CombineLaunch.numRows, hlayout]
  by_cases he : e = 1
  · rw [if_pos he, if_pos he, unpack2_pack2 (toInt32_natCast hn) rfl]
    exact Int.toNat_natCast n
  · rw [if_neg he, if_neg he, unpack2_pack2 rfl rfl]
    rfl

/-- The first row is posted, and the network card has not executed it. -/
theorem ring_never_overrun_threeRows :
    (oneWay 3).NoOverrun ((oneWay 3).ringFire newRings (.world (.combine 0 (.sendRow 1 0)))) := by
  have hposts : ∀ r ctx, (oneWay 3).numPosts newRings.world 0 r ctx ≤ numWqebb := by
    intro r ctx
    have hle := numPosts_le_of_combine (c := oneWay 3) (w := newRings.world) (m := 0) rfl r ctx
    simp only [oneWay_numRows (n := 3) (by decide)] at hle
    exact hle.trans (by decide)
  have hinit : (oneWay 3).pacedSystem.Reachable newRings := .init ⟨newRings_init 3, hposts⟩
  have hen : (oneWay 3).ringEnabled newRings (.world (.combine 0 (.sendRow 1 0))) := by decide
  have hstep : (oneWay 3).pacedSystem.step newRings (.world (.combine 0 (.sendRow 1 0))) _ :=
    ⟨trivial, hen, rfl⟩
  exact ring_never_overrun _ _ (.step hinit hstep)

/-- Each row is posted on the same queue pair. -/
theorem oneWay_posts (N : ℕ) (w : World ℕ) (k : ℕ) :
    (oneWay N).posts w (.combine 0 (.sendRow 1 k)) = some (0, 128) := by
  simp [posts, oneWay, numLocalExperts, Fabric.path, combineDataCtx, ctxIndex, numQpPerRank]

/-- The next row of rank 0 can be posted. -/
theorem oneWay_enabled {N n : ℕ} (hN : N < 2 ^ 31) (hn : n < N) {w : World ℕ} (hcall : w.call 0 = 0)
    (hrow : ∀ k, (w.comb (0, 0)).row (1, k) = if k < n then .sent else .idle) :
    (oneWay N).enabled w (.combine 0 (.sendRow 1 n)) := by
  refine ⟨(by decide : 0 < 2), rfl, ⟨(by decide : 1 < 2), ?_, ?_, fun _ => ?_, fun he => ?_⟩, ?_⟩
  · rw [oneWay_numRows hN]
    simpa using hn
  · rw [hcall, hrow n]
    simp [CombineLaunch.staged, combineLaunch, oneWay]
  · have hprev : n - kNumWarpsPerGroup < n := by
      simp only [kNumWarpsPerGroup] at *
      omega
    rw [hcall, hrow, if_pos hprev]
  · exact absurd he (by decide)
  · intro x hx
    cases hx

/-- Rank 0 posts its rows one after the other, and the network card is late. -/
theorem oneWay_posted {N : ℕ} (hN : N < 2 ^ 31) {n : ℕ} (hn : n ≤ N) :
    ∃ p, (oneWay N).ringSystem.Reachable p ∧ p.world.call 0 = 0 ∧
      (∀ k, (p.world.comb (0, 0)).row (1, k) = if k < n then .sent else .idle) ∧
      (p.ring (0, 128)).outstanding = n := by
  -- By induction on the number of rows. The network delivers nothing on the way.
  induction n with
  | zero => exact ⟨newRings, .init (newRings_init N), rfl, fun _ => rfl, rfl⟩
  | succ n ih =>
    obtain ⟨p, hp, hcall, hrow, hout⟩ := ih (by omega)
    have hen := oneWay_enabled hN hn hcall hrow
    have hstep : (oneWay N).ringSystem.step p (.world (.combine 0 (.sendRow 1 n)))
        ((oneWay N).ringFire p (.world (.combine 0 (.sendRow 1 n)))) := ⟨hen, rfl⟩
    refine ⟨_, .step hp hstep, ?_, fun k => ?_, ?_⟩
    · show ((oneWay N).fire p.world (.combine 0 (.sendRow 1 n))).call 0 = 0
      rw [call_fire]
      exact hcall
    · -- Only this row has been sent.
      show (((oneWay N).fire p.world (.combine 0 (.sendRow 1 n))).comb (0, 0)).row (1, k) = _
      have hself := comb_fire_self (c := oneWay N) (w := p.world) 0 (.sendRow 1 n)
      rw [hcall] at hself
      rw [hself]
      show Function.update (p.world.comb (0, 0)).row (1, n) .sent (1, k) = _
      by_cases hk : k = n
      · subst hk
        simp
      · rw [Function.update_of_ne (by simpa using hk), hrow k]
        have hiff : k < n + 1 ↔ k < n := by omega
        simp only [hiff]
    · -- One more entry has been posted, and none was completed.
      have hle := ((posted_of_reachable hp).ring (0, 128)).consumed_le
      rw [ring_fire, if_pos (oneWay_posts N p.world n)]
      unfold Ring.outstanding at hout ⊢
      show (p.ring (0, 128)).written + 1 - (p.ring (0, 128)).consumed = n + 1
      omega

/-- With one row more than the ring has slots, a run overruns the ring: the network card has
completed nothing when the last row is posted. -/
theorem ring_overrun_oneWay :
    ¬∀ p, (oneWay 16385).ringSystem.Reachable p → (oneWay 16385).NoOverrun p := by
  intro hsafe
  obtain ⟨p, hp, hcall, hrow, hout⟩ := oneWay_posted (N := 16385) (by decide) (n := 16384)
    (by decide)
  have hen := oneWay_enabled (N := 16385) (by decide) (Nat.lt_succ_self 16384) hcall hrow
  have hlt := (hsafe p hp _ hen (0, 128) (oneWay_posts ..)).2
  rw [hout] at hlt
  exact absurd hlt (lt_irrefl _)

end EpDemo.System.Config
