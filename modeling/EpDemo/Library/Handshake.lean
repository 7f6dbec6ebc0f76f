import EpDemo.Library.Transition
import Mathlib.Data.Set.Insert
import Mathlib.Order.Basic
import Mathlib.Tactic.Common

/-!
# `EpDemo.Library.Handshake`: alternating signal arrays without a barrier

Parties go through rounds. In round `m` every party owns an array of signal cells, `buf m`,
and cell `c` of party `p` is signalled by the party `sender m p c`. A party cleans the array
`clean m` before it sends any signal of the round, and leaves the round once it has taken a
signal out of each of its own cells. There is no barrier, and a signal lands an arbitrary time
after it was sent.

`content` is what a cell holds: the rounds whose signals have landed in it since it was last
cleaned. A signal that lands replaces the content or is added to it.

The arrays alternate (`Alternates`): consecutive rounds use different arrays, a round uses the
array of the round before the last, and that array was cleaned in the round between. Then what
a party takes in a round is the signal of that round and nothing else (`content_of_take`), and
what it cleans away it has taken before (`taken_of_clean`). Parties are at most one round apart
(`round_le_succ`), and no signal is more than one round ahead of its receiver
(`sent_le_succ`).
-/

set_option autoImplicit false

namespace EpDemo.Library.Handshake

/-- Who signals whom in which round, and the arrays of the rounds. -/
structure Protocol (P C : Type*) where
  HasRound : ℕ → Prop
  sender : ℕ → P → C → P
  buf : ℕ → ℕ
  clean : ℕ → ℕ

/-- A state. A triple is a round, a party and one of its cells. The number in a triple of
`content` is an array. -/
@[ext]
structure State (P C : Type*) where
  round : P → ℕ
  cleaned : Set (ℕ × P × C)
  sent : Set (ℕ × P × C)
  landed : Set (ℕ × P × C)
  taken : Set (ℕ × P × C)
  content : ℕ × P × C → List ℕ

/-- The steps. -/
inductive Label (P C : Type*)
  /-- Party `p` cleans cell `c`. -/
  | clean (p : P) (c : C)
  /-- The signal of round `m` for cell `c` of `p` is sent. -/
  | send (m : ℕ) (p : P) (c : C)
  /-- The signal of round `m` for cell `c` of `p` lands, on top of the content if `adds`. -/
  | land (m : ℕ) (p : P) (c : C) (adds : Bool)
  /-- Party `p` takes the signal out of cell `c`. -/
  | take (p : P) (c : C)
  /-- Party `p` goes to the next round. -/
  | advance (p : P)

/-- What a cell holds when the signal of round `m` is the only one that can be in it. -/
noncomputable def State.arrived {P C : Type*} (s : State P C) (m : ℕ) (p : P) (c : C) : List ℕ :=
  open Classical in if (m, p, c) ∈ s.landed then [m] else []

/-- The signal has landed, and the cell has it alone. -/
theorem State.arrived_of_mem {P C : Type*} {s : State P C} {m : ℕ} {p : P} {c : C}
    (h : (m, p, c) ∈ s.landed) : s.arrived m p c = [m] := if_pos h

/-- The signal has not landed, and the cell is empty. -/
theorem State.arrived_of_notMem {P C : Type*} {s : State P C} {m : ℕ} {p : P} {c : C}
    (h : (m, p, c) ∉ s.landed) : s.arrived m p c = [] := if_neg h

/-- `arrived` depends only on whether the signal has landed. -/
theorem State.arrived_congr {P C : Type*} {s s' : State P C} {m : ℕ} {p : P} {c : C}
    (h : (m, p, c) ∈ s'.landed ↔ (m, p, c) ∈ s.landed) : s.arrived m p c = s'.arrived m p c := by
  by_cases hmem : (m, p, c) ∈ s.landed
  · rw [arrived_of_mem hmem, arrived_of_mem (h.mpr hmem)]
  · rw [arrived_of_notMem hmem, arrived_of_notMem (mt h.mp hmem)]

namespace Protocol

variable {P C : Type*} (h : Protocol P C)

/-- The guard of a step. -/
def Enabled (s : State P C) : Label P C → Prop
  | .clean p c => (s.round p, p, c) ∉ s.cleaned
  | .send m p c => m = s.round (h.sender m p c) ∧ ∀ c', (m, h.sender m p c, c') ∈ s.cleaned
  | .land m p c _ => (m, p, c) ∈ s.sent ∧ (m, p, c) ∉ s.landed
  | .take p c => s.content (h.buf (s.round p), p, c) ≠ []
  | .advance p => h.HasRound (s.round p + 1) ∧ ∀ c, (s.round p, p, c) ∈ s.taken

/-- The state after a step. -/
def fire [DecidableEq P] [DecidableEq C] (s : State P C) : Label P C → State P C
  | .clean p c =>
    { s with
      cleaned := insert (s.round p, p, c) s.cleaned
      content := Function.update s.content (h.clean (s.round p), p, c) [] }
  | .send m p c => { s with sent := insert (m, p, c) s.sent }
  | .land m p c adds =>
    { s with
      landed := insert (m, p, c) s.landed
      content := Function.update s.content (h.buf m, p, c)
        (m :: if adds then s.content (h.buf m, p, c) else []) }
  | .take p c => { s with taken := insert (s.round p, p, c) s.taken }
  | .advance p => { s with round := Function.update s.round p (s.round p + 1) }

/-- Nothing has happened. -/
structure Init (s : State P C) : Prop where
  round : ∀ p, s.round p = 0
  cleaned : s.cleaned = ∅
  sent : s.sent = ∅
  landed : s.landed = ∅
  taken : s.taken = ∅
  content : ∀ x, s.content x = []

/-- The runs of the protocol. -/
def system [DecidableEq P] [DecidableEq C] : TransitionSystem (State P C) (Label P C) where
  init := Init
  step s a s' := h.Enabled s a ∧ s' = h.fire s a

/-- The arrays alternate, and every party hears from every party in every round. -/
structure Alternates : Prop where
  hasRound : h.HasRound 0
  hears : ∀ m p q, ∃ c, h.sender m p c = q
  buf_succ : ∀ m, h.HasRound (m + 1) → h.buf (m + 1) ≠ h.buf m
  buf_add_two : ∀ m, h.HasRound (m + 2) → h.buf (m + 2) = h.buf m
  clean_ne : ∀ m, h.HasRound m → h.clean m ≠ h.buf m
  clean_succ : ∀ m, h.HasRound (m + 2) → h.clean (m + 1) = h.buf (m + 2)

/-! ### The invariant -/

/-- What holds in every state of every run. -/
structure Invariant (s : State P C) : Prop where
  hasRound : ∀ p, h.HasRound (s.round p)
  cleaned_le : ∀ m p c, (m, p, c) ∈ s.cleaned → m ≤ s.round p
  sent_le : ∀ m p c, (m, p, c) ∈ s.sent → m ≤ s.round (h.sender m p c)
  cleaned_of_sent : ∀ m p c, (m, p, c) ∈ s.sent → ∀ c', (m, h.sender m p c, c') ∈ s.cleaned
  sent_of_landed : ∀ x, x ∈ s.landed → x ∈ s.sent
  landed_of_taken : ∀ x, x ∈ s.taken → x ∈ s.landed
  taken_of_lt : ∀ m p, m < s.round p → ∀ c, (m, p, c) ∈ s.taken
  /-- What a cell holds has landed in it. -/
  landed_of_content : ∀ a p c, ∀ m ∈ s.content (a, p, c), (m, p, c) ∈ s.landed ∧ h.buf m = a
  /-- A cell of the current round holds the signal of the round, once it has landed. -/
  current : ∀ p c, s.content (h.buf (s.round p), p, c) = s.arrived (s.round p) p c
  /-- So does a cell of the next round, once it is clean. -/
  next : ∀ p c, h.HasRound (s.round p + 1) → s.round p = 0 ∨ (s.round p, p, c) ∈ s.cleaned →
    s.content (h.buf (s.round p + 1), p, c) = s.arrived (s.round p + 1) p c

namespace Invariant

variable {h} {s : State P C}

/-- The invariant holds at the start: every round is `0` and no signal is on its way. -/
theorem of_init (halt : h.Alternates) (hs : Init s) : h.Invariant s := by
  have hround : ∀ p, s.round p = 0 := hs.round
  constructor <;>
    simp [hs.cleaned, hs.sent, hs.landed, hs.taken, hs.content, hround, halt.hasRound,
      State.arrived]

/-! #### Consequences -/

/-- No party is two rounds ahead of another one. -/
theorem round_le_succ (halt : h.Alternates) (hs : h.Invariant s) (p q : P) :
    s.round p ≤ s.round q + 1 := by
  by_contra hlt
  -- `p` has taken a signal of `q` in the round before its current one.
  obtain ⟨c, hc⟩ := halt.hears (s.round p - 1) p q
  have htaken := hs.taken_of_lt (s.round p - 1) p (by omega) c
  have hle := hs.sent_le _ _ _ (hs.sent_of_landed _ (hs.landed_of_taken _ htaken))
  rw [hc] at hle
  omega

/-- No signal is two rounds ahead of its receiver. -/
theorem sent_le_succ (halt : h.Alternates) (hs : h.Invariant s) {m : ℕ} {p : P} {c : C}
    (hsent : (m, p, c) ∈ s.sent) : m ≤ s.round p + 1 :=
  (hs.sent_le m p c hsent).trans (hs.round_le_succ halt _ p)

/-- When a signal is a round ahead of its receiver, the receiver has cleaned its cells. -/
theorem cleaned_of_sent_succ (halt : h.Alternates) (hs : h.Invariant s) {p : P} {c : C}
    (hsent : (s.round p + 1, p, c) ∈ s.sent) (c' : C) : (s.round p, p, c') ∈ s.cleaned := by
  -- The sender has left the receiver's round, so it has taken a signal of the receiver.
  have hle := hs.sent_le _ _ _ hsent
  obtain ⟨d, hd⟩ := halt.hears (s.round p) (h.sender (s.round p + 1) p c) p
  have htaken := hs.taken_of_lt (s.round p) (h.sender (s.round p + 1) p c) (by omega) d
  have hcleaned := hs.cleaned_of_sent _ _ _
    (hs.sent_of_landed _ (hs.landed_of_taken _ htaken)) c'
  rwa [hd] at hcleaned

/-- A signal a round ahead of its receiver is of a round that exists. -/
theorem hasRound_of_sent_succ (hs : h.Invariant s) (halt : h.Alternates) {p : P} {c : C}
    (hsent : (s.round p + 1, p, c) ∈ s.sent) : h.HasRound (s.round p + 1) := by
  have hge := hs.sent_le _ _ _ hsent
  have hle := hs.round_le_succ halt (h.sender (s.round p + 1) p c) p
  have heq : s.round (h.sender (s.round p + 1) p c) = s.round p + 1 := by omega
  rw [← heq]
  exact hs.hasRound _

/-- A signal that has not landed is of the current round of its receiver or of the next. -/
theorem round_le_of_not_landed (hs : h.Invariant s) {m : ℕ} {p : P} {c : C}
    (hnot : (m, p, c) ∉ s.landed) : s.round p ≤ m := by
  by_contra hlt
  exact hnot (hs.landed_of_taken _ (hs.taken_of_lt m p (by omega) c))

/-- What a party is about to clean away are signals of earlier rounds, which it has taken. -/
theorem taken_of_clean (halt : h.Alternates) (hs : h.Invariant s) {p : P} {c : C}
    (hnot : (s.round p, p, c) ∉ s.cleaned) {m : ℕ}
    (hm : m ∈ s.content (h.clean (s.round p), p, c)) :
    m < s.round p ∧ (m, p, c) ∈ s.taken := by
  -- A signal in the cell is of a round with this array, so it is neither of this round nor of the
  -- next.
  obtain ⟨hland, hbuf⟩ := hs.landed_of_content _ _ _ m hm
  have hsent := hs.sent_of_landed _ hland
  have hle := hs.sent_le_succ halt hsent
  have hne : m ≠ s.round p + 1 := by
    rintro rfl
    -- The next round has not been signalled, since this cell is not clean.
    exact hnot (hs.cleaned_of_sent_succ halt hsent c)
  have hne' : m ≠ s.round p := by
    rintro rfl
    exact halt.clean_ne _ (hs.hasRound p) hbuf.symm
  have hlt : m < s.round p := by omega
  exact ⟨hlt, hs.taken_of_lt m p hlt c⟩

/-- What a party finds in a cell that is not empty is the signal of its round. -/
theorem content_of_take (hs : h.Invariant s) {p : P} {c : C}
    (hne : s.content (h.buf (s.round p), p, c) ≠ []) :
    (s.round p, p, c) ∈ s.landed ∧ s.content (h.buf (s.round p), p, c) = [s.round p] := by
  rw [hs.current p c] at hne ⊢
  by_cases hland : (s.round p, p, c) ∈ s.landed
  · exact ⟨hland, State.arrived_of_mem hland⟩
  · exact absurd (State.arrived_of_notMem hland) hne

/-! #### Steps -/

variable [DecidableEq P] [DecidableEq C]

/-- The invariant survives a cell that is cleaned. The round has only begun, so no signal for it
can have landed. -/
theorem clean (halt : h.Alternates) (hs : h.Invariant s) {p : P} {c : C}
    (hen : h.Enabled s (.clean p c)) : h.Invariant (h.fire s (.clean p c)) where
  hasRound := hs.hasRound
  cleaned_le m q d hm := by
    cases hm with
    | inl hm =>
      cases hm
      exact le_rfl
    | inr hm => exact hs.cleaned_le m q d hm
  sent_le := hs.sent_le
  cleaned_of_sent m q d hm c' := Set.mem_insert_of_mem _ (hs.cleaned_of_sent m q d hm c')
  sent_of_landed := hs.sent_of_landed
  landed_of_taken := hs.landed_of_taken
  taken_of_lt := hs.taken_of_lt
  landed_of_content a q d m hm := by
    by_cases heq : (a, q, d) = (h.clean (s.round p), p, c)
    · simp only [fire, heq, Function.update_self, List.not_mem_nil] at hm
    · simp only [fire, Function.update_of_ne heq] at hm
      exact hs.landed_of_content a q d m hm
  current q d := by
    have hne : (h.buf (s.round q), q, d) ≠ (h.clean (s.round p), p, c) := by
      intro heq
      simp only [Prod.mk.injEq] at heq
      obtain ⟨hbuf, rfl, -⟩ := heq
      exact halt.clean_ne _ (hs.hasRound q) hbuf.symm
    show Function.update s.content _ [] (h.buf (s.round q), q, d) = s.arrived (s.round q) q d
    rw [Function.update_of_ne hne]
    exact hs.current q d
  next q d hround hclean := by
    show Function.update s.content _ [] (h.buf (s.round q + 1), q, d) =
      s.arrived (s.round q + 1) q d
    by_cases heq : (h.buf (s.round q + 1), q, d) = (h.clean (s.round p), p, c)
    · have hcell := heq
      simp only [Prod.mk.injEq] at hcell
      obtain ⟨-, rfl, rfl⟩ := hcell
      -- No signal of the next round has landed, since the cell was not clean.
      have hnot : (s.round q + 1, q, d) ∉ s.landed := fun hland =>
        hen (hs.cleaned_of_sent_succ halt (hs.sent_of_landed _ hland) d)
      rw [heq, Function.update_self, State.arrived_of_notMem hnot]
    · rw [Function.update_of_ne heq]
      refine hs.next q d hround ?_
      cases hclean with
      | inl hzero => exact .inl hzero
      | inr hmem =>
        cases hmem with
        | inl hmem =>
          -- The clean was of another array, and only in the first round can it be.
          simp only [Prod.mk.injEq] at hmem
          obtain ⟨-, rfl, rfl⟩ := hmem
          by_contra hcon
          obtain ⟨m, hm⟩ := Nat.exists_eq_succ_of_ne_zero fun h0 => hcon (.inl h0)
          have hround' : h.HasRound (s.round q + 1) := hround
          rw [hm] at heq hround'
          exact heq (by rw [halt.clean_succ m hround'])
        | inr hmem => exact .inr hmem

/-- The invariant survives a signal that is sent. Its cell was cleaned in the round before. -/
theorem send (hs : h.Invariant s) {m : ℕ} {p : P} {c : C} (hen : h.Enabled s (.send m p c)) :
    h.Invariant (h.fire s (.send m p c)) where
  hasRound := hs.hasRound
  cleaned_le := hs.cleaned_le
  sent_le k q d hk := by
    cases hk with
    | inl hk =>
      -- The new signal is of the current round of its sender, who has cleaned all cells.
      cases hk
      exact hen.1.le
    | inr hk => exact hs.sent_le k q d hk
  cleaned_of_sent k q d hk c' := by
    cases hk with
    | inl hk =>
      cases hk
      exact hen.2 c'
    | inr hk => exact hs.cleaned_of_sent k q d hk c'
  sent_of_landed x hx := Set.mem_insert_of_mem _ (hs.sent_of_landed x hx)
  landed_of_taken := hs.landed_of_taken
  taken_of_lt := hs.taken_of_lt
  landed_of_content := hs.landed_of_content
  current := hs.current
  next := hs.next

/-- Where a signal lands in the cells that its receiver uses: it is the only one there. -/
theorem land_content {m k : ℕ} {p q : P} {c d : C} {adds : Bool}
    (hen : h.Enabled s (.land m p c adds)) (hk : h.buf k = h.buf m → q = p → d = c → k = m)
    (hold : s.content (h.buf k, q, d) = s.arrived k q d) :
    (h.fire s (.land m p c adds)).content (h.buf k, q, d) =
      (h.fire s (.land m p c adds)).arrived k q d := by
  show Function.update s.content _ _ _ = _
  by_cases heq : (h.buf k, q, d) = (h.buf m, p, c)
  · -- The cell is the one that the signal lands in. It was empty, so the signal is alone there.
    simp only [Prod.mk.injEq] at heq
    obtain ⟨hbuf, rfl, rfl⟩ := heq
    obtain rfl := hk hbuf rfl rfl
    rw [Function.update_self, State.arrived_of_mem (Set.mem_insert _ _), hold,
      State.arrived_of_notMem hen.2, ite_self]
  · have hne : (k, q, d) ≠ (m, p, c) := by
      intro hmem
      cases hmem
      exact heq rfl
    rw [Function.update_of_ne heq, hold]
    exact State.arrived_congr (by simp only [fire, Set.mem_insert_iff, hne, false_or])

/-- The invariant survives a signal that lands. A signal of the next round finds the cell clean,
since its sender has seen this rank's signals. -/
theorem land (halt : h.Alternates) (hs : h.Invariant s) {m : ℕ} {p : P} {c : C} {adds : Bool}
    (hen : h.Enabled s (.land m p c adds)) : h.Invariant (h.fire s (.land m p c adds)) where
  hasRound := hs.hasRound
  cleaned_le := hs.cleaned_le
  sent_le := hs.sent_le
  cleaned_of_sent := hs.cleaned_of_sent
  sent_of_landed x hx := by
    cases hx with
    | inl hx =>
      cases hx
      exact hen.1
    | inr hx => exact hs.sent_of_landed x hx
  landed_of_taken x hx := Set.mem_insert_of_mem _ (hs.landed_of_taken x hx)
  taken_of_lt := hs.taken_of_lt
  landed_of_content a q d k hk := by
    -- What is in the cell now has just landed or was there before.
    by_cases heq : (a, q, d) = (h.buf m, p, c)
    · simp only [fire, heq, Function.update_self] at hk
      simp only [Prod.mk.injEq] at heq
      obtain ⟨rfl, rfl, rfl⟩ := heq
      cases List.mem_cons.mp hk with
      | inl hkm =>
        subst hkm
        exact ⟨Set.mem_insert _ _, rfl⟩
      | inr hold =>
        cases adds with
        | false => simp at hold
        | true =>
          have hland := hs.landed_of_content _ _ _ k hold
          exact ⟨Set.mem_insert_of_mem _ hland.1, hland.2⟩
    · simp only [fire, Function.update_of_ne heq] at hk
      have hland := hs.landed_of_content a q d k hk
      exact ⟨Set.mem_insert_of_mem _ hland.1, hland.2⟩
  current q d := by
    refine land_content hen ?_ (hs.current q d)
    -- A signal in this array is of this round or of the next, and the next one has another array.
    rintro hbuf rfl rfl
    have hle : m ≤ s.round q + 1 := hs.sent_le_succ halt hen.1
    have hge : s.round q ≤ m := hs.round_le_of_not_landed hen.2
    by_contra hne
    have hlt : s.round q < m := lt_of_le_of_ne hge hne
    obtain rfl : m = s.round q + 1 := by omega
    exact halt.buf_succ _ (hs.hasRound_of_sent_succ halt hen.1) hbuf.symm
  next q d hround hclean := by
    refine land_content hen ?_ (hs.next q d hround hclean)
    -- Nor is it of this round, whose array is another one.
    rintro hbuf rfl rfl
    have hle : m ≤ s.round q + 1 := hs.sent_le_succ halt hen.1
    have hge : s.round q ≤ m := hs.round_le_of_not_landed hen.2
    by_contra hne
    have hlt : m < s.round q + 1 := lt_of_le_of_ne hle (Ne.symm hne)
    obtain rfl : m = s.round q := by omega
    exact halt.buf_succ _ hround hbuf

/-- The invariant survives a wait that ends. -/
theorem take (hs : h.Invariant s) {p : P} {c : C} (hen : h.Enabled s (.take p c)) :
    h.Invariant (h.fire s (.take p c)) where
  hasRound := hs.hasRound
  cleaned_le := hs.cleaned_le
  sent_le := hs.sent_le
  cleaned_of_sent := hs.cleaned_of_sent
  sent_of_landed := hs.sent_of_landed
  landed_of_taken x hx := by
    cases hx with
    | inl hx =>
      -- A wait ends only when the cell has a signal, and that is the one of this round.
      cases hx
      exact (hs.content_of_take hen).1
    | inr hx => exact hs.landed_of_taken x hx
  taken_of_lt m q hm d := Set.mem_insert_of_mem _ (hs.taken_of_lt m q hm d)
  landed_of_content := hs.landed_of_content
  current := hs.current
  next := hs.next

/-- The invariant survives a rank that goes on to its next round, after all its waits. -/
theorem advance (halt : h.Alternates) (hs : h.Invariant s) {p : P}
    (hen : h.Enabled s (.advance p)) : h.Invariant (h.fire s (.advance p)) := by
  have hself : (h.fire s (.advance p)).round p = s.round p + 1 := Function.update_self ..
  have hother : ∀ q, q ≠ p → (h.fire s (.advance p)).round q = s.round q := fun q hq =>
    Function.update_of_ne hq ..
  have hmono : ∀ q, s.round q ≤ (h.fire s (.advance p)).round q := by
    intro q
    by_cases hq : q = p
    · rw [hq, hself]
      exact Nat.le_succ _
    · exact (hother q hq).ge
  -- `p` has taken its own signal, so it has cleaned.
  have hcleaned : ∀ c, (s.round p, p, c) ∈ s.cleaned := by
    intro c
    obtain ⟨d, hd⟩ := halt.hears (s.round p) p p
    have hsent := hs.sent_of_landed _ (hs.landed_of_taken _ (hen.2 d))
    have hmem := hs.cleaned_of_sent _ _ _ hsent c
    rwa [hd] at hmem
  refine
    { hasRound := ?_, cleaned_le := fun m q d hm => (hs.cleaned_le m q d hm).trans (hmono q)
      sent_le := fun m q d hm => (hs.sent_le m q d hm).trans (hmono _)
      cleaned_of_sent := hs.cleaned_of_sent, sent_of_landed := hs.sent_of_landed
      landed_of_taken := hs.landed_of_taken, taken_of_lt := ?_
      landed_of_content := hs.landed_of_content, current := ?_, next := ?_ }
  · intro q
    by_cases hqp : q = p
    · subst hqp
      rw [hself]
      exact hen.1
    · rw [hother q hqp]
      exact hs.hasRound q
  · intro m q hm c
    by_cases hqp : q = p
    · subst hqp
      rw [hself] at hm
      by_cases hm' : m = s.round q
      · subst hm'
        exact hen.2 c
      · exact hs.taken_of_lt m q (by omega) c
    · rw [hother q hqp] at hm
      exact hs.taken_of_lt m q hm c
  · intro q d
    by_cases hqp : q = p
    · subst hqp
      rw [hself]
      exact hs.next q d hen.1 (.inr (hcleaned d))
    · rw [hother q hqp]
      exact hs.current q d
  · intro q d hround hclean
    by_cases hqp : q = p
    · subst hqp
      rw [hself] at hround hclean ⊢
      -- The new round has cleaned nothing yet.
      cases hclean with
      | inl hzero => exact absurd hzero (Nat.succ_ne_zero _)
      | inr hmem => exact absurd (hs.cleaned_le _ _ _ hmem) (by omega)
    · rw [hother q hqp] at hround hclean ⊢
      exact hs.next q d hround hclean

/-- The step lemma. -/
theorem fire (halt : h.Alternates) (hs : h.Invariant s) {a : Label P C} (hen : h.Enabled s a) :
    h.Invariant (h.fire s a) := by
  cases a with
  | clean p c => exact hs.clean halt hen
  | send m p c => exact hs.send hen
  | land m p c adds => exact hs.land halt hen
  | take p c => exact hs.take hen
  | advance p => exact hs.advance halt hen

end Invariant

/-- The invariant holds in every run. -/
theorem invariant_of_reachable [DecidableEq P] [DecidableEq C] {h : Protocol P C}
    (halt : h.Alternates) {s : State P C} (hs : h.system.Reachable s) : h.Invariant s := by
  refine hs.invariant (fun _ hinit => .of_init halt hinit) ?_
  rintro q a q' - hq ⟨hen, rfl⟩
  exact hq.fire halt hen

end Protocol

end EpDemo.Library.Handshake
