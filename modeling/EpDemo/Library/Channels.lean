import EpDemo.Library.Descent
import EpDemo.Library.Transition
import Mathlib.Algebra.GroupWithZero.Nat
import Mathlib.Logic.Function.Basic

/-!
# `EpDemo.Library.Channels`: processes that talk over channels

A process (`Proc`) puts values on channels and gets values from them, and in the end returns a
result. What it puts or gets at once may move in pieces: a step of a network (`Net`) moves as many
values as somebody chooses of those that are left to move, that the channel has room for, and that
it holds. A process can also fail, and does nothing more.

Every channel has one reader, and for every value that is ever put on it one process that puts it
(`Topology`). Then it does not matter who moves when, and how much: the steps without failures are
`Balanced` (`balanced_moves`). So one schedule shows what all runs lead to, and what
a process returns in any of them, those with failures included (`returned_eq`).

Such a schedule is put together from transfers. `Sends` and `Receives` say what a process does on
one channel, whatever the pieces. When one process sends what another receives, both get through
(`path_transfer`), and so does a process that meets others one after the other
(`exists_meetings`).
-/

set_option autoImplicit false

namespace EpDemo.Library

/-- A process. A `put` has a first value to put and a rest, and a `get c n` wants `n + 1` values. -/
inductive Proc {C : Type} (E : C → Type) (α : Type) : Type
  | ret (a : α)
  | put (c : C) (x : E c) (rest : List (E c)) (next : Proc E α)
  | get (c : C) (n : ℕ) (next : List (E c) → Proc E α)

namespace Proc

variable {C : Type} {E : C → Type} {α β γ : Type}

/-- One process after the other. -/
def bind : Proc E α → (α → Proc E β) → Proc E β
  | .ret a, f => f a
  | .put c x rest next, f => .put c x rest (next.bind f)
  | .get c n next, f => .get c n fun l => (next l).bind f

instance : Monad (Proc E) where
  pure := .ret
  bind := bind

/-- Put a list on a channel and go on. -/
def putAll (c : C) : List (E c) → Proc E α → Proc E α
  | [], next => next
  | x :: rest, next => .put c x rest next

/-- Get a number of values from a channel and go on with them. -/
def getAll (c : C) : ℕ → (List (E c) → Proc E α) → Proc E α
  | 0, next => next []
  | n + 1, next => .get c n next

/-- One turn for each element, with the results. -/
def forEach {ι : Type} (body : ι → Proc E β) : List ι → Proc E (List β)
  | [] => .ret []
  | i :: rest => (body i).bind fun b => (forEach body rest).bind fun bs => .ret (b :: bs)

/-- A finished process hands its result to the next one. -/
@[simp] theorem ret_bind (a : α) (f : α → Proc E β) : (ret a : Proc E α).bind f = f a := rfl

/-- To return the result of a process is no further work. -/
theorem bind_ret (p : Proc E α) : p.bind .ret = p := by
  induction p with
  | ret a => rfl
  | put c x rest next ih =>
    show Proc.put c x rest (next.bind .ret) = _
    rw [ih]
  | get c n next ih =>
    show Proc.get c n (fun l => (next l).bind .ret) = _
    simp only [ih]

/-- Of three processes one after the other, it does not matter which two are joined first. -/
theorem bind_assoc (p : Proc E α) (f : α → Proc E β) (g : β → Proc E γ) :
    (p.bind f).bind g = p.bind fun a => (f a).bind g := by
  induction p with
  | ret a => rfl
  | put c x rest next ih =>
    show Proc.put c x rest ((next.bind f).bind g) = Proc.put c x rest _
    rw [ih]
  | get c n next ih =>
    show Proc.get c n (fun l => ((next l).bind f).bind g) = Proc.get c n _
    simp only [ih]

/-- What comes after a list of puts can be moved behind them. -/
theorem putAll_bind (c : C) (l : List (E c)) (p : Proc E α) (f : α → Proc E β) :
    (putAll c l p).bind f = putAll c l (p.bind f) := by
  cases l with
  | nil => rfl
  | cons x rest => rfl

/-- What comes after a number of gets can be moved behind them. -/
theorem getAll_bind (c : C) (n : ℕ) (next : List (E c) → Proc E α) (f : α → Proc E β) :
    (getAll c n next).bind f = getAll c n fun l => (next l).bind f := by
  cases n with
  | zero => rfl
  | succ n => rfl

/-- The process is done. -/
def returned : Proc E α → Bool
  | .ret _ => true
  | .put .. => false
  | .get .. => false

/-! ### What a process does on one channel -/

/-- The process puts the values of the list on the channel, and nothing else, and returns the
result. -/
inductive Sends (c : C) : Proc E α → List (E c) → α → Prop
  | ret {a : α} : Sends c (.ret a) [] a
  | put {x : E c} {rest l : List (E c)} {next : Proc E α} {a : α} :
      Sends c next l a → Sends c (.put c x rest next) (x :: (rest ++ l)) a

/-- The process gets the values of the list from the channel, and nothing else, and returns the
result. -/
inductive Receives (c : C) : Proc E α → List (E c) → α → Prop
  | ret {a : α} : Receives c (.ret a) [] a
  | get {n : ℕ} {next : List (E c) → Proc E α} {l l' : List (E c)} {a : α} :
      l.length = n + 1 → Receives c (next l) l' a → Receives c (.get c n next) (l ++ l') a

section

variable {c : C}

/-- Puts before a sender: it sends their values first. -/
theorem Sends.putAll {p : Proc E α} {l' : List (E c)} {a : α} (l : List (E c))
    (h : Sends c p l' a) : Sends c (Proc.putAll c l p) (l ++ l') a := by
  cases l with
  | nil => exact h
  | cons x rest => exact .put h

/-- Two senders one after the other send the one list and then the other. -/
theorem Sends.bind {p : Proc E α} {f : α → Proc E β} {l l' : List (E c)} {a : α} {b : β}
    (h : Sends c p l a) (h' : Sends c (f a) l' b) : Sends c (p.bind f) (l ++ l') b := by
  induction h with
  | ret => exact h'
  | put _ ih =>
    rw [List.cons_append, List.append_assoc]
    exact .put (ih h')

/-- Gets before a receiver: it takes as many values as they want first. -/
theorem Receives.getAll {n : ℕ} {next : List (E c) → Proc E α} {l l' : List (E c)} {a : α}
    (hlen : l.length = n) (h : Receives c (next l) l' a) :
    Receives c (Proc.getAll c n next) (l ++ l') a := by
  cases n with
  | zero =>
    rw [List.eq_nil_of_length_eq_zero hlen] at h ⊢
    exact h
  | succ n => exact .get hlen h

/-- Two receivers one after the other take the one list and then the other. -/
theorem Receives.bind {p : Proc E α} {f : α → Proc E β} {l l' : List (E c)} {a : α} {b : β}
    (h : Receives c p l a) (h' : Receives c (f a) l' b) : Receives c (p.bind f) (l ++ l') b := by
  induction h with
  | ret => exact h'
  | get hlen _ ih =>
    rw [List.append_assoc]
    exact .get hlen (ih h')

/-- A loop sends what its turns send. -/
theorem Sends.forEach {ι : Type} {body : ι → Proc E β} {f : ι → List (E c)} {b : ι → β}
    {l : List ι} (h : ∀ i ∈ l, Sends c (body i) (f i) (b i)) :
    Sends c (Proc.forEach body l) (l.flatMap f) (l.map b) := by
  induction l with
  | nil => exact .ret
  | cons i l ih =>
    rw [List.forall_mem_cons] at h
    have hrest := (ih h.2).bind (f := fun bs => (.ret (b i :: bs) : Proc E (List β))) .ret
    rw [List.append_nil] at hrest
    exact h.1.bind hrest

/-- A loop of readers receives what the turns receive. -/
theorem Receives.forEach {ι κ : Type} {rcv : Proc E β} {f : ι → List (E c)} {b : ι → β}
    {l : List ι} (h : ∀ i ∈ l, Receives c rcv (f i) (b i)) :
    ∀ {turns : List κ}, turns.length = l.length →
      Receives c (Proc.forEach (fun _ => rcv) turns) (l.flatMap f) (l.map b) := by
  induction l with
  | nil =>
    intro turns hlen
    rw [List.eq_nil_of_length_eq_zero hlen]
    exact .ret
  | cons i l ih =>
    intro turns hlen
    cases turns with
    | nil => cases hlen
    | cons _ turns =>
      -- The turns and the list go together: one turn takes the values of one element.
      rw [List.forall_mem_cons] at h
      have hrest := (ih h.2 (Nat.succ.inj hlen)).bind
        (f := fun bs => (.ret (b i :: bs) : Proc E (List β))) .ret
      rw [List.append_nil] at hrest
      exact h.1.bind hrest

/-- A process that sends nothing is done. -/
theorem Sends.of_nil {p : Proc E α} {a : α} (h : Sends c p [] a) : p = .ret a := by
  generalize hl : ([] : List (E c)) = l at h
  cases h with
  | ret => rfl
  | put => cases hl

/-- A process that sends something is at a put of the first value and a part of the others, and
sends what is left after it. -/
theorem Sends.of_cons {p : Proc E α} {x : E c} {l : List (E c)} {a : α}
    (h : Sends c p (x :: l) a) :
    ∃ rest next l', p = .put c x rest next ∧ l = rest ++ l' ∧ Sends c next l' a := by
  generalize hl : x :: l = l' at h
  cases h with
  | ret => cases hl
  | put h =>
    cases hl
    exact ⟨_, _, _, rfl, rfl, h⟩

/-- A process that receives nothing is done. -/
theorem Receives.of_nil {p : Proc E α} {a : α} (h : Receives c p [] a) : p = .ret a := by
  generalize hl : ([] : List (E c)) = l at h
  cases h with
  | ret => rfl
  | get hlen =>
    rw [(List.append_eq_nil_iff.mp hl.symm).1] at hlen
    cases hlen

/-- A process that receives something is at a get. As many values as it wants stand at the front
of the list, and it receives what is left after them. -/
theorem Receives.of_cons {p : Proc E α} {x : E c} {l : List (E c)} {a : α}
    (h : Receives c p (x :: l) a) :
    ∃ n next l₁ l₂, p = .get c n next ∧ l = l₁ ++ l₂ ∧ l₁.length = n ∧
      Receives c (next (x :: l₁)) l₂ a := by
  generalize hl : x :: l = l' at h
  cases h with
  | ret => cases hl
  | @get n next l₁ l₂ _ hlen h =>
    cases l₁ with
    | nil => cases hlen
    | cons y l₁ =>
      rw [List.cons_append, List.cons.injEq] at hl
      obtain ⟨rfl, hl⟩ := hl
      exact ⟨n, next, l₁, l₂, rfl, hl, Nat.succ.inj hlen, h⟩

/-- What a composed process gets is what its parts get. -/
theorem Receives.of_bind {p : Proc E α} {f : α → Proc E β} {l : List (E c)} {b : β}
    (h : Receives c (p.bind f) l b) :
    ∃ a l₁ l₂, l = l₁ ++ l₂ ∧ Receives c p l₁ a ∧ Receives c (f a) l₂ b := by
  induction p generalizing l with
  | ret a => exact ⟨a, [], l, rfl, .ret, h⟩
  | put => cases h
  | get d n next ih =>
    cases h with
    | @get _ _ l₁ l' _ hlen h =>
      obtain ⟨a, l₂, l₃, rfl, h₂, h₃⟩ := ih l₁ h
      exact ⟨a, l₁ ++ l₂, l₃, (List.append_assoc ..).symm, .get hlen h₂, h₃⟩

/-- The converse of `Receives.getAll`: the list begins with the values the gets want. -/
theorem Receives.of_getAll {n : ℕ} {next : List (E c) → Proc E α} {l : List (E c)} {a : α}
    (h : Receives c (Proc.getAll c n next) l a) :
    ∃ l₁ l₂, l = l₁ ++ l₂ ∧ l₁.length = n ∧ Receives c (next l₁) l₂ a := by
  cases n with
  | zero => exact ⟨[], l, rfl, rfl, h⟩
  | succ n =>
    cases h with
    | get hlen h => exact ⟨_, _, rfl, hlen, h⟩

/-- There is one thing that a process sends. -/
theorem Sends.unique {p : Proc E α} {l l' : List (E c)} {a a' : α} (h : Sends c p l a)
    (h' : Sends c p l' a') : l = l' ∧ a = a' := by
  induction h generalizing l' with
  | ret =>
    cases h'
    exact ⟨rfl, rfl⟩
  | put _ ih =>
    cases h' with
    | put h' =>
      obtain ⟨rfl, rfl⟩ := ih h'
      exact ⟨rfl, rfl⟩

/-- What a process gets before it returns does not depend on what follows. -/
theorem Receives.unique {p : Proc E α} {l l' r r' : List (E c)} {a a' : α} (h : Receives c p l a)
    (h' : Receives c p l' a') (heq : l ++ r = l' ++ r') : l = l' ∧ a = a' := by
  induction h generalizing l' with
  | ret =>
    cases h'
    exact ⟨rfl, rfl⟩
  | @get n next l₁ l₂ a hlen _ ih =>
    cases h' with
    | @get _ _ l₁' l₂' _ hlen' h' =>
      rw [List.append_assoc, List.append_assoc] at heq
      obtain ⟨rfl, hrest⟩ := List.append_inj heq (hlen.trans hlen'.symm)
      obtain ⟨rfl, rfl⟩ := ih h' hrest
      exact ⟨rfl, rfl⟩

end

end Proc

/-! ### Networks -/

/-- The processes of a network and its channels. -/
structure Net (P : Type) {C : Type} (E : C → Type) (α : Type) where
  procs : P → Proc E α
  /-- What has been put on a channel and not been got. -/
  queue : (c : C) → List (E c)
  /-- How many values have been put on a channel. -/
  count : C → ℕ
  failed : P → Bool

/-- Who uses a channel. -/
structure Topology (P C : Type) where
  /-- Who gets the values. -/
  reader : C → P
  /-- Who puts the `k`-th value. -/
  writer : C → ℕ → P
  /-- How many values the channel holds. -/
  capacity : C → ℕ

/-- What can happen in a network. -/
inductive NetAction (P : Type)
  /-- The process moves a number of values. -/
  | run (p : P) (n : ℕ)
  /-- The process fails. -/
  | fail (p : P)
  deriving DecidableEq

namespace Net

variable {P C : Type} {E : C → Type} {α β γ : Type}

/-- Two states of the network are equal when processes, queues, counts and failures are. -/
@[ext] theorem ext {s s' : Net P E α} (hprocs : s.procs = s'.procs) (hqueue : s.queue = s'.queue)
    (hcount : s.count = s'.count) (hfailed : s.failed = s'.failed) : s = s' := by
  cases s
  cases s'
  cases hprocs
  cases hqueue
  cases hcount
  cases hfailed
  rfl

/-- Process `p` can move `n` values when it is where the last argument says. -/
def CanRun (T : Topology P C) (s : Net P E α) (p : P) (n : ℕ) : Proc E α → Prop
  | .ret _ => False
  | .put c _ rest _ => 0 < n ∧ n ≤ rest.length + 1 ∧ (s.queue c).length + n ≤ T.capacity c ∧
      ∀ i < n, T.writer c (s.count c + i) = p
  | .get c m _ => 0 < n ∧ n ≤ m + 1 ∧ n ≤ (s.queue c).length ∧ T.reader c = p

/-- The guard of an action. -/
def enabled (T : Topology P C) (s : Net P E α) : NetAction P → Prop
  | .run p n => s.failed p = false ∧ CanRun T s p n (s.procs p)
  | .fail p => s.failed p = false ∧ (s.procs p).returned = false

section

variable {T : Topology P C} {s : Net P E α} {p : P} {n m : ℕ} {c : C} {x : E c}
  {rest : List (E c)} {next : Proc E α} {get : List (E c) → Proc E α}

/-- When a process at a put can move `n` values: it has not failed, it has `n` left, the channel
has room for them, and they are its turn. -/
theorem enabled_put (hp : s.procs p = .put c x rest next) :
    enabled T s (.run p n) ↔ s.failed p = false ∧ 0 < n ∧ n ≤ rest.length + 1 ∧
      (s.queue c).length + n ≤ T.capacity c ∧ ∀ i < n, T.writer c (s.count c + i) = p := by
  show (_ ∧ CanRun T s p n (s.procs p)) ↔ _
  rw [hp]
  exact Iff.rfl

/-- When a process at a get can move `n` values: it has not failed, it wants `n`, the channel
holds them, and it is the reader. -/
theorem enabled_get (hp : s.procs p = .get c m get) :
    enabled T s (.run p n) ↔ s.failed p = false ∧ 0 < n ∧ n ≤ m + 1 ∧
      n ≤ (s.queue c).length ∧ T.reader c = p := by
  show (_ ∧ CanRun T s p n (s.procs p)) ↔ _
  rw [hp]
  exact Iff.rfl

/-- A process that is done does not move. -/
theorem not_enabled_ret {a : α} (hp : s.procs p = .ret a) : ¬enabled T s (.run p n) := by
  show ¬(_ ∧ CanRun T s p n (s.procs p))
  rw [hp]
  exact And.right

end

section

variable [DecidableEq P]

instance decidableCanRun (T : Topology P C) (s : Net P E α) (p : P) (n : ℕ) :
    (proc : Proc E α) → Decidable (CanRun T s p n proc)
  | .ret _ => inferInstanceAs (Decidable False)
  | .put .. => inferInstanceAs (Decidable (_ ∧ _ ∧ _ ∧ ∀ i < n, _))
  | .get .. => inferInstanceAs (Decidable (_ ∧ _ ∧ _ ∧ _))

instance decidableEnabled (T : Topology P C) (s : Net P E α) :
    (a : NetAction P) → Decidable (enabled T s a)
  | .run _ _ => inferInstanceAs (Decidable (_ ∧ CanRun ..))
  | .fail _ => inferInstanceAs (Decidable (_ ∧ _))

variable [DecidableEq C]

/-- The state after process `p` has moved `n` values, when it was where the last argument says. -/
def move (s : Net P E α) (p : P) (n : ℕ) : Proc E α → Net P E α
  | .ret _ => s
  | .put c x rest next =>
    { s with
      procs := Function.update s.procs p (.putAll c ((x :: rest).drop n) next)
      queue := Function.update s.queue c (s.queue c ++ (x :: rest).take n)
      count := Function.update s.count c (s.count c + n) }
  | .get c m next =>
    { s with
      procs := Function.update s.procs p
        (.getAll c (m + 1 - n) fun l => next ((s.queue c).take n ++ l))
      queue := Function.update s.queue c ((s.queue c).drop n) }

/-- The state after an action. -/
def fire (s : Net P E α) : NetAction P → Net P E α
  | .run p n => s.move p n (s.procs p)
  | .fail p => { s with failed := Function.update s.failed p true }

/-- The network as a machine. -/
def machine (T : Topology P C) : Machine (Net P E α) (NetAction P) where
  enabled := enabled T
  decEnabled := decidableEnabled T
  fire := fire

/-- Some process moves `n` values. -/
def Moves (T : Topology P C) (s : Net P E α) (n : ℕ) (t : Net P E α) : Prop :=
  ∃ p, enabled T s (.run p n) ∧ t = s.fire (.run p n)

/-- The network without its failures. -/
def forget (s : Net P E α) : Net P E α := { s with failed := fun _ => false }

/-- Nothing is on the way, and nobody has failed. -/
structure Quiet (s : Net P E α) : Prop where
  queue : ∀ c, s.queue c = []
  failed : ∀ p, s.failed p = false

/-! ### One step -/

variable {T : Topology P C} {s t : Net P E α} {p q : P} {n m : ℕ}

section

variable {c d : C} {x : E c} {rest : List (E c)} {next : Proc E α} {get : List (E c) → Proc E α}

/-- What a move at a put does: `n` values go to the end of the queue, and the process has the
others left. -/
theorem fire_put (hp : s.procs p = .put c x rest next) :
    s.fire (.run p n) =
      { s with
        procs := Function.update s.procs p (.putAll c ((x :: rest).drop n) next)
        queue := Function.update s.queue c (s.queue c ++ (x :: rest).take n)
        count := Function.update s.count c (s.count c + n) } := by
  show s.move p n (s.procs p) = _
  rw [hp]
  rfl

/-- What a move at a get does: the process takes the first `n` values, and wants that many fewer. -/
theorem fire_get (hp : s.procs p = .get c m get) :
    s.fire (.run p n) =
      { s with
        procs := Function.update s.procs p
          (.getAll c (m + 1 - n) fun l => get ((s.queue c).take n ++ l))
        queue := Function.update s.queue c ((s.queue c).drop n) } := by
  show s.move p n (s.procs p) = _
  rw [hp]
  rfl

end

/-- A move does not make a process fail. -/
theorem fire_failed : (s.fire (.run p n)).failed = s.failed := by
  cases hp : s.procs p with
  | ret a =>
    show (s.move p n (s.procs p)).failed = _
    rw [hp]
    rfl
  | put c x rest next => rw [fire_put hp]
  | get c k next => rw [fire_get hp]

/-- A step of one process leaves the others where they are. -/
theorem fire_procs_of_ne (hpq : q ≠ p) : (s.fire (.run p n)).procs q = s.procs q := by
  cases hp : s.procs p with
  | ret a =>
    show (s.move p n (s.procs p)).procs q = _
    rw [hp]
    rfl
  | put c x rest next =>
    rw [fire_put hp]
    exact Function.update_of_ne hpq ..
  | get c k next =>
    rw [fire_get hp]
    exact Function.update_of_ne hpq ..

/-- On a channel of another writer a step can only make room. -/
theorem fire_of_writer (h : enabled T s (.run p n)) {d : C} (hd : T.writer d (s.count d) ≠ p) :
    (s.fire (.run p n)).count d = s.count d ∧
      ((s.fire (.run p n)).queue d).length ≤ (s.queue d).length := by
  cases hp : s.procs p with
  | ret a => exact absurd h (not_enabled_ret hp)
  | put c x rest next =>
    obtain ⟨-, hpos, -, -, hwriter⟩ := (enabled_put hp).mp h
    -- Another process has the turn on `d`, so the put is on another channel.
    have hdc : d ≠ c := by
      intro hdc
      rw [hdc] at hd
      exact hd (hwriter 0 hpos)
    have hqueue : (s.fire (.run p n)).queue d = s.queue d := by
      rw [fire_put hp]
      exact Function.update_of_ne hdc ..
    have hcount : (s.fire (.run p n)).count d = s.count d := by
      rw [fire_put hp]
      exact Function.update_of_ne hdc ..
    exact ⟨hcount, Nat.le_of_eq (congrArg List.length hqueue)⟩
  | get c k next =>
    rw [fire_get hp]
    refine ⟨rfl, ?_⟩
    show (Function.update s.queue c ((s.queue c).drop n) d).length ≤ _
    -- A get takes values out of a queue and puts none in.
    by_cases hdc : d = c
    · subst hdc
      rw [Function.update_self, List.length_drop]
      exact Nat.sub_le ..
    · exact Nat.le_of_eq (congrArg List.length (Function.update_of_ne hdc ..))

/-- On a channel of another reader a step can only put more behind what is there. -/
theorem fire_of_reader (h : enabled T s (.run p n)) {d : C} (hd : T.reader d ≠ p) :
    ∃ l, (s.fire (.run p n)).queue d = s.queue d ++ l := by
  cases hp : s.procs p with
  | ret a => exact absurd h (not_enabled_ret hp)
  | put c x rest next =>
    rw [fire_put hp]
    -- A put on `d` itself goes to the end of its queue.
    by_cases hdc : d = c
    · subst hdc
      exact ⟨_, Function.update_self ..⟩
    · exact ⟨[], (Function.update_of_ne hdc ..).trans (List.append_nil _).symm⟩
  | get c k next =>
    obtain ⟨-, -, -, -, hreader⟩ := (enabled_get hp).mp h
    -- `p` is not the reader of `d`, so its get is from another channel.
    have hdc : d ≠ c := by
      rintro rfl
      exact hd hreader
    rw [fire_get hp]
    exact ⟨[], (Function.update_of_ne hdc ..).trans (List.append_nil _).symm⟩

/-! ### Steps of two processes -/

/-- A process can still do what it could do before another one moved. -/
theorem enabled_fire (hpq : p ≠ q) (hp : enabled T s (.run p n)) (hq : enabled T s (.run q m)) :
    enabled T (s.fire (.run p n)) (.run q m) := by
  have hprocs : (s.fire (.run p n)).procs q = s.procs q := fire_procs_of_ne hpq.symm
  have hfailed : (s.fire (.run p n)).failed q = s.failed q := congrFun fire_failed q
  cases hnode : s.procs q with
  | ret a => exact absurd hq (not_enabled_ret hnode)
  | put d y rest next =>
    obtain ⟨hok, hpos, hle, hroom, hwriter⟩ := (enabled_put hnode).mp hq
    -- The turn on `d` is that of `q`, so `p` does not move it and leaves no less room there.
    have hd : T.writer d (s.count d) ≠ p := by
      rw [show T.writer d (s.count d) = q from hwriter 0 hpos]
      exact hpq.symm
    obtain ⟨hcount, hlen⟩ := fire_of_writer hp hd
    rw [hnode] at hprocs
    refine (enabled_put hprocs).mpr ⟨hfailed.trans hok, hpos, hle, by omega, ?_⟩
    rw [hcount]
    exact hwriter
  | get d k next =>
    obtain ⟨hok, hpos, hle, hhas, hreader⟩ := (enabled_get hnode).mp hq
    -- Only `q` takes from `d`, so the values that it wants are still at the front.
    obtain ⟨l, hl⟩ := fire_of_reader hp (d := d) (by rw [hreader]; exact hpq.symm)
    rw [hnode] at hprocs
    refine (enabled_get hprocs).mpr ⟨hfailed.trans hok, hpos, hle, ?_, hreader⟩
    rw [hl, List.length_append]
    exact Nat.le_trans hhas (Nat.le_add_right ..)

section

variable {c d : C} {x : E c} {rest : List (E c)} {next : Proc E α}

/-- Two moves at puts on different channels can change places. -/
theorem fire_comm_put_put {y : E d} {rest' : List (E d)} {next' : Proc E α} (hpq : p ≠ q)
    (hcd : c ≠ d) (hp : s.procs p = .put c x rest next) (hq : s.procs q = .put d y rest' next') :
    (s.fire (.run p n)).fire (.run q m) = (s.fire (.run q m)).fire (.run p n) := by
  have hp' := (fire_procs_of_ne (s := s) (n := m) hpq).trans hp
  have hq' := (fire_procs_of_ne (s := s) (n := n) hpq.symm).trans hq
  rw [fire_put hp', fire_put hq', fire_put hp, fire_put hq]
  ext1
  · exact Function.update_comm hpq ..
  · show Function.update (Function.update s.queue c _) d (Function.update s.queue c _ d ++ _)
      = Function.update (Function.update s.queue d _) c (Function.update s.queue d _ c ++ _)
    rw [Function.update_of_ne hcd.symm, Function.update_of_ne hcd, Function.update_comm hcd]
  · show Function.update (Function.update s.count c _) d (Function.update s.count c _ d + _)
      = Function.update (Function.update s.count d _) c (Function.update s.count d _ c + _)
    rw [Function.update_of_ne hcd.symm, Function.update_of_ne hcd, Function.update_comm hcd]
  · rfl

/-- A move at a put and one at a get can change places when the get has its values already, on the
same channel too. -/
theorem fire_comm_put_get {k : ℕ} {get : List (E d) → Proc E α} (hpq : p ≠ q)
    (hhas : m ≤ (s.queue d).length) (hp : s.procs p = .put c x rest next)
    (hq : s.procs q = .get d k get) :
    (s.fire (.run p n)).fire (.run q m) = (s.fire (.run q m)).fire (.run p n) := by
  have hp' := (fire_procs_of_ne (s := s) (n := m) hpq).trans hp
  have hq' := (fire_procs_of_ne (s := s) (n := n) hpq.symm).trans hq
  rw [fire_put hp', fire_get hq', fire_put hp, fire_get hq]
  by_cases hcd : c = d
  · -- The values that are got lie before those that are put.
    subst hcd
    ext1
    · show Function.update (Function.update s.procs p _) q (Proc.getAll c _ fun l =>
        get ((Function.update s.queue c (s.queue c ++ _) c).take m ++ l)) = _
      rw [Function.update_self, List.take_append_of_le_length hhas, Function.update_comm hpq]
    · show Function.update (Function.update s.queue c _) c ((Function.update s.queue c _ c).drop m)
        = Function.update (Function.update s.queue c _) c (Function.update s.queue c _ c ++ _)
      rw [Function.update_self, Function.update_self, Function.update_idem, Function.update_idem,
        List.drop_append_of_le_length hhas]
    · rfl
    · rfl
  · -- On different channels nothing meets.
    ext1
    · show Function.update (Function.update s.procs p _) q (Proc.getAll d _ fun l =>
        get ((Function.update s.queue c (s.queue c ++ _) d).take m ++ l)) = _
      rw [Function.update_of_ne (Ne.symm hcd), Function.update_comm hpq]
    · show Function.update (Function.update s.queue c _) d ((Function.update s.queue c _ d).drop m)
        = Function.update (Function.update s.queue d _) c (Function.update s.queue d _ c ++ _)
      rw [Function.update_of_ne (Ne.symm hcd), Function.update_of_ne hcd, Function.update_comm hcd]
    · rfl
    · rfl

/-- Two moves at gets on different channels can change places. -/
theorem fire_comm_get_get {k k' : ℕ} {get : List (E c) → Proc E α} {get' : List (E d) → Proc E α}
    (hpq : p ≠ q) (hcd : c ≠ d) (hp : s.procs p = .get c k get)
    (hq : s.procs q = .get d k' get') :
    (s.fire (.run p n)).fire (.run q m) = (s.fire (.run q m)).fire (.run p n) := by
  have hp' := (fire_procs_of_ne (s := s) (n := m) hpq).trans hp
  have hq' := (fire_procs_of_ne (s := s) (n := n) hpq.symm).trans hq
  rw [fire_get hp', fire_get hq', fire_get hp, fire_get hq]
  ext1
  · show Function.update (Function.update s.procs p _) q (Proc.getAll d _ fun l =>
        get' ((Function.update s.queue c _ d).take m ++ l))
      = Function.update (Function.update s.procs q _) p (Proc.getAll c _ fun l =>
        get ((Function.update s.queue d _ c).take n ++ l))
    rw [Function.update_of_ne hcd.symm, Function.update_of_ne hcd, Function.update_comm hpq]
  · show Function.update (Function.update s.queue c _) d ((Function.update s.queue c _ d).drop m)
      = Function.update (Function.update s.queue d _) c ((Function.update s.queue d _ c).drop n)
    rw [Function.update_of_ne hcd.symm, Function.update_of_ne hcd, Function.update_comm hcd]
  · rfl
  · rfl

end

/-- Two processes can move in either order. -/
theorem fire_comm (hpq : p ≠ q) (hp : enabled T s (.run p n)) (hq : enabled T s (.run q m)) :
    (s.fire (.run p n)).fire (.run q m) = (s.fire (.run q m)).fire (.run p n) := by
  cases hnode : s.procs p with
  | ret a => exact absurd hp (not_enabled_ret hnode)
  | put c x rest next =>
    obtain ⟨-, hpos, -, -, hwriter⟩ := (enabled_put hnode).mp hp
    cases hnode' : s.procs q with
    | ret a => exact absurd hq (not_enabled_ret hnode')
    | put d y rest' next' =>
      obtain ⟨-, hpos', -, -, hwriter'⟩ := (enabled_put hnode').mp hq
      refine fire_comm_put_put hpq ?_ hnode hnode'
      -- On one channel both would have the turn.
      intro hcd
      rw [← hcd] at hwriter'
      exact hpq ((hwriter 0 hpos).symm.trans (hwriter' 0 hpos'))
    | get d k get => exact fire_comm_put_get hpq ((enabled_get hnode').mp hq).2.2.2.1 hnode hnode'
  | get c k get =>
    obtain ⟨-, -, -, hhas, hreader⟩ := (enabled_get hnode).mp hp
    cases hnode' : s.procs q with
    | ret a => exact absurd hq (not_enabled_ret hnode')
    | put d y rest' next' => exact (fire_comm_put_get hpq.symm hhas hnode' hnode).symm
    | get d k' get' =>
      obtain ⟨-, -, -, -, hreader'⟩ := (enabled_get hnode').mp hq
      refine fire_comm_get_get hpq ?_ hnode hnode'
      -- On one channel both would be the reader.
      intro hcd
      rw [← hcd] at hreader'
      exact hpq (hreader.symm.trans hreader')

/-! ### Steps of one process -/

/-- A process that moves a part first can go on to the rest. -/
theorem fire_split (hnm : n < m) (h : enabled T s (.run p m)) :
    enabled T (s.fire (.run p n)) (.run p (m - n)) ∧
      (s.fire (.run p n)).fire (.run p (m - n)) = s.fire (.run p m) := by
  cases hp : s.procs p with
  | ret a => exact absurd h (not_enabled_ret hp)
  | put c x rest next =>
    obtain ⟨hok, -, hle, hroom, hwriter⟩ := (enabled_put hp).mp h
    -- Something is left to put.
    obtain ⟨y, left, hleft⟩ : ∃ y left, (x :: rest).drop n = y :: left := by
      apply List.exists_cons_of_ne_nil
      rw [ne_eq, List.drop_eq_nil_iff, List.length_cons]
      omega
    have hlen := congrArg List.length hleft
    rw [List.length_drop, List.length_cons, List.length_cons] at hlen
    have hp' : (s.fire (.run p n)).procs p = .put c y left next := by
      rw [fire_put hp, hleft]
      exact Function.update_self ..
    constructor
    · rw [enabled_put hp', fire_put hp]
      refine ⟨hok, by omega, by omega, ?_, ?_⟩
      · show (Function.update s.queue c (s.queue c ++ _) c).length + _ ≤ _
        rw [Function.update_self, List.length_append, List.length_take, List.length_cons]
        omega
      · show ∀ i < m - n, T.writer c (Function.update s.count c (s.count c + n) c + i) = p
        intro i hi
        rw [Function.update_self, Nat.add_assoc]
        exact hwriter _ (by omega)
    · have hdrop : (y :: left).drop (m - n) = (x :: rest).drop m := by
        rw [← hleft, List.drop_drop, Nat.add_sub_cancel' (Nat.le_of_lt hnm)]
      have htake : (x :: rest).take n ++ (y :: left).take (m - n) = (x :: rest).take m := by
        rw [← hleft, ← List.take_add, Nat.add_sub_cancel' (Nat.le_of_lt hnm)]
      rw [fire_put hp', hdrop, fire_put hp, fire_put hp]
      ext1
      · exact Function.update_idem ..
      · show Function.update (Function.update s.queue c _) c
          (Function.update s.queue c _ c ++ _) = _
        rw [Function.update_self, Function.update_idem, List.append_assoc, htake]
      · show Function.update (Function.update s.count c _) c (Function.update s.count c _ c + _) = _
        rw [Function.update_self, Function.update_idem, Nat.add_assoc,
          Nat.add_sub_cancel' (Nat.le_of_lt hnm)]
      · rfl
  | get c k get =>
    obtain ⟨hok, -, hle, hhas, hreader⟩ := (enabled_get hp).mp h
    obtain ⟨j, hj⟩ : ∃ j, k + 1 - n = j + 1 := ⟨k - n, by omega⟩
    have hp' : (s.fire (.run p n)).procs p =
        .get c j fun l => get ((s.queue c).take n ++ l) := by
      rw [fire_get hp, hj]
      exact Function.update_self ..
    have hqueue : (s.fire (.run p n)).queue c = (s.queue c).drop n := by
      rw [fire_get hp]
      exact Function.update_self ..
    constructor
    · rw [enabled_get hp', hqueue, fire_failed, List.length_drop]
      exact ⟨hok, by omega, by omega, by omega, hreader⟩
    · have hwant : j + 1 - (m - n) = k + 1 - m := by omega
      have htake : ∀ l, (s.queue c).take n ++ (((s.queue c).drop n).take (m - n) ++ l) =
          (s.queue c).take m ++ l := by
        intro l
        rw [← List.append_assoc, ← List.take_add, Nat.add_sub_cancel' (Nat.le_of_lt hnm)]
      rw [fire_get hp', hqueue, hwant, List.drop_drop, Nat.add_sub_cancel' (Nat.le_of_lt hnm),
        fire_get hp, fire_get hp]
      simp only [htake]
      ext1
      · exact Function.update_idem ..
      · exact Function.update_idem ..
      · rfl
      · rfl

/-- However two runs begin, they can be completed to the same state. -/
theorem balanced_moves (T : Topology P C) : Balanced (Moves (E := E) (α := α) T) where
  pos := by
    rintro s n _ ⟨p, hp, rfl⟩
    cases hnode : s.procs p with
    | ret a => exact absurd hp (not_enabled_ret hnode)
    | put c x rest next => exact ((enabled_put hnode).mp hp).2.1
    | get c k get => exact ((enabled_get hnode).mp hp).2.1
  meet := by
    -- One process that moves less can move the difference.
    have same : ∀ (s : Net P E α) p n m, enabled T s (.run p m) → n < m →
        Path (Moves T) (s.fire (.run p n)) (m - n) (s.fire (.run p m)) := by
      intro s p n m hm hlt
      obtain ⟨hen, heq⟩ := fire_split hlt hm
      exact .single ⟨p, hen, heq.symm⟩
    rintro s n _ m _ ⟨p, hp, rfl⟩ ⟨q, hq, rfl⟩
    by_cases hpq : p = q
    · subst hpq
      rcases Nat.lt_trichotomy n m with hlt | rfl | hlt
      · exact ⟨_, m - n, 0, same s p n m hq hlt, .refl _, by omega⟩
      · exact ⟨_, 0, 0, .refl _, .refl _, rfl⟩
      · exact ⟨_, 0, n - m, .refl _, same s p m n hp hlt, by omega⟩
    · refine ⟨_, m, n, .single ⟨q, enabled_fire hpq hp hq, rfl⟩, .single ⟨p, ?_, ?_⟩, by omega⟩
      · exact enabled_fire (Ne.symm hpq) hq hp
      · exact fire_comm hpq hp hq

/-! ### Runs -/

/-- A process that has returned stays where it is. -/
theorem procs_of_path {a : α} (h : Path (Moves T) s n t) (hp : s.procs p = .ret a) :
    t.procs p = .ret a := by
  refine h.invariant (I := fun u => u.procs p = .ret a) ?_ hp
  rintro u n _ hu ⟨q, hq, rfl⟩
  have hne : p ≠ q := by
    rintro rfl
    exact not_enabled_ret hu hq
  exact (fire_procs_of_ne hne).trans hu

/-- A process that returns in some run returns the same in a run that gets stuck. -/
theorem returned_eq {s₀ : Net P E α} {N : ℕ} {a : α} (hend : Path (Moves T) s₀ N t)
    (hstuck : Stuck (Moves T) t) (hs : Path (Moves T) s₀ n s) (hp : s.procs p = .ret a) :
    t.procs p = .ret a := by
  obtain ⟨k, hk, -⟩ := (balanced_moves T).descend hend hstuck hs
  exact procs_of_path hk hp

/-- A run without failures is a run. -/
theorem reachable_of_path {init : Net P E α → Prop} (h : Path (Moves T) s n t)
    (hs : ((machine T).system init).Reachable s) : ((machine T).system init).Reachable t := by
  refine h.invariant (I := ((machine T).system init).Reachable) ?_ hs
  rintro u n _ hu ⟨p, hp, rfl⟩
  have hstep : ((machine T).system init).step u (.run p n) (u.fire (.run p n)) := ⟨hp, rfl⟩
  exact .step hu hstep

/-- The process that took the last step of a path could have failed instead, when all others are
where they end up. -/
theorem exists_failed {init : Net P E α → Prop} (h : Path (Moves T) s n t) (hne : s ≠ t)
    (hs : ((machine T).system init).Reachable s) :
    ∃ u p, ((machine T).system init).Reachable u ∧ u.failed p = true ∧
      (∀ a, s.procs p ≠ .ret a) ∧ ∀ q, q ≠ p → u.procs q = t.procs q := by
  -- The last step of the path is by some process `p`. Instead of this step it fails.
  obtain ⟨v, m, k, hpath, p, hp, rfl⟩ := h.exists_last.resolve_left hne
  have hrun : ∀ a, v.procs p ≠ .ret a := fun a ha => not_enabled_ret ha hp
  have hreturned : (v.procs p).returned = false := by
    cases hproc : v.procs p with
    | ret a => exact absurd hproc (hrun a)
    | put => rfl
    | get => rfl
  have hfail : ((machine T).system init).step v (.fail p) (v.fire (.fail p)) :=
    ⟨⟨hp.1, hreturned⟩, rfl⟩
  refine ⟨_, p, .step (reachable_of_path hpath hs) hfail, Function.update_self .., ?_, ?_⟩
  · exact fun a ha => hrun a (procs_of_path hpath ha)
  · exact fun q hq => (fire_procs_of_ne (s := v) hq).symm

/-- Without its failures a run is one of the processes that have not failed. -/
theorem path_of_reachable {init : Net P E α → Prop} (h : ((machine T).system init).Reachable s) :
    ∃ s₀ n, init s₀ ∧ Path (Moves T) s₀.forget n s.forget := by
  induction h with
  | @init s hs => exact ⟨s, 0, hs, .refl _⟩
  | @step s a s' _ hstep ih =>
    obtain ⟨s₀, n, h₀, hpath⟩ := ih
    obtain ⟨hen, rfl⟩ := hstep
    cases a with
    | fail p => exact ⟨s₀, n, h₀, hpath⟩
    | run p m =>
      refine ⟨s₀, n + m, h₀, hpath.trans (.single ⟨p, ⟨rfl, hen.2⟩, ?_⟩)⟩
      -- A move does the same whether others have failed or not.
      cases hp : s.procs p with
      | ret a => exact absurd hen (not_enabled_ret hp)
      | put c x rest next =>
        have hp' : s.forget.procs p = .put c x rest next := hp
        show (s.fire (.run p m)).forget = s.forget.fire (.run p m)
        rw [fire_put hp, fire_put hp']
        rfl
      | get c k get =>
        have hp' : s.forget.procs p = .get c k get := hp
        show (s.fire (.run p m)).forget = s.forget.fire (.run p m)
        rw [fire_get hp, fire_get hp']
        rfl

/-! ### Transfers -/

section

variable {c : C} {g : β → Proc E α} {k : γ → Proc E α} {a : γ} {b : β}

/-- One value moves from one process to another. -/
theorem path_one {x : E c} {rest : List (E c)} {next : Proc E α} {get : List (E c) → Proc E α}
    (hpq : p ≠ q) (hreader : T.reader c = q) (hwriter : T.writer c (s.count c) = p)
    (hroom : 0 < T.capacity c) (hp : s.procs p = .put c x rest next) (hq : s.procs q = .get c m get)
    (hqueue : s.queue c = []) (hfp : s.failed p = false) (hfq : s.failed q = false) :
    Path (Moves T) s 2
      { s with
        procs := Function.update (Function.update s.procs p (.putAll c rest next)) q
          (.getAll c m fun l => get (x :: l))
        count := Function.update s.count c (s.count c + 1) } := by
  -- The queue is empty, so there is room for one value.
  have hput : enabled T s (.run p 1) := by
    rw [enabled_put hp, hqueue]
    refine ⟨hfp, Nat.one_pos, Nat.le_add_left .., ?_, ?_⟩
    · rw [List.length_nil]
      omega
    · intro i hi
      rw [Nat.lt_one_iff.mp hi]
      exact hwriter
  have hq' : (s.fire (.run p 1)).procs q = .get c m get := (fire_procs_of_ne hpq.symm).trans hq
  have hqueue' : (s.fire (.run p 1)).queue c = [x] := by
    rw [fire_put hp]
    show Function.update s.queue c (s.queue c ++ [x]) c = [x]
    rw [Function.update_self, hqueue, List.nil_append]
  -- This value is at the front, and the reader wants one.
  have hget : enabled T (s.fire (.run p 1)) (.run q 1) := by
    rw [enabled_get hq', hqueue', fire_failed]
    exact ⟨hfq, Nat.one_pos, Nat.le_add_left .., Nat.le_refl _, hreader⟩
  have hfirst : Path (Moves T) s 1 (s.fire (.run p 1)) := .single ⟨p, hput, rfl⟩
  refine hfirst.trans (.single ⟨q, hget, ?_⟩)
  rw [fire_get hq', hqueue', fire_put hp]
  ext1
  · rfl
  · -- The queue is empty again.
    show s.queue = Function.update (Function.update s.queue c _) c []
    rw [Function.update_idem, ← hqueue, Function.update_eq_self]
  · rfl
  · rfl

/-- What one process sends and another receives gets them both through. -/
theorem path_transfer (hpq : p ≠ q) (hreader : T.reader c = q) (hroom : 0 < T.capacity c)
    (l : List (E c)) : ∀ {s : Net P E α} {snd : Proc E γ} {rcv : Proc E β},
      snd.Sends c l a → rcv.Receives c l b → (∀ i < l.length, T.writer c (s.count c + i) = p) →
      s.Quiet → s.procs p = snd.bind k → s.procs q = rcv.bind g →
      Path (Moves T) s (2 * l.length)
        { s with
          procs := Function.update (Function.update s.procs p (k a)) q (g b)
          count := Function.update s.count c (s.count c + l.length) } := by
  induction l with
  | nil =>
    intro s snd rcv hsnd hrcv _ _ hp hq
    rw [hsnd.of_nil] at hp
    rw [hrcv.of_nil] at hq
    have hprocs : Function.update (Function.update s.procs p (k a)) q (g b) = s.procs := by
      rw [show k a = s.procs p from hp.symm, show g b = s.procs q from hq.symm,
        Function.update_eq_self, Function.update_eq_self]
    rw [hprocs, List.length_nil, Nat.add_zero, Function.update_eq_self]
    exact .refl s
  | cons x l ih =>
    intro s snd rcv hsnd hrcv hwriter hs hp hq
    obtain ⟨rest, next, l', rfl, hl, hsnd⟩ := hsnd.of_cons
    obtain ⟨m, next', l₁, l₂, rfl, hl', hlen, hrcv⟩ := hrcv.of_cons
    -- The first value moves, and the rest of both is left.
    let s₁ : Net P E α :=
      { s with
        procs := Function.update (Function.update s.procs p ((Proc.putAll c rest next).bind k))
          q ((Proc.getAll c m fun l => next' (x :: l)).bind g)
        count := Function.update s.count c (s.count c + 1) }
    have hfirst : Path (Moves T) s 2 s₁ := by
      have h := path_one hpq hreader (hwriter 0 (Nat.succ_pos _)) hroom hp hq (hs.queue c)
        (hs.failed p) (hs.failed q)
      rwa [← Proc.putAll_bind, ← Proc.getAll_bind] at h
    have hsnd' := hsnd.putAll rest
    rw [← hl] at hsnd'
    have hrcv' : Proc.Receives c (.getAll c m fun l => next' (x :: l)) l b := by
      rw [hl']
      exact Proc.Receives.getAll hlen hrcv
    have hwriter' : ∀ i < l.length, T.writer c (s₁.count c + i) = p := by
      intro i hi
      show T.writer c (Function.update s.count c (s.count c + 1) c + i) = p
      rw [Function.update_self, Nat.add_assoc, Nat.add_comm 1 i]
      exact hwriter (i + 1) (Nat.succ_lt_succ hi)
    have hs₁ : s₁.Quiet := ⟨hs.queue, hs.failed⟩
    have hrest := ih hsnd' hrcv' hwriter' hs₁
      ((Function.update_of_ne hpq ..).trans (Function.update_self ..)) (Function.update_self ..)
    have hprocs : Function.update (Function.update s₁.procs p (k a)) q (g b) =
        Function.update (Function.update s.procs p (k a)) q (g b) := by
      rw [show s₁.procs = _ from rfl, Function.update_comm hpq, Function.update_idem,
        Function.update_comm hpq.symm, Function.update_idem]
    have hcount : Function.update s₁.count c (s₁.count c + l.length) =
        Function.update s.count c (s.count c + (x :: l).length) := by
      rw [show s₁.count = Function.update s.count c (s.count c + 1) from rfl, Function.update_self,
        Function.update_idem, List.length_cons, Nat.add_assoc, Nat.add_comm 1]
    rw [hprocs, hcount] at hrest
    rw [List.length_cons, Nat.mul_succ, Nat.add_comm]
    exact hfirst.trans hrest

end

/-! ### Who gets through with whom -/

/-- The two processes get through together with these results, in a run of this size, whatever
they do then. -/
def Meets (α : Type) (T : Topology P C) (p q : P) (pa : Proc E γ) (qb : Proc E β) (a : γ) (b : β)
    (n : ℕ) : Prop :=
  ∀ (s : Net P E α) (k : γ → Proc E α) (g : β → Proc E α), s.Quiet → s.procs p = pa.bind k →
    s.procs q = qb.bind g → ∃ t, Path (Moves T) s n t ∧ t.Quiet ∧
      t.procs = Function.update (Function.update s.procs p (k a)) q (g b)

variable {pa : Proc E γ} {qb : Proc E β} {a : γ} {b : β}

/-- What is sent on a channel of the two is received. -/
theorem Meets.of_sends {c : C} {l : List (E c)} (hpq : p ≠ q) (hreader : T.reader c = q)
    (hwriter : ∀ i, T.writer c i = p) (hroom : 0 < T.capacity c) (hsnd : pa.Sends c l a)
    (hrcv : qb.Receives c l b) : Meets α T p q pa qb a b (2 * l.length) := by
  intro s k g hs hp hq
  have hpath := path_transfer hpq hreader hroom l hsnd hrcv (fun i _ => hwriter _) hs hp hq
  exact ⟨_, hpath, ⟨hs.queue, hs.failed⟩, rfl⟩

/-- Two processes that meet can be named in the other order. -/
theorem Meets.symm (hpq : p ≠ q) (h : Meets α T p q pa qb a b n) :
    Meets α T q p qb pa b a n := by
  intro s k g hs hq hp
  obtain ⟨t, hpath, ht, hprocs⟩ := h s g k hs hp hq
  exact ⟨t, hpath, ht, hprocs.trans (Function.update_comm hpq ..)⟩

/-- A process that meets others one after the other gets through with all of them, and what
processes it does not meet do stays as it is. -/
theorem exists_meetings {ι : Type} {peer : ι → P} {pa : ι → Proc E γ} {qb : ι → Proc E β}
    {a : ι → γ} {b : ι → β} {size : ι → ℕ} {g : ι → β → Proc E α} (l : List ι) :
    ∀ {s : Net P E α} {k : List γ → Proc E α}, (l.map peer).Nodup → p ∉ l.map peer →
      (∀ i ∈ l, Meets α T p (peer i) (pa i) (qb i) (a i) (b i) (size i)) → s.Quiet →
      s.procs p = (Proc.forEach pa l).bind k → (∀ i ∈ l, s.procs (peer i) = (qb i).bind (g i)) →
      ∃ t, Path (Moves T) s (l.map size).sum t ∧ t.Quiet ∧ t.procs p = k (l.map a) ∧
        (∀ i ∈ l, t.procs (peer i) = g i (b i)) ∧
        ∀ q, q ≠ p → q ∉ l.map peer → t.procs q = s.procs q := by
  induction l with
  | nil =>
    intro s k _ _ _ hs hp _
    exact ⟨s, .refl s, hs, hp, fun i hi => absurd hi List.not_mem_nil, fun _ _ _ => rfl⟩
  | cons i l ih =>
    intro s k hnodup hnot hmeets hs hp hpeers
    rw [List.map_cons, List.nodup_cons] at hnodup
    rw [List.map_cons, List.mem_cons, not_or] at hnot
    rw [List.forall_mem_cons] at hmeets hpeers
    -- The first turn comes before all others.
    have hp : s.procs p = (pa i).bind fun x => (Proc.forEach pa l).bind fun xs => k (x :: xs) := by
      rw [hp]
      show ((pa i).bind fun x => (Proc.forEach pa l).bind fun xs => .ret (x :: xs)).bind k = _
      simp only [Proc.bind_assoc]
      rfl
    -- Then `p` gets through with the first peer, and with the others by induction.
    obtain ⟨t, hpath, ht, hprocs⟩ := hmeets.1 s _ (g i) hs hp hpeers.1
    have hothers : ∀ q, q ≠ p → q ≠ peer i → t.procs q = s.procs q := by
      intro q hqp hqi
      rw [hprocs, Function.update_of_ne hqi, Function.update_of_ne hqp]
    -- The peers are different, so the first turn has not touched the others.
    have hne : ∀ j ∈ l, peer j ≠ p ∧ peer j ≠ peer i := by
      intro j hj
      have hmem : peer j ∈ l.map peer := List.mem_map_of_mem hj
      refine ⟨fun h => hnot.2 ?_, fun h => hnodup.1 ?_⟩
      · rw [← h]
        exact hmem
      · rw [← h]
        exact hmem
    have hp' : t.procs p = (Proc.forEach pa l).bind fun xs => k (a i :: xs) := by
      rw [hprocs, Function.update_of_ne hnot.1, Function.update_self]
    have hpeers' : ∀ j ∈ l, t.procs (peer j) = (qb j).bind (g j) := by
      intro j hj
      rw [hothers _ (hne j hj).1 (hne j hj).2]
      exact hpeers.2 j hj
    obtain ⟨t', hpath', ht', hpt, hpeert, hothert⟩ :=
      ih hnodup.2 hnot.2 hmeets.2 ht hp' hpeers'
    refine ⟨t', hpath.trans hpath', ht', hpt, ?_, ?_⟩
    · rw [List.forall_mem_cons]
      refine ⟨?_, hpeert⟩
      rw [hothert _ (Ne.symm hnot.1) hnodup.1, hprocs, Function.update_self]
    · intro q hqp hq
      rw [List.map_cons, List.mem_cons, not_or] at hq
      rw [hothert q hqp hq.2, hothers q hqp hq.1]

end

end Net

end EpDemo.Library
