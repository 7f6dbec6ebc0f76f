import Mathlib.Logic.Relation
import Mathlib.Data.List.Basic

/-!
# `EpDemo.Library.Transition`: labelled transition systems and their runs

A `TransitionSystem` is an initial predicate and a labelled step relation. `Reachable`
closes the initial states under the steps, and `Reachable.invariant` is the induction rule
every safety proof of the development goes through.

Three ways to build a system are used later:

* `restrict C` keeps the steps that meet a side condition `C` on the state before the step
  and the label. Its reachable states are the states of the runs whose every step meets
  `C`.
* `startingAt s₀` keeps the runs from the state `s₀`.
* `Machine` gives the steps as a decidable guard and a total update. `Machine.exec` executes
  a schedule, and `Machine.reachable_exec` turns a legal schedule into reachability.

`Reachable.map` carries a run of one system to a run of another: each concrete step is
matched by zero or more abstract steps.
-/

set_option autoImplicit false

namespace EpDemo.Library

/-- A labelled transition system: the states it can start in and its steps. -/
structure TransitionSystem (σ α : Type*) where
  /-- The initial states. -/
  init : σ → Prop
  /-- `step s a s'`: the action `a` can take `s` to `s'`. -/
  step : σ → α → σ → Prop

namespace TransitionSystem

variable {σ α τ β : Type*}

/-- The states of the runs of `T`. -/
inductive Reachable (T : TransitionSystem σ α) : σ → Prop
  | init {s : σ} : T.init s → Reachable T s
  | step {s : σ} {a : α} {s' : σ} : Reachable T s → T.step s a s' → Reachable T s'

/-- The induction rule: a predicate that holds initially and survives every step out of a
reachable state holds in every reachable state. -/
theorem Reachable.invariant {T : TransitionSystem σ α} {I : σ → Prop}
    (hinit : ∀ s, T.init s → I s)
    (hstep : ∀ s a s', T.Reachable s → I s → T.step s a s' → I s')
    {s : σ} (h : T.Reachable s) : I s := by
  induction h with
  | init h0 => exact hinit _ h0
  | step hr hs ih => exact hstep _ _ _ hr ih hs

/-- The runs of `T` whose every step meets `C`, a condition on the state before the step
and the action taken. -/
def restrict (T : TransitionSystem σ α) (C : σ → α → Prop) : TransitionSystem σ α where
  init := T.init
  step s a s' := C s a ∧ T.step s a s'

/-- A restricted run is a run. -/
theorem Reachable.of_restrict {T : TransitionSystem σ α} {C : σ → α → Prop} {s : σ}
    (h : (T.restrict C).Reachable s) : T.Reachable s := by
  induction h with
  | init h0 => exact .init h0
  | step _ hs ih => exact .step ih hs.2

/-- A system whose initial states include those of `T` and that has every step of `T` out of
a reachable state reaches every state that `T` reaches. -/
theorem Reachable.mono {T U : TransitionSystem σ α} (hinit : ∀ s, T.init s → U.init s)
    (hstep : ∀ s a s', T.Reachable s → T.step s a s' → U.step s a s') {s : σ}
    (h : T.Reachable s) : U.Reachable s := by
  induction h with
  | init h0 => exact .init (hinit _ h0)
  | step hr hs ih => exact .step ih (hstep _ _ _ hr hs)

/-- The runs of `T` from one state. -/
def startingAt (T : TransitionSystem σ α) (s₀ : σ) : TransitionSystem σ α where
  init s := s = s₀
  step := T.step

/-- A run from an initial state is a run. -/
theorem Reachable.of_startingAt {T : TransitionSystem σ α} {s₀ s : σ} (h₀ : T.init s₀)
    (h : (T.startingAt s₀).Reachable s) : T.Reachable s := by
  induction h with
  | init h => exact .init (h ▸ h₀)
  | step _ hs ih => exact .step ih hs

/-- Every run starts somewhere. -/
theorem Reachable.exists_startingAt {T : TransitionSystem σ α} {s : σ} (h : T.Reachable s) :
    ∃ s₀, T.init s₀ ∧ (T.startingAt s₀).Reachable s := by
  induction h with
  | @init s h => exact ⟨s, h, .init rfl⟩
  | step _ hs ih =>
    obtain ⟨s₀, h₀, hr⟩ := ih
    exact ⟨s₀, h₀, .step hr hs⟩

/-- The unlabelled step relation. -/
def Step (T : TransitionSystem σ α) (s s' : σ) : Prop := ∃ a, T.step s a s'

/-- Zero or more steps from a reachable state end in a reachable state. -/
theorem Reachable.trans {T : TransitionSystem σ α} {s s' : σ} (h : T.Reachable s)
    (hs : Relation.ReflTransGen T.Step s s') : T.Reachable s' := by
  induction hs with
  | refl => exact h
  | tail _ hlast ih => exact .step ih hlast.choose_spec

/-- Forward simulation through a function on states: `f` maps initial states to initial
states and every reachable step to zero or more steps, so it maps runs to runs. -/
theorem Reachable.map {T : TransitionSystem σ α} {U : TransitionSystem τ β} (f : σ → τ)
    (hinit : ∀ s, T.init s → U.init (f s))
    (hstep : ∀ s a s', T.Reachable s → T.step s a s' →
      Relation.ReflTransGen U.Step (f s) (f s'))
    {s : σ} (h : T.Reachable s) : U.Reachable (f s) := by
  induction h with
  | init h0 => exact .init (hinit _ h0)
  | step hr hs ih => exact ih.trans (hstep _ _ _ hr hs)

end TransitionSystem

/-- A machine given by a decidable guard and a total update. -/
structure Machine (σ α : Type*) where
  /-- The action can be taken in the state. -/
  enabled : σ → α → Prop
  /-- The guard can be evaluated. -/
  decEnabled : ∀ s a, Decidable (enabled s a)
  /-- The state after the action. -/
  fire : σ → α → σ

namespace Machine

variable {σ α : Type*}

instance (M : Machine σ α) (s : σ) (a : α) : Decidable (M.enabled s a) := M.decEnabled s a

/-- The transition system of a machine from a set of initial states. -/
def system (M : Machine σ α) (init : σ → Prop) : TransitionSystem σ α where
  init := init
  step s a s' := M.enabled s a ∧ s' = M.fire s a

/-- Every action of a schedule is enabled when its turn comes. -/
def Legal (M : Machine σ α) : σ → List α → Prop
  | _, [] => True
  | s, a :: rest => M.enabled s a ∧ M.Legal (M.fire s a) rest

instance decidableLegal (M : Machine σ α) : (s : σ) → (acts : List α) → Decidable (M.Legal s acts)
  | _, [] => inferInstanceAs (Decidable True)
  | s, a :: rest =>
    have := M.decidableLegal (M.fire s a) rest
    inferInstanceAs (Decidable (M.enabled s a ∧ M.Legal (M.fire s a) rest))

/-- The state after a schedule. -/
def exec (M : Machine σ α) (s : σ) (acts : List α) : σ := acts.foldl M.fire s

/-- A legal schedule is a run. -/
theorem reachable_exec {M : Machine σ α} {init : σ → Prop} (acts : List α) :
    ∀ {s : σ}, (M.system init).Reachable s → M.Legal s acts →
      (M.system init).Reachable (M.exec s acts) := by
  induction acts with
  | nil => exact fun hr _ => hr
  | cons a rest ih => exact fun hr hl => ih (.step hr ⟨hl.1, rfl⟩) hl.2

/-- It is a run from the state that it starts in. -/
theorem reachable_startingAt_exec {M : Machine σ α} {init : σ → Prop} {s : σ} {acts : List α}
    (h : M.Legal s acts) : ((M.system init).startingAt s).Reachable (M.exec s acts) :=
  have hstart : (M.system fun s' => s' = s).Reachable s := .init rfl
  reachable_exec acts hstart h

/-- What every enabled action keeps, a legal schedule keeps. -/
theorem exec_invariant {M : Machine σ α} {I : σ → Prop}
    (hfire : ∀ s a, I s → M.enabled s a → I (M.fire s a)) (acts : List α) :
    ∀ {s : σ}, I s → M.Legal s acts → I (M.exec s acts) := by
  induction acts with
  | nil => exact fun hs _ => hs
  | cons a rest ih => exact fun hs hl => ih (hfire _ _ hs hl.1) hl.2

/-- The first actions of a legal schedule are one. -/
theorem Legal.take {M : Machine σ α} (acts : List α) :
    ∀ {s : σ}, M.Legal s acts → ∀ n, M.Legal s (acts.take n) := by
  induction acts with
  | nil =>
    intro s _ n
    rw [List.take_nil]
    trivial
  | cons a rest ih =>
    intro s h n
    cases n with
    | zero => trivial
    | succ n => exact ⟨h.1, ih h.2 n⟩

/-- A scheduler that only takes the actions in `A` gets stuck, when a measure falls with every
such action and what it relies on (`P`) holds again after each. -/
theorem exists_stuck {M : Machine σ α} {init : σ → Prop} {A : α → Prop} {P : σ → Prop}
    (measure : σ → ℕ)
    (hfire : ∀ s a, P s → A a → M.enabled s a → P (M.fire s a) ∧ measure (M.fire s a) < measure s)
    {s : σ} (hr : (M.system init).Reachable s) (hP : P s) :
    ∃ s', (M.system init).Reachable s' ∧ P s' ∧ ∀ a, A a → ¬M.enabled s' a := by
  induction hn : measure s using Nat.strongRecOn generalizing s with
  | ind n ih =>
    by_cases hstuck : ∀ a, A a → ¬M.enabled s a
    · exact ⟨s, hr, hP, hstuck⟩
    · push Not at hstuck
      obtain ⟨a, ha, hen⟩ := hstuck
      obtain ⟨hP', hlt⟩ := hfire s a hP ha hen
      exact ih _ (hn ▸ hlt) (.step hr ⟨hen, rfl⟩) hP' rfl

/-- The machine with a further guard. -/
def guarded (M : Machine σ α) (C : σ → α → Prop) [∀ s a, Decidable (C s a)] : Machine σ α where
  enabled s a := C s a ∧ M.enabled s a
  decEnabled _ _ := inferInstance
  fire := M.fire

/-- A legal schedule of the guarded machine is a run whose every step meets the guard. -/
theorem reachable_restrict_exec {M : Machine σ α} {init : σ → Prop} {C : σ → α → Prop}
    [∀ s a, Decidable (C s a)] (acts : List α) :
    ∀ {s : σ}, ((M.system init).restrict C).Reachable s → (M.guarded C).Legal s acts →
      ((M.system init).restrict C).Reachable (M.exec s acts) := by
  induction acts with
  | nil => exact fun hr _ => hr
  | cons a rest ih => exact fun hr hl => ih (.step hr ⟨hl.1.1, hl.1.2, rfl⟩) hl.2

end Machine

end EpDemo.Library
