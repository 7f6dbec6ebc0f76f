import EpDemo.Library.Transition

/-!
# `EpDemo.Library.Handover`: tasks that use one resource in turn

A queue of tasks shares one resource. A new task is launched when every task before it has
released the resource, and from then on its steps interleave with what the older tasks still
do on their own. `Discipline` says what each task has to keep on its own part:

* a task that starts on a clean resource establishes its invariant,
* its own steps keep the invariant,
* a task that releases the resource leaves it clean and is idle,
* an idle task leaves the resource alone and stays idle.

`Discipline.clean_of_released` and `Discipline.clean_of_launch` put this together: the resource
is clean whenever the newest task has released it, and every task finds it clean, for any
number of tasks of any kind.
-/

set_option autoImplicit false

namespace EpDemo.Library

/-- Tasks with states `τ` and steps `α` that share a resource `ρ`. -/
structure Handover (ρ τ α : Type*) where
  /-- What one task does to itself and the resource. -/
  machine : Machine (ρ × τ) α
  /-- A task that can be launched. -/
  starts : τ → Prop
  /-- The task has released the resource. -/
  released : τ → Prop

namespace Handover

variable {ρ τ α : Type*}

/-- The resource and the tasks launched so far, the newest first. -/
structure State (ρ τ : Type*) where
  resource : ρ
  tasks : List τ

/-- What can happen next. -/
inductive Action (τ α : Type*)
  /-- A task is launched. -/
  | launch (t : τ)
  /-- The `i`-th task takes a step. -/
  | act (i : ℕ) (a : α)

/-- The interleavings of the tasks, from a resource in a set of initial ones. -/
def system (H : Handover ρ τ α) (init : ρ → Prop) : TransitionSystem (State ρ τ) (Action τ α) where
  init p := init p.resource ∧ p.tasks = []
  step p a p' :=
    match a with
    | .launch t => H.starts t ∧ (∀ u ∈ p.tasks, H.released u) ∧ p' = ⟨p.resource, t :: p.tasks⟩
    | .act i b => ∃ t, p.tasks[i]? = some t ∧ H.machine.enabled (p.resource, t) b ∧
        p' = ⟨(H.machine.fire (p.resource, t) b).1,
          p.tasks.set i (H.machine.fire (p.resource, t) b).2⟩

/-- A launch is a step. -/
theorem reachable_launch {H : Handover ρ τ α} {init : ρ → Prop} {r : ρ} {t : τ} {rest : List τ}
    (h : (H.system init).Reachable ⟨r, rest⟩) (ht : H.starts t) (hrel : ∀ u ∈ rest, H.released u) :
    (H.system init).Reachable ⟨r, t :: rest⟩ := by
  have hstep : (H.system init).step ⟨r, rest⟩ (.launch t) ⟨r, t :: rest⟩ := ⟨ht, hrel, rfl⟩
  exact .step h hstep

/-- A schedule of the newest task is a run. -/
theorem reachable_exec {H : Handover ρ τ α} {init : ρ → Prop} (acts : List α) :
    ∀ {r : ρ} {t : τ} {rest : List τ}, (H.system init).Reachable ⟨r, t :: rest⟩ →
      H.machine.Legal (r, t) acts →
      (H.system init).Reachable
        ⟨(H.machine.exec (r, t) acts).1, (H.machine.exec (r, t) acts).2 :: rest⟩ := by
  induction acts with
  | nil => exact fun hr _ => hr
  | cons a acts ih =>
    intro r t rest hr hl
    have hstep : (H.system init).step ⟨r, t :: rest⟩ (.act 0 a)
        ⟨(H.machine.fire (r, t) a).1, (H.machine.fire (r, t) a).2 :: rest⟩ :=
      ⟨t, rfl, hl.1, rfl⟩
    exact ih (.step hr hstep) hl.2

/-- What the tasks have to keep, with an invariant of the task that uses the resource and a
condition on the tasks that no longer do. -/
structure Discipline (H : Handover ρ τ α) (clean : ρ → Prop) (Inv : ρ → τ → Prop)
    (Idle : τ → Prop) : Prop where
  starts : ∀ r t, clean r → H.starts t → Inv r t
  fire : ∀ r t a, Inv r t → H.machine.enabled (r, t) a →
    Inv (H.machine.fire (r, t) a).1 (H.machine.fire (r, t) a).2
  released : ∀ r t, Inv r t → H.released t → clean r ∧ Idle t
  idle : ∀ r t a, Idle t → H.machine.enabled (r, t) a →
    (H.machine.fire (r, t) a).1 = r ∧ Idle (H.machine.fire (r, t) a).2

namespace Discipline

variable {H : Handover ρ τ α} {clean init : ρ → Prop} {Inv : ρ → τ → Prop} {Idle : τ → Prop}

/-- The newest task keeps its invariant, and all older ones are idle. -/
def Holds (clean : ρ → Prop) (Inv : ρ → τ → Prop) (Idle : τ → Prop) (p : State ρ τ) : Prop :=
  match p.tasks with
  | [] => clean p.resource
  | t :: rest => Inv p.resource t ∧ ∀ u ∈ rest, Idle u

/-- Between two tasks the resource is clean and nobody uses it. -/
theorem clean_and_idle (hd : H.Discipline clean Inv Idle) {p : State ρ τ}
    (h : Holds clean Inv Idle p) (hrel : ∀ t ∈ p.tasks, H.released t) :
    clean p.resource ∧ ∀ t ∈ p.tasks, Idle t := by
  obtain ⟨r, tasks⟩ := p
  cases tasks with
  | nil => exact ⟨h, fun t ht => absurd ht List.not_mem_nil⟩
  | cons t rest =>
    obtain ⟨hclean, hidle⟩ := hd.released r t h.1 (hrel t List.mem_cons_self)
    refine ⟨hclean, fun u hu => ?_⟩
    cases hu with
    | head => exact hidle
    | tail _ hu => exact h.2 u hu

/-- A step of one of the tasks keeps the discipline. -/
theorem act (hd : H.Discipline clean Inv Idle) {r : ρ} {tasks : List τ} {i : ℕ} {t : τ} {b : α}
    (h : Holds clean Inv Idle ⟨r, tasks⟩) (ht : tasks[i]? = some t)
    (hen : H.machine.enabled (r, t) b) :
    Holds clean Inv Idle
      ⟨(H.machine.fire (r, t) b).1, tasks.set i (H.machine.fire (r, t) b).2⟩ := by
  cases tasks with
  | nil => simp at ht
  | cons u rest =>
    cases i with
    | zero =>
      obtain rfl : u = t := by simpa using ht
      exact ⟨hd.fire _ _ _ h.1 hen, h.2⟩
    | succ i =>
      -- An older task moves: it is idle, so the resource stays as it is.
      have hmem : t ∈ rest := List.mem_of_getElem? (by simpa using ht)
      obtain ⟨hsame, hidle⟩ := hd.idle _ _ _ (h.2 t hmem) hen
      refine ⟨hsame.symm ▸ h.1, fun v hv => ?_⟩
      rcases List.mem_or_eq_of_mem_set hv with hv | rfl
      · exact h.2 v hv
      · exact hidle

/-- The discipline holds in every run. -/
theorem holds (hd : H.Discipline clean Inv Idle) (hinit : ∀ r, init r → clean r) {p : State ρ τ}
    (h : (H.system init).Reachable p) : Holds clean Inv Idle p := by
  refine h.invariant ?_ ?_
  · rintro ⟨r, tasks⟩ ⟨hr, rfl⟩
    show clean r
    exact hinit r hr
  · intro q a q' _ hold hstep
    cases a with
    | launch t =>
      obtain ⟨hstart, hrel, rfl⟩ := hstep
      -- The new task finds the resource clean, since the one before it has let go.
      obtain ⟨hclean, hidle⟩ := hd.clean_and_idle hold hrel
      exact ⟨hd.starts _ _ hclean hstart, hidle⟩
    | act i b =>
      obtain ⟨t, ht, hen, rfl⟩ := hstep
      exact hd.act hold ht hen

/-- The resource is clean when the newest task has released it. -/
theorem clean_of_released (hd : H.Discipline clean Inv Idle) (hinit : ∀ r, init r → clean r)
    {p : State ρ τ} (h : (H.system init).Reachable p) {t : τ} {rest : List τ}
    (htasks : p.tasks = t :: rest) (hrel : H.released t) : clean p.resource := by
  have hold := hd.holds hinit h
  unfold Holds at hold
  rw [htasks] at hold
  exact (hd.released _ _ hold.1 hrel).1

/-- Every task finds the resource clean. -/
theorem clean_of_launch (hd : H.Discipline clean Inv Idle) (hinit : ∀ r, init r → clean r)
    {p p' : State ρ τ} (h : (H.system init).Reachable p) {t : τ}
    (hstep : (H.system init).step p (.launch t) p') : clean p'.resource := by
  obtain ⟨-, hrel, rfl⟩ := hstep
  exact (hd.clean_and_idle (hd.holds hinit h) hrel).1

end Discipline

end Handover

end EpDemo.Library
