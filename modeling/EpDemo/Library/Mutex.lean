import EpDemo.Library.Transition

/-!
# `EpDemo.Library.Mutex`: sections of steps under a lock

Threads run sections of steps on a shared state. A thread takes a lock before a section, by
exchanging the lock word for one until the old word is zero, and stores zero after it. Between the
steps of one thread those of the others come in any order.

`serialized_of_reachable` says that such a run is a sequential one: the shared state is the one
after the finished sections, each run without interruption, in the order in which they released the
lock, and after the first steps of the section whose thread holds the lock, if one does.
-/

set_option autoImplicit false

namespace EpDemo.Library

/-- Sections of steps on a shared state `S`, with local variables `L`. A request says which section
it is. -/
structure Sections (S L R : Type*) where
  /-- The local variables before the first step. -/
  locals : L
  /-- The steps of a section. -/
  steps : R → List (S × L → S × L)

/-- Where a thread is. -/
inductive Place (L R : Type*)
  | outside
  /-- It exchanges the lock word. -/
  | locking (r : R)
  /-- It holds the lock and has done the first `done` steps of the section. -/
  | inside (r : R) (done : ℕ) (locals : L)

/-- The thread is not in a section and does not come to one. -/
def Place.isOutside {L R : Type*} : Place L R → Bool
  | .outside => true
  | _ => false

/-- The lock word, the shared state and the threads. `finished` is the history of the sections. -/
structure Locked (W S L R : Type*) where
  mutex : BitVec 32
  shared : S
  place : W → Place L R
  finished : List (W × R)

/-- What can happen next. -/
inductive LockAction (W R : Type*)
  /-- A thread comes to a section. -/
  | call (w : W) (r : R)
  /-- A thread in or before a section does its next step. -/
  | run (w : W)
  deriving DecidableEq

namespace Sections

variable {W S L R : Type*} [DecidableEq W] (P : Sections S L R)

/-- The first steps of a section, without interruption. -/
def runSteps (r : R) (done : ℕ) (s : S) : S × L :=
  ((P.steps r).take done).foldl (fun x f => f x) (s, P.locals)

/-- A section without interruption. -/
def run (s : S) (r : R) : S := (P.runSteps r (P.steps r).length s).1

/-- Sections one after the other. -/
def runAll (s : S) (rs : List R) : S := rs.foldl P.run s

/-- The guard of an action. -/
def enabled (s : Locked W S L R) : LockAction W R → Prop
  | .call w _ => (s.place w).isOutside = true
  | .run w => (s.place w).isOutside = false

instance decidableEnabled (s : Locked W S L R) : (a : LockAction W R) → Decidable (enabled s a)
  | .call _ _ => inferInstanceAs (Decidable (_ = true))
  | .run _ => inferInstanceAs (Decidable (_ = false))

/-- The state after an action. -/
def fire (s : Locked W S L R) : LockAction W R → Locked W S L R
  | .call w r => { s with place := Function.update s.place w (.locking r) }
  | .run w =>
    match s.place w with
    | .outside => s
    | .locking r =>
      if s.mutex = 0 then
        { s with mutex := 1, place := Function.update s.place w (.inside r 0 P.locals) }
      else { s with mutex := 1 }
    | .inside r done l =>
      match (P.steps r)[done]? with
      | some f =>
        { s with
          shared := (f (s.shared, l)).1
          place := Function.update s.place w (.inside r (done + 1) (f (s.shared, l)).2) }
      | none =>
        { s with
          mutex := 0
          place := Function.update s.place w .outside
          finished := s.finished ++ [(w, r)] }

/-- The threads and the lock. -/
def machine : Machine (Locked W S L R) (LockAction W R) where
  enabled := enabled
  decEnabled := decidableEnabled
  fire := P.fire

/-- Nobody has come yet, and the shared state is `s₀`. -/
def start (s₀ : S) : Locked W S L R where
  mutex := 0
  shared := s₀
  place _ := .outside
  finished := []

/-- The runs from a shared state. -/
def system (s₀ : S) : TransitionSystem (Locked W S L R) (LockAction W R) :=
  P.machine.system fun s => s = start s₀

/-! ### The steps of a section -/

/-- At the start of a section the shared state is as it was found, and the locals are fresh. -/
theorem runSteps_zero (r : R) (s : S) : P.runSteps r 0 s = (s, P.locals) := rfl

/-- The next step of a section is applied to what the steps before it have left. -/
theorem runSteps_succ {r : R} {done : ℕ} {f : S × L → S × L} (h : (P.steps r)[done]? = some f)
    (s : S) : P.runSteps r (done + 1) s = f (P.runSteps r done s) := by
  rw [runSteps, List.take_add_one, h]
  exact List.foldl_append

/-- There is no further step. -/
theorem runSteps_succ_of_none {r : R} {done : ℕ} (h : (P.steps r)[done]? = none) (s : S) :
    P.runSteps r (done + 1) s = P.runSteps r done s := by
  have hend : (P.steps r).take (done + 1) = (P.steps r).take done := by
    rw [List.take_add_one, h, Option.toList_none, List.append_nil]
  rw [runSteps, hend, runSteps]

/-- What the steps keep, the first ones keep. -/
theorem runSteps_invariant {I : S × L → Prop} {r : R} (hstep : ∀ f ∈ P.steps r, ∀ x, I x → I (f x))
    {s : S} (h : I (s, P.locals)) (done : ℕ) : I (P.runSteps r done s) := by
  induction done with
  | zero => exact h
  | succ done ih =>
    cases hf : (P.steps r)[done]? with
    | some f =>
      rw [P.runSteps_succ hf]
      exact hstep f (List.mem_of_getElem? hf) _ ih
    | none =>
      rw [P.runSteps_succ_of_none hf]
      exact ih

/-- What holds from one step to the next holds from the first ones to more of them. -/
theorem runSteps_mono {Q : S × L → S × L → Prop} (hrefl : ∀ x, Q x x)
    (htrans : ∀ x y z, Q x y → Q y z → Q x z) {r : R} (hstep : ∀ f ∈ P.steps r, ∀ x, Q x (f x))
    (s : S) {i j : ℕ} (hij : i ≤ j) : Q (P.runSteps r i s) (P.runSteps r j s) := by
  induction hij with
  | refl => exact hrefl _
  | @step j _ ih =>
    cases hf : (P.steps r)[j]? with
    | some f =>
      rw [P.runSteps_succ hf]
      exact htrans _ _ _ ih (hstep f (List.mem_of_getElem? hf) _)
    | none =>
      rw [P.runSteps_succ_of_none hf]
      exact ih

/-! ### Runs are sequential -/

/-- The thread is in a section. -/
def Inside : Place L R → Prop
  | .inside .. => True
  | _ => False

/-- The lock is free and nobody is in a section, or it is held by the only thread that is in one.
The shared state is that of the finished sections, and of the first steps of the current one. -/
def Serialized (s₀ : S) (s : Locked W S L R) : Prop :=
  (s.mutex = 0 ∧ (∀ w, ¬Inside (s.place w)) ∧
    s.shared = P.runAll s₀ (s.finished.map Prod.snd)) ∨
  (s.mutex = 1 ∧ ∃ w r done l, s.place w = .inside r done l ∧
    (∀ w', w' ≠ w → ¬Inside (s.place w')) ∧ done ≤ (P.steps r).length ∧
    (s.shared, l) = P.runSteps r done (P.runAll s₀ (s.finished.map Prod.snd)))

variable {P}

/-- Who is inside after one party has moved: that party, or another one that was inside before. -/
theorem inside_update {s : Locked W S L R} {w w' : W} {p : Place L R}
    (h : Inside (Function.update s.place w p w')) : (w' = w ∧ Inside p) ∨
      (w' ≠ w ∧ Inside (s.place w')) := by
  by_cases hw : w' = w
  · subst hw
    rw [Function.update_self] at h
    exact .inl ⟨rfl, h⟩
  · rw [Function.update_of_ne hw] at h
    exact .inr ⟨hw, h⟩

/-- A thread that moves outside of its section changes nothing else. -/
theorem Serialized.update {s₀ : S} {s : Locked W S L R} {w : W} {p : Place L R}
    (h : P.Serialized s₀ s) (hout : ¬Inside (s.place w)) (hp : ¬Inside p) :
    P.Serialized s₀ { s with place := Function.update s.place w p } := by
  cases h with
  | inl hfree =>
    -- Nobody is inside, and nobody comes in.
    refine .inl ⟨hfree.1, fun w' hin => ?_, hfree.2.2⟩
    cases inside_update hin with
    | inl hself => exact hp hself.2
    | inr hother => exact hfree.2.1 w' hother.2
  | inr hheld =>
    obtain ⟨hmutex, v, r, done, l, hv, hothers, hle, hshared⟩ := hheld
    -- The one who is inside is not `w`, so its place is kept.
    have hne : v ≠ w := by
      intro heq
      rw [← heq, hv] at hout
      exact hout trivial
    refine .inr ⟨hmutex, v, r, done, l, ?_, fun w' hw' hin => ?_, hle, hshared⟩
    · show Function.update s.place w p v = _
      rw [Function.update_of_ne hne, hv]
    · cases inside_update hin with
      | inl hself => exact hp hself.2
      | inr hother => exact hothers w' hw' hother.2

/-- The thread that finds the lock free starts its section. -/
theorem Serialized.acquire {s₀ : S} {s : Locked W S L R} {w : W} {r : R}
    (h : P.Serialized s₀ s) (hzero : s.mutex = 0) :
    P.Serialized s₀
      { s with mutex := 1, place := Function.update s.place w (.inside r 0 P.locals) } := by
  cases h with
  | inl hfree =>
    refine .inr ⟨rfl, w, r, 0, P.locals, Function.update_self .., fun w' hw' hin => ?_,
      Nat.zero_le _, ?_⟩
    · -- `w` is alone, since nobody was inside before.
      cases inside_update hin with
      | inl hself => exact hw' hself.1
      | inr hother => exact hfree.2.1 w' hother.2
    · rw [runSteps_zero]
      exact congrArg (·, P.locals) hfree.2.2
  | inr hheld =>
    -- A lock that is held is not zero.
    rw [hheld.1] at hzero
    exact absurd hzero (by decide)

/-- The thread in a section holds the lock. -/
theorem Serialized.of_inside {s₀ : S} {s : Locked W S L R} {w : W} {r : R} {done : ℕ} {l : L}
    (h : P.Serialized s₀ s) (hw : s.place w = .inside r done l) :
    s.mutex = 1 ∧ (∀ w', w' ≠ w → ¬Inside (s.place w')) ∧ done ≤ (P.steps r).length ∧
      (s.shared, l) = P.runSteps r done (P.runAll s₀ (s.finished.map Prod.snd)) := by
  have hin : Inside (s.place w) := by
    rw [hw]
    trivial
  cases h with
  | inl hfree => exact absurd hin (hfree.2.1 w)
  | inr hheld =>
    obtain ⟨hmutex, v, r', done', l', hv, hothers, hle, hshared⟩ := hheld
    -- Only one party is inside, and `w` is.
    have heq : w = v := by
      by_contra hne
      exact hothers w hne hin
    subst heq
    rw [hw] at hv
    cases hv
    exact ⟨hmutex, hothers, hle, hshared⟩

/-- One step of the thread that holds the lock. -/
theorem Serialized.advance {s₀ : S} {s : Locked W S L R} {w : W} {r : R} {done : ℕ} {l : L}
    {f : S × L → S × L} (h : P.Serialized s₀ s) (hw : s.place w = .inside r done l)
    (hf : (P.steps r)[done]? = some f) :
    P.Serialized s₀ { s with
      shared := (f (s.shared, l)).1
      place := Function.update s.place w (.inside r (done + 1) (f (s.shared, l)).2) } := by
  obtain ⟨hmutex, hothers, -, hshared⟩ := h.of_inside hw
  have hlt : done < (P.steps r).length := (List.getElem?_eq_some_iff.mp hf).1
  refine .inr ⟨hmutex, w, r, done + 1, _, Function.update_self .., fun w' hw' hin => ?_, hlt, ?_⟩
  · cases inside_update hin with
    | inl hself => exact hw' hself.1
    | inr hother => exact hothers w' hw' hother.2
  · -- One step of the section is one step of the run that nobody interrupts.
    show f (s.shared, l) = _
    rw [runSteps_succ P hf, ← hshared]

/-- The thread that holds the lock releases it after the last step. -/
theorem Serialized.release {s₀ : S} {s : Locked W S L R} {w : W} {r : R} {done : ℕ} {l : L}
    (h : P.Serialized s₀ s) (hw : s.place w = .inside r done l) (hf : (P.steps r)[done]? = none) :
    P.Serialized s₀ { s with
      mutex := 0
      place := Function.update s.place w .outside
      finished := s.finished ++ [(w, r)] } := by
  obtain ⟨-, hothers, hle, hshared⟩ := h.of_inside hw
  have hend : done = (P.steps r).length := Nat.le_antisymm hle (List.getElem?_eq_none_iff.mp hf)
  refine .inl ⟨rfl, fun w' hin => ?_, ?_⟩
  · cases inside_update hin with
    | inl hself => exact hself.2
    | inr hother => exact hothers w' hother.1 hother.2
  · -- The whole section has been run, on top of those before it.
    show s.shared = P.runAll s₀ ((s.finished ++ [(w, r)]).map Prod.snd)
    rw [List.map_append, runAll, List.foldl_append]
    show s.shared = P.run (P.runAll s₀ _) r
    rw [run, ← hend, ← hshared]

/-- What one action keeps. -/
theorem Serialized.fire {s₀ : S} {s : Locked W S L R} (h : P.Serialized s₀ s) (a : LockAction W R)
    (hen : enabled s a) : P.Serialized s₀ (P.fire s a) := by
  cases a with
  | call w r =>
    refine h.update ?_ fun hin => hin
    intro hin
    have hout : (s.place w).isOutside = true := hen
    cases hw : s.place w with
    | outside =>
      rw [hw] at hin
      exact hin
    | locking =>
      rw [hw] at hout
      cases hout
    | inside =>
      rw [hw] at hout
      cases hout
  | run w =>
    rw [Sections.fire]
    split
    case h_1 => exact h
    case h_2 r hw =>
      split
      case isTrue hzero => exact h.acquire hzero
      case isFalse hheld =>
        -- The word is one already, and the thread tries again.
        cases h with
        | inl hfree => exact absurd hfree.1 hheld
        | inr hheld => exact .inr ⟨rfl, hheld.2⟩
    case h_3 r done l hw =>
      split
      case h_1 f hf => exact h.advance hw hf
      case h_2 hf => exact h.release hw hf

/-- A run under the lock is a sequential run of the finished sections and the first steps of the one
whose thread holds the lock. -/
theorem serialized_of_reachable {s₀ : S} {s : Locked W S L R} (h : (P.system s₀).Reachable s) :
    P.Serialized s₀ s := by
  induction h with
  | init hinit =>
    rw [hinit]
    exact .inl ⟨rfl, fun _ hin => hin, rfl⟩
  | step _ hs ih =>
    obtain ⟨hen, rfl⟩ := hs
    exact ih.fire _ hen

/-! ### How far the sections are -/

/-- The sections that have done `n` of their steps, in the order in which they take the lock: the
finished ones, and the current one if it got so far. -/
inductive Begun (n : ℕ) (s : Locked W S L R) : List R → Prop
  | finished (h : ∀ w r done l, s.place w = .inside r done l → done < n) :
    Begun n s (s.finished.map Prod.snd)
  | current {w : W} {r : R} {done : ℕ} {l : L} (hw : s.place w = .inside r done l) (h : n ≤ done) :
    Begun n s (s.finished.map Prod.snd ++ [r])

/-- A thread that is in a section is the only one. -/
theorem Serialized.eq_of_inside {s₀ : S} {s : Locked W S L R} {w w' : W} {r r' : R} {done done' : ℕ}
    {l l' : L} (h : P.Serialized s₀ s) (hw : s.place w = .inside r done l)
    (hw' : s.place w' = .inside r' done' l') : w' = w := by
  by_contra hne
  refine (h.of_inside hw).2.1 w' hne ?_
  rw [hw']
  trivial

/-- There is one list of them. -/
theorem Begun.unique {s₀ : S} {s : Locked W S L R} {n : ℕ} {rs rs' : List R}
    (h : P.Serialized s₀ s) (hb : Begun n s rs) (hb' : Begun n s rs') : rs = rs' := by
  cases hb with
  | finished hall =>
    -- No section is at its last step, so none has begun but the finished ones.
    cases hb' with
    | finished => rfl
    | current hw hle => exact absurd (hall _ _ _ _ hw) (by omega)
  | current hw hle =>
    cases hb' with
    | finished hall => exact absurd (hall _ _ _ _ hw) (by omega)
    | current hw' =>
      -- Only one section can be under way.
      rw [h.eq_of_inside hw hw', hw] at hw'
      cases hw'
      rfl

omit [DecidableEq W] in
/-- There is one. -/
theorem exists_begun (s : Locked W S L R) (n : ℕ) : ∃ rs, Begun n s rs := by
  by_cases hall : ∀ w r done l, s.place w = .inside r done l → done < n
  · exact ⟨_, .finished hall⟩
  · push Not at hall
    obtain ⟨w, r, done, l, hw, hle⟩ := hall
    exact ⟨_, .current hw (by omega)⟩

/-- Those that got further are among them. -/
theorem Begun.prefix {s₀ : S} {s : Locked W S L R} {m n : ℕ} {rs rs' : List R}
    (h : P.Serialized s₀ s) (hb : Begun m s rs) (hb' : Begun n s rs') (hmn : m ≤ n) :
    rs' <+: rs := by
  cases hb' with
  | finished =>
    cases hb with
    | finished => exact List.prefix_refl _
    | current => exact List.prefix_append _ _
  | current hw' hle =>
    refine (hb.unique h (.current hw' (Nat.le_trans hmn hle))) ▸ List.prefix_refl _

/-- The thread of the current section does its next step: the section comes to the list with its
step number `n`. -/
theorem Begun.advance {s₀ : S} {s s' : Locked W S L R} {w : W} {r : R} {done n : ℕ} {l l' : L}
    {rs : List R} (h : P.Serialized s₀ s) (hb : Begun n s rs) (hw : s.place w = .inside r done l)
    (hplace : s'.place = Function.update s.place w (.inside r (done + 1) l'))
    (hfinished : s'.finished = s.finished) :
    Begun n s' (if done + 1 = n then rs ++ [r] else rs) := by
  have hself : s'.place w = .inside r (done + 1) l' := by rw [hplace, Function.update_self]
  cases hb with
  | finished hall =>
    -- No section was far enough before. This one is now, or none is.
    have hlt := hall _ _ _ _ hw
    split_ifs with heq
    · rw [← hfinished]
      exact .current hself (Nat.le_of_eq heq.symm)
    · rw [← hfinished]
      refine .finished fun w' r' done' l₁ hw' => ?_
      have hsame : w' = w := by
        by_contra hne
        rw [hplace, Function.update_of_ne hne] at hw'
        exact hne (h.eq_of_inside hw hw')
      rw [hsame, hself] at hw'
      cases hw'
      omega
  | current hv hle =>
    have hsame := h.eq_of_inside hw hv
    rw [hsame, hw] at hv
    cases hv
    rw [if_neg (by omega), ← hfinished]
    exact .current hself (by omega)

/-- What an action does to the list, for a number of steps that every section has: it stays, or the
section of the acting thread comes to it. -/
theorem Begun.fire {s₀ : S} {s : Locked W S L R} {n : ℕ} {rs : List R} (h : P.Serialized s₀ s)
    (hb : Begun n s rs) (hpos : 0 < n) (hlen : ∀ r, n ≤ (P.steps r).length) (a : LockAction W R)
    (hen : enabled s a) :
    Begun n (P.fire s a) rs ∨ ∃ w r done l, a = .run w ∧ s.place w = .inside r done l ∧
      done + 1 = n ∧ Begun n (P.fire s a) (rs ++ [r]) := by
  -- A thread that moves outside of the sections.
  have hmove : ∀ {w : W} {p : Place L R} {m : BitVec 32}, ¬Inside (s.place w) →
      (∀ r done l, p = .inside r done l → done < n) →
      Begun n { s with mutex := m, place := Function.update s.place w p } rs := by
    intro w p m hout hp
    cases hb with
    | finished hall =>
      refine .finished (s := { s with mutex := m, place := Function.update s.place w p })
        fun w' r done l hw' => ?_
      replace hw' : Function.update s.place w p w' = .inside r done l := hw'
      by_cases hne : w' = w
      · rw [hne, Function.update_self] at hw'
        exact hp _ _ _ hw'
      · rw [Function.update_of_ne hne] at hw'
        exact hall _ _ _ _ hw'
    | @current v r done l hv hle =>
      have hne : v ≠ w := by
        intro heq
        rw [← heq, hv] at hout
        exact hout trivial
      refine .current (s := { s with mutex := m, place := Function.update s.place w p }) (w := v)
        (l := l) ?_ hle
      show Function.update s.place w p v = _
      rw [Function.update_of_ne hne, hv]
  cases a with
  | call w r =>
    left
    refine hmove (fun hin => ?_) fun _ _ _ hp => by cases hp
    have hout : (s.place w).isOutside = true := hen
    cases hw : s.place w with
    | outside =>
      rw [hw] at hin
      exact hin
    | locking =>
      rw [hw] at hout
      cases hout
    | inside =>
      rw [hw] at hout
      cases hout
  | run w =>
    cases hw : s.place w with
    | outside =>
      left
      rw [Sections.fire, hw]
      exact hb
    | locking r =>
      left
      have hout : ¬Inside (s.place w) := by
        rw [hw]
        exact fun hin => hin
      rw [Sections.fire, hw]
      dsimp only
      split
      case isTrue =>
        refine hmove hout fun _ _ _ hp => ?_
        cases hp
        exact hpos
      case isFalse =>
        cases hb with
        | finished hall => exact .finished (s := { s with mutex := 1 }) hall
        | current hv hle => exact .current (s := { s with mutex := 1 }) hv hle
    | inside r done l =>
      cases hf : (P.steps r)[done]? with
      | some f =>
        have hfire : P.fire s (.run w) = { s with
            shared := (f (s.shared, l)).1
            place := Function.update s.place w (.inside r (done + 1) (f (s.shared, l)).2) } := by
          rw [Sections.fire, hw]
          dsimp only
          rw [hf]
        have hadvance : Begun n (P.fire s (.run w)) (if done + 1 = n then rs ++ [r] else rs) := by
          rw [hfire]
          exact hb.advance h hw rfl rfl
        by_cases heq : done + 1 = n
        · rw [if_pos heq] at hadvance
          exact .inr ⟨w, r, done, l, rfl, hw, heq, hadvance⟩
        · rw [if_neg heq] at hadvance
          exact .inl hadvance
      | none =>
        -- The section has done all of its steps.
        left
        have hend : n ≤ done := Nat.le_trans (hlen r) (List.getElem?_eq_none_iff.mp hf)
        rw [hb.unique h (.current hw hend)]
        have hfire : P.fire s (.run w) = { s with
            mutex := 0
            place := Function.update s.place w .outside
            finished := s.finished ++ [(w, r)] } := by
          rw [Sections.fire, hw]
          dsimp only
          rw [hf]
        have hmap : s.finished.map Prod.snd ++ [r] = (P.fire s (.run w)).finished.map Prod.snd := by
          rw [hfire, List.map_append]
          rfl
        rw [hmap]
        refine .finished fun w' r' done' l' hw' => ?_
        rw [hfire] at hw'
        replace hw' : Function.update s.place w .outside w' = .inside r' done' l' := hw'
        by_cases hne : w' = w
        · rw [hne, Function.update_self] at hw'
          cases hw'
        · rw [Function.update_of_ne hne] at hw'
          exact absurd (h.eq_of_inside hw hw') hne

end Sections

end EpDemo.Library
