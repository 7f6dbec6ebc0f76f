import Mathlib.Data.List.Perm.Basic
import Mathlib.Data.List.Nodup

/-!
# `EpDemo.Library.Ledger`: what was acquired and what was released

A ledger numbers the resources of a program as they are acquired and records what is released.
`Holds l live` is the accounting equation: what was acquired is what is still live together with
what was released. Acquiring adds to `live`, releasing takes from it, so a program that keeps track
of what it holds keeps the equation by one step for each call (`Holds.acquire`, `Holds.release`).

`Balanced` is that everything was released exactly once and nothing else was, and a ledger is
balanced if and only if nothing is live (`Holds.balanced_iff`). `Settled l l'` is that whatever was
acquired between the two ledgers was released again.

A program mostly keeps the number of a resource in a slot, such as a member. `held` are the
resources that a list of slots owns. To acquire into an empty slot, to acquire over a full one and
to release from a slot are the three steps that keep the equation (`Holds.fill`, `Holds.overwrite`,
`Holds.clear`). The second one loses a resource.
-/

set_option autoImplicit false

namespace EpDemo.Library

/-- A resource: what it is, and its number. -/
abbrev Ledger.Entry (κ : Type*) := κ × ℕ

/-- The resources acquired and released so far, the last one first. -/
structure Ledger (κ : Type*) where
  /-- The number of the next resource. -/
  next : ℕ
  acquired : List (Ledger.Entry κ)
  released : List (Ledger.Entry κ)
  deriving DecidableEq

namespace Ledger

variable {κ : Type*}

/-- Nothing was acquired. -/
def empty : Ledger κ := ⟨0, [], []⟩

/-- Acquire a resource. Its number is `l.next`. -/
def acquire (l : Ledger κ) (k : κ) : Ledger κ :=
  ⟨l.next + 1, (k, l.next) :: l.acquired, l.released⟩

/-- Release a resource. -/
def release (l : Ledger κ) (r : Entry κ) : Ledger κ := { l with released := r :: l.released }

/-- Each new resource gets the next number. -/
@[simp] theorem next_acquire (l : Ledger κ) (k : κ) : (l.acquire k).next = l.next + 1 := rfl

/-- A release does not give numbers back. -/
@[simp] theorem next_release (l : Ledger κ) (r : Entry κ) : (l.release r).next = l.next := rfl

/-- Everything that was acquired was released exactly once, and nothing else was released. -/
def Balanced [DecidableEq κ] (l : Ledger κ) : Prop :=
  (∀ r ∈ l.acquired, l.released.count r = 1) ∧ ∀ r ∈ l.released, r ∈ l.acquired

instance [DecidableEq κ] (l : Ledger κ) : Decidable l.Balanced :=
  inferInstanceAs (Decidable (_ ∧ _))

/-- Whatever was acquired between two ledgers was released exactly once, and nothing else was
released. -/
def Settled (l l' : Ledger κ) : Prop :=
  ∃ new, new.Nodup ∧ l'.acquired = new ++ l.acquired ∧ l'.released.Perm (new ++ l.released)

/-! ### The accounting equation -/

/-- `live` is what was acquired and not released. -/
structure Holds (l : Ledger κ) (live : List (Entry κ)) : Prop where
  fresh : ∀ r ∈ l.acquired, r.2 < l.next
  nodup : l.acquired.Nodup
  accounts : l.acquired.Perm (live ++ l.released)

namespace Holds

variable {l : Ledger κ} {live live' : List (Entry κ)}

/-- Nothing is held at the start. -/
theorem empty : (Ledger.empty : Ledger κ).Holds [] where
  fresh := by simp [Ledger.empty]
  nodup := .nil
  accounts := .nil

/-- The order of what is live does not matter. -/
theorem perm (h : l.Holds live) (hp : live.Perm live') : l.Holds live' where
  fresh := h.fresh
  nodup := h.nodup
  accounts := h.accounts.trans (hp.append_right _)

/-- What is live was acquired. -/
theorem mem_acquired (h : l.Holds live) {r : Entry κ} (hr : r ∈ live) : r ∈ l.acquired :=
  h.accounts.mem_iff.mpr (List.mem_append_left _ hr)

/-- The number of the next resource is not in use. -/
theorem next_notMem (h : l.Holds live) (k : κ) : (k, l.next) ∉ l.acquired :=
  fun hmem => Nat.lt_irrefl _ (h.fresh _ hmem)

/-- A resource is acquired. -/
theorem acquire (h : l.Holds live) (k : κ) : (l.acquire k).Holds ((k, l.next) :: live) where
  fresh r hr := by
    rcases List.mem_cons.mp hr with rfl | hr
    · exact Nat.lt_succ_self _
    · exact Nat.lt_succ_of_lt (h.fresh r hr)
  nodup := List.nodup_cons.mpr ⟨h.next_notMem k, h.nodup⟩
  accounts := h.accounts.cons _

/-- A live resource is released. -/
theorem release {r : Entry κ} (h : l.Holds (r :: live)) : (l.release r).Holds live where
  fresh := h.fresh
  nodup := h.nodup
  accounts := h.accounts.trans List.perm_middle.symm

/-- Everything was released exactly once if and only if nothing is live. -/
theorem balanced_iff [DecidableEq κ] (h : l.Holds live) : l.Balanced ↔ live = [] := by
  constructor
  · intro hbal
    rw [List.eq_nil_iff_forall_not_mem]
    intro r hr
    -- A live resource that was released too would be there twice.
    have hmem : r ∈ l.released := by
      have hone := hbal.1 r (h.mem_acquired hr)
      exact List.count_pos_iff.mp (by omega)
    have hnodup := h.accounts.nodup_iff.mp h.nodup
    exact (List.nodup_append.mp hnodup).2.2 r hr r hmem rfl
  · rintro rfl
    have hperm : l.acquired.Perm l.released := h.accounts
    refine ⟨fun r hr => ?_, fun r hr => hperm.mem_iff.mpr hr⟩
    rw [← hperm.count_eq]
    exact List.count_eq_one_of_mem h.nodup hr

end Holds

/-- Nothing was acquired and nothing was released. -/
theorem Settled.refl (l : Ledger κ) : l.Settled l := ⟨[], .nil, rfl, .refl _⟩

/-! ### Slots -/

section

variable {ι : Type*}

/-- The resources that the slots `is` own. Slot `i` holds the number of a resource of the kind
`kind i`, or nothing. -/
def held (kind : ι → κ) (is : List ι) (slot : ι → Option ℕ) : List (Entry κ) :=
  is.filterMap fun i => (slot i).map fun id => (kind i, id)

variable {kind : ι → κ} {is : List ι} {slot slot' : ι → Option ℕ} {i : ι} {id : ℕ}

/-- The resources of a list of slots are those of the first and those of the others. -/
theorem held_cons (i : ι) (is : List ι) (slot : ι → Option ℕ) :
    held kind (i :: is) slot =
      ((slot i).map fun id => (kind i, id)).toList ++ held kind is slot := by
  unfold held
  cases h : slot i <;> simp [h]

/-- Only the slots of the list matter. -/
theorem held_congr (h : ∀ i ∈ is, slot i = slot' i) : held kind is slot = held kind is slot' := by
  induction is with
  | nil => rfl
  | cons i is ih =>
    rw [held_cons, held_cons, h i List.mem_cons_self,
      ih fun j hj => h j (List.mem_cons_of_mem _ hj)]

/-- The slots own nothing when they are all empty. -/
theorem held_eq_nil : held kind is slot = [] ↔ ∀ i ∈ is, slot i = none := by
  simp [held]

/-- A slot that is full owns one resource more than when it is empty. -/
theorem held_update [DecidableEq ι] (kind : ι → κ) (hnodup : is.Nodup) (hi : i ∈ is)
    (slot : ι → Option ℕ) (id : ℕ) :
    (held kind is (Function.update slot i (some id))).Perm
      ((kind i, id) :: held kind is (Function.update slot i none)) := by
  induction is with
  | nil => exact absurd hi List.not_mem_nil
  | cons j is ih =>
    rw [List.nodup_cons] at hnodup
    rw [held_cons, held_cons]
    by_cases hji : j = i
    · -- The other slots of the list are other slots.
      subst hji
      have hrest : held kind is (Function.update slot j (some id)) =
          held kind is (Function.update slot j none) := by
        refine held_congr fun k hk => ?_
        have hkj : k ≠ j := fun h => hnodup.1 (h ▸ hk)
        rw [Function.update_of_ne hkj, Function.update_of_ne hkj]
      rw [hrest, Function.update_self, Function.update_self]
      exact .refl _
    · have htail := ih hnodup.2 ((List.mem_cons.mp hi).resolve_left (Ne.symm hji))
      rw [Function.update_of_ne hji, Function.update_of_ne hji]
      exact (htail.append_left _).trans List.perm_middle

variable {l : Ledger κ} {rest : List (Entry κ)} [DecidableEq ι]

/-- A resource is acquired into an empty slot. -/
theorem Holds.fill (kind : ι → κ) (h : l.Holds (held kind is slot ++ rest)) (hnodup : is.Nodup)
    (hi : i ∈ is) (hempty : slot i = none) :
    (l.acquire (kind i)).Holds (held kind is (Function.update slot i (some l.next)) ++ rest) := by
  have hsame : Function.update slot i none = slot := by rw [← hempty, Function.update_eq_self]
  have hperm := held_update kind hnodup hi slot l.next
  rw [hsame] at hperm
  exact (h.acquire (kind i)).perm (hperm.append_right rest).symm

/-- A slot that is full owns this resource and those of the other slots. -/
theorem held_perm (kind : ι → κ) (hnodup : is.Nodup) (hi : i ∈ is) (hfull : slot i = some id) :
    (held kind is slot).Perm ((kind i, id) :: held kind is (Function.update slot i none)) := by
  have hsame : Function.update slot i (some id) = slot := by rw [← hfull, Function.update_eq_self]
  have hperm := held_update kind hnodup hi slot id
  rwa [hsame] at hperm

/-- A resource is acquired over another one, which no slot owns any more. -/
theorem Holds.overwrite (kind : ι → κ) (h : l.Holds (held kind is slot ++ rest))
    (hnodup : is.Nodup) (hi : i ∈ is) (hfull : slot i = some id) :
    (l.acquire (kind i)).Holds
      (held kind is (Function.update slot i (some l.next)) ++ (kind i, id) :: rest) := by
  have hold := held_perm kind hnodup hi hfull
  have hnew := held_update kind hnodup hi slot l.next
  refine (h.acquire (kind i)).perm ?_
  refine ((hold.append_right rest).cons _).trans ?_
  exact ((List.perm_middle.symm).cons _).trans (hnew.append_right _).symm

/-- The resource of a slot is released. -/
theorem Holds.clear (kind : ι → κ) (h : l.Holds (held kind is slot ++ rest)) (hnodup : is.Nodup)
    (hi : i ∈ is) (hfull : slot i = some id) :
    (l.release (kind i, id)).Holds (held kind is (Function.update slot i none) ++ rest) :=
  (h.perm ((held_perm kind hnodup hi hfull).append_right rest)).release

end

end Ledger

end EpDemo.Library
