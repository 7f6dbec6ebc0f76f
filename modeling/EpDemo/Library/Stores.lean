import Mathlib.Data.List.Perm.Basic
import Mathlib.Logic.Function.Basic

/-!
# `EpDemo.Library.Stores`: memory after some stores

A store is a place and a value. When stores to one place agree, the memory after all of them does
not depend on their order (`storeAll_of_mem`).
-/

set_option autoImplicit false

namespace EpDemo.Library

/-- The memory after some stores, in their order. -/
def storeAll {ι α : Type*} [DecidableEq ι] (mem : ι → α) (stores : List (ι × α)) : ι → α :=
  stores.foldl (fun mem s => Function.update mem s.1 s.2) mem

variable {ι α : Type*} [DecidableEq ι]

/-- A place that nothing is stored to is as it was. -/
theorem storeAll_of_not_mem {stores : List (ι × α)} (mem : ι → α) {i : ι}
    (hi : i ∉ stores.map Prod.fst) : storeAll mem stores i = mem i := by
  induction stores generalizing mem with
  | nil => rfl
  | cons s stores ih =>
    rw [List.map_cons, List.mem_cons, not_or] at hi
    show storeAll (Function.update mem s.1 s.2) stores i = mem i
    rw [ih _ hi.2, Function.update_of_ne hi.1]

/-- A place has the value that all stores to it have. -/
theorem storeAll_of_mem {value : ι → α} {stores : List (ι × α)}
    (hvalue : ∀ s ∈ stores, s.2 = value s.1) (mem : ι → α) {i : ι}
    (hi : i ∈ stores.map Prod.fst) : storeAll mem stores i = value i := by
  induction stores generalizing mem with
  | nil => cases hi
  | cons s stores ih =>
    have hrest : ∀ s' ∈ stores, s'.2 = value s'.1 := fun s' hs' =>
      hvalue s' (List.mem_cons_of_mem s hs')
    show storeAll (Function.update mem s.1 s.2) stores i = value i
    by_cases hlater : i ∈ stores.map Prod.fst
    · exact ih hrest _ hlater
    · -- The store at the head is the last one to the place.
      have hhead : i = s.1 := (List.mem_cons.mp hi).resolve_right hlater
      rw [storeAll_of_not_mem _ hlater, hhead, Function.update_self,
        hvalue s List.mem_cons_self]

end EpDemo.Library
