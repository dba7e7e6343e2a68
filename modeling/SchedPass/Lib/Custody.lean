import Mathlib.Data.Multiset.Basic
import Mathlib.Algebra.Order.Group.Multiset
import Mathlib.Tactic.Abel
import SchedPass.Lib.Runs

set_option autoImplicit false

/-! # Custody of work items

A work pool hands items to workers and every item ends up served. An item is waiting, held by a
worker, or served; a worker takes a waiting item or serves one it holds. No step makes or loses an
item, so a pool in which nothing waits and nothing is held has served exactly its items, each as
often as it was put in. -/

universe u

variable {α : Type u}

/-- Where the items of a work pool are. -/
structure Custody (α : Type u) where
  waiting : Multiset α
  held : Multiset α
  served : Multiset α

namespace Custody

/-- One hand-over. -/
inductive Step : Custody α → Custody α → Prop
  /-- A worker takes a waiting item. -/
  | take (a : α) (w h s : Multiset α) : Step ⟨a ::ₘ w, h, s⟩ ⟨w, a ::ₘ h, s⟩
  /-- A worker serves an item it holds. -/
  | serve (a : α) (w h s : Multiset α) : Step ⟨w, a ::ₘ h, s⟩ ⟨w, h, a ::ₘ s⟩

/-- All items of the pool. -/
def items (c : Custody α) : Multiset α := c.waiting + c.held + c.served

theorem items_step {c c' : Custody α} (h : Step c c') : c'.items = c.items := by
  cases h with
  | take a w h s => simp only [items, ← Multiset.singleton_add]; abel
  | serve a w h s => simp only [items, ← Multiset.singleton_add]; abel

theorem items_reaches {c c' : Custody α} (h : Reaches Step c c') : c'.items = c.items :=
  h.invariant (I := fun d => d.items = c.items) (fun _ _ hd hs => (items_step hs).trans hd) rfl

/-- Everything that could be handed over has been. -/
def Quiescent (c : Custody α) : Prop := c.waiting = 0 ∧ c.held = 0

/-- **Exactly once**: a quiescent pool has served exactly the items it started with. -/
theorem served_of_quiescent {c c' : Custody α} (h : Reaches Step c c') (hq : c'.Quiescent) :
    c'.served = c.items := by
  have hitems := items_reaches h
  rwa [items, hq.1, hq.2, zero_add, zero_add] at hitems

end Custody
