/-
Wjos.Lib.Queues — a family of FIFO queues over one set of objects.

`q : π → List α` gives the contents of the queue at each place. `Placed q`
says that an object stands in at most one queue and at most once in it.
`enqueue` appends at one place, `dequeue` takes an object out of one
place; both keep `Placed` under the obvious condition, and membership
afterwards is described exactly.

A scheduler whose ready, sleep and wait lists share one link per task is
an instance, but nothing here depends on that.
-/
import Mathlib.Data.List.Nodup
import Mathlib.Tactic.Common

namespace Wjos.Lib

variable {π α : Type*} [DecidableEq π] [DecidableEq α]

/-- `a` joins the queue at `p` as its last member. -/
def enqueue (q : π → List α) (p : π) (a : α) : π → List α := Function.update q p (q p ++ [a])

/-- `a` leaves the queue at `p`. -/
def dequeue (q : π → List α) (p : π) (a : α) : π → List α := Function.update q p ((q p).erase a)

/-- No object stands twice anywhere. -/
structure Placed (q : π → List α) : Prop where
  apart : ∀ p r a, a ∈ q p → a ∈ q r → p = r
  nodup : ∀ p, (q p).Nodup

omit [DecidableEq α] in
@[simp] theorem enqueue_self (q : π → List α) (p : π) (a : α) :
    enqueue q p a p = q p ++ [a] := Function.update_self ..

omit [DecidableEq α] in
theorem enqueue_of_ne (q : π → List α) {p r : π} (a : α) (h : r ≠ p) :
    enqueue q p a r = q r := Function.update_of_ne h ..

@[simp] theorem dequeue_self (q : π → List α) (p : π) (a : α) :
    dequeue q p a p = (q p).erase a := Function.update_self ..

theorem dequeue_of_ne (q : π → List α) {p r : π} (a : α) (h : r ≠ p) :
    dequeue q p a r = q r := Function.update_of_ne h ..

omit [DecidableEq α] in
theorem mem_enqueue {q : π → List α} {p r : π} {a b : α} :
    b ∈ enqueue q p a r ↔ b ∈ q r ∨ r = p ∧ b = a := by
  by_cases h : r = p
  · subst h
    simp
  · simp [enqueue_of_ne q a h, h]

theorem mem_dequeue {q : π → List α} (hq : Placed q) {p r : π} {a b : α} :
    b ∈ dequeue q p a r ↔ b ∈ q r ∧ ¬ (r = p ∧ b = a) := by
  by_cases h : r = p
  · subst h
    rw [dequeue_self, (hq.nodup r).mem_erase_iff]
    simp [and_comm]
  · simp [dequeue_of_ne q a h, h]

/-- An object that stood at `p` stands nowhere after it left. -/
theorem notMem_dequeue {q : π → List α} (hq : Placed q) {p : π} {a : α} (ha : a ∈ q p) (r : π) :
    a ∉ dequeue q p a r := by
  rw [mem_dequeue hq]
  rintro ⟨hr, hne⟩
  exact hne ⟨hq.apart r p a hr ha, rfl⟩

omit [DecidableEq α] in
/-- An object that stands nowhere may join any queue. -/
theorem Placed.enqueue {q : π → List α} (hq : Placed q) {p : π} {a : α} (ha : ∀ r, a ∉ q r) :
    Placed (enqueue q p a) where
  apart := by
    intro r₁ r₂ b h₁ h₂
    rcases mem_enqueue.mp h₁ with m₁ | ⟨hr₁, hb⟩
    · rcases mem_enqueue.mp h₂ with m₂ | ⟨-, hb⟩
      · exact hq.apart r₁ r₂ b m₁ m₂
      · exact absurd (hb ▸ m₁) (ha r₁)
    · rcases mem_enqueue.mp h₂ with m₂ | ⟨hr₂, -⟩
      · exact absurd (hb ▸ m₂) (ha r₂)
      · rw [hr₁, hr₂]
  nodup := by
    intro r
    by_cases h : r = p
    · subst h
      rw [enqueue_self, List.nodup_append]
      refine ⟨hq.nodup r, by simp, ?_⟩
      rintro b hb c hc rfl
      exact ha r ((List.mem_singleton.mp hc) ▸ hb)
    · rw [enqueue_of_ne q a h]
      exact hq.nodup r

/-- Leaving a queue keeps the others apart. -/
theorem Placed.dequeue {q : π → List α} (hq : Placed q) (p : π) (a : α) :
    Placed (dequeue q p a) where
  apart := fun r₁ r₂ b h₁ h₂ =>
    hq.apart r₁ r₂ b ((mem_dequeue hq).mp h₁).1 ((mem_dequeue hq).mp h₂).1
  nodup := by
    intro r
    by_cases h : r = p
    · subst h
      rw [dequeue_self]
      exact (hq.nodup r).erase a
    · rw [dequeue_of_ne q a h]
      exact hq.nodup r

omit [DecidableEq π] in
/-- Taking a member out of a duplicate-free queue, with the split shown. -/
theorem Placed.erase_split {q : π → List α} (hq : Placed q) {p : π} {a : α} {s t : List α}
    (h : q p = s ++ a :: t) : (q p).erase a = s ++ t := by
  have hnd := hq.nodup p
  rw [h] at hnd ⊢
  have hns : a ∉ s := fun hs => (List.nodup_append.mp hnd).2.2 a hs a (by simp) rfl
  rw [List.erase_append_right _ hns, List.erase_cons_head]

end Wjos.Lib
