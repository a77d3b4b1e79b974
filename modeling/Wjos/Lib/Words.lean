/-
Wjos.Lib.Words — the words of a list: its maximal parts without a separator.

`words sep s` are the parts between the separators, without the empty ones.
A program that walks along the list meets a separator, which `words_sep`
skips, or a word, which `words_word` and `words_last` take off. `words_split`
says that there is nothing else to meet.
-/
import Mathlib.Data.List.Basic
import Mathlib.Tactic.Common

namespace Wjos.Lib

variable {α : Type*} [DecidableEq α] {sep : α} {s w : List α}

/-- The maximal parts of `s` that are not empty and do not hold `sep`. -/
def words (sep : α) (s : List α) : List (List α) := (s.splitOn sep).filter (· ≠ [])

@[simp] theorem words_nil (sep : α) : words sep [] = [] := by
  simp [words]

theorem words_sep (sep : α) (s : List α) : words sep (sep :: s) = words sep s := by
  have h := List.splitOn_append_cons_self_of_not_mem (List.not_mem_nil (a := sep)) s
  rw [List.nil_append] at h
  rw [words, h]
  rfl

/-- Separators in front do not matter. -/
theorem words_replicate (sep : α) (k : Nat) (s : List α) :
    words sep (List.replicate k sep ++ s) = words sep s := by
  induction k with
  | zero => rfl
  | succ k ih => rw [List.replicate_succ, List.cons_append, words_sep, ih]

/-- A word with a separator behind it. -/
theorem words_word (hne : w ≠ []) (hw : sep ∉ w) (s : List α) :
    words sep (w ++ sep :: s) = w :: words sep s := by
  rw [words, List.splitOn_append_cons_self_of_not_mem hw,
    List.filter_cons_of_pos (by simpa using hne)]
  rfl

/-- A word at the end. -/
theorem words_last (hne : w ≠ []) (hw : sep ∉ w) : words sep w = [w] := by
  rw [words, List.splitOn_eq_singleton hw, List.filter_cons_of_pos (by simpa using hne)]
  rfl

/-- Behind its first separators a list is at its end, or has its last word, or
a word and a separator. -/
theorem words_split (sep : α) (s : List α) :
    (∃ k, s = List.replicate k sep) ∨
      (∃ k w, s = List.replicate k sep ++ w ∧ w ≠ [] ∧ sep ∉ w) ∨
      ∃ k w r, s = List.replicate k sep ++ (w ++ sep :: r) ∧ w ≠ [] ∧ sep ∉ w := by
  induction s with
  | nil => exact .inl ⟨0, rfl⟩
  | cons c s ih =>
    by_cases hc : c = sep
    · subst hc
      rcases ih with ⟨k, rfl⟩ | ⟨k, w, rfl, hne, hw⟩ | ⟨k, w, r, rfl, hne, hw⟩
      · exact .inl ⟨k + 1, rfl⟩
      · exact .inr (.inl ⟨k + 1, w, rfl, hne, hw⟩)
      · exact .inr (.inr ⟨k + 1, w, r, rfl, hne, hw⟩)
    · -- `c` starts a word, which goes on if there is none before the next one
      have hone : sep ∉ [c] := by simpa using Ne.symm hc
      have hcons : ∀ {w : List α}, sep ∉ w → sep ∉ c :: w := by
        intro w hw
        simp [Ne.symm hc, hw]
      rcases ih with ⟨k, rfl⟩ | ⟨k, w, rfl, hne, hw⟩ | ⟨k, w, r, rfl, hne, hw⟩
      · cases k with
        | zero => exact .inr (.inl ⟨0, [c], rfl, by simp, hone⟩)
        | succ k => exact .inr (.inr ⟨0, [c], List.replicate k sep, rfl, by simp, hone⟩)
      · cases k with
        | zero => exact .inr (.inl ⟨0, c :: w, rfl, by simp, hcons hw⟩)
        | succ k => exact .inr (.inr ⟨0, [c], List.replicate k sep ++ w, rfl, by simp, hone⟩)
      · cases k with
        | zero => exact .inr (.inr ⟨0, c :: w, r, rfl, by simp, hcons hw⟩)
        | succ k =>
          exact .inr (.inr ⟨0, [c], List.replicate k sep ++ (w ++ sep :: r), rfl, by simp, hone⟩)

end Wjos.Lib
