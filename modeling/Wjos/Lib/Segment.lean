/-
Wjos.Lib.Segment — doubly linked segments in a heap of nodes.

A heap maps a node of any type `ν` to its two links. `Seg h p s q` says
that the nodes of the list `s` are linked in that order, that the first
one points back to `p` and that the last one points on to `q`. Nothing
here mentions a list header: a header is a matter of the program that
keeps one.

* `seg_append` cuts a segment in two;
* `Seg.congr` is the frame rule: only the links of the members count;
* `Seg.relink_first`, `Seg.relink_last` change one end of a segment.
-/
import Mathlib.Data.List.Nodup
import Mathlib.Tactic.Common

namespace Wjos.Lib

variable {ν : Type*}

/-- The two links of a node. -/
structure Links (ν : Type*) where
  pre : Option ν
  next : Option ν
  deriving DecidableEq, Repr

/-- The nodes `s` are linked in order between `p` and `q`. -/
def Seg (h : ν → Links ν) : Option ν → List ν → Option ν → Prop
  | _, [], _ => True
  | p, a :: s, q => (h a).pre = p ∧ (h a).next = s.head?.or q ∧ Seg h (some a) s q

@[simp] theorem seg_nil (h : ν → Links ν) (p q : Option ν) : Seg h p [] q := trivial

theorem seg_cons {h : ν → Links ν} {p q : Option ν} {a : ν} {s : List ν} :
    Seg h p (a :: s) q ↔ (h a).pre = p ∧ (h a).next = s.head?.or q ∧ Seg h (some a) s q :=
  Iff.rfl

theorem seg_singleton {h : ν → Links ν} {p q : Option ν} {a : ν} :
    Seg h p [a] q ↔ h a = ⟨p, q⟩ := by
  rw [seg_cons]
  constructor
  · rintro ⟨h₁, h₂, -⟩
    have h₂' : (h a).next = q := by simpa using h₂
    rw [← h₁, ← h₂']
  · intro h₁
    simp [h₁]

/-- A concatenation is two segments that point at each other. -/
theorem seg_append {h : ν → Links ν} {p q : Option ν} {s t : List ν} :
    Seg h p (s ++ t) q ↔ Seg h p s (t.head?.or q) ∧ Seg h (s.getLast?.or p) t q := by
  induction s generalizing p with
  | nil => simp
  | cons a s ih =>
    have hlast : (a :: s).getLast?.or p = s.getLast?.or (some a) := by
      cases s with
      | nil => rfl
      | cons b s =>
        rw [List.getLast?_cons_cons, List.getLast?_eq_getLast_of_ne_nil (List.cons_ne_nil b s)]
        rfl
    rw [List.cons_append, seg_cons, seg_cons, ih, hlast, List.head?_append, Option.or_assoc]
    simp only [and_assoc]

/-- Frame rule: a segment only depends on the links of its members. -/
theorem Seg.congr {h h' : ν → Links ν} {p q : Option ν} {s : List ν}
    (hs : Seg h p s q) (heq : ∀ a ∈ s, h' a = h a) : Seg h' p s q := by
  induction s generalizing p with
  | nil => trivial
  | cons a s ih =>
    obtain ⟨h₁, h₂, h₃⟩ := hs
    have ha : h' a = h a := heq a (by simp)
    exact ⟨by rw [ha, h₁], by rw [ha, h₂], ih h₃ fun b hb => heq b (by simp [hb])⟩

/-- Rewriting the back link of the first member. -/
theorem Seg.relink_first {h h' : ν → Links ν} {p p' q : Option ν} {a : ν} {s : List ν}
    (hs : Seg h p (a :: s) q) (hfix : ∀ b ∈ s, h' b = h b)
    (ha : h' a = { h a with pre := p' }) : Seg h' p' (a :: s) q := by
  obtain ⟨-, h₂, h₃⟩ := hs
  exact ⟨by rw [ha], by rw [ha]; exact h₂, h₃.congr hfix⟩

/-- Rewriting the forward link of the last member. -/
theorem Seg.relink_last {h h' : ν → Links ν} {p q q' : Option ν} {a : ν} {s : List ν}
    (hs : Seg h p (s ++ [a]) q) (hfix : ∀ b ∈ s, h' b = h b)
    (ha : h' a = { h a with next := q' }) : Seg h' p (s ++ [a]) q' := by
  rw [seg_append] at hs ⊢
  obtain ⟨h₁, h₂⟩ := hs
  refine ⟨?_, ?_⟩
  · simpa using h₁.congr hfix
  · rw [seg_singleton] at h₂ ⊢
    rw [ha, h₂]

/-- Following `next` from the first member stays inside the segment until
its last one. -/
theorem Seg.next_eq {h : ν → Links ν} {p q : Option ν} {s t : List ν} {a : ν}
    (hs : Seg h p (s ++ a :: t) q) : (h a).next = t.head?.or q := by
  rw [seg_append] at hs
  exact hs.2.2.1

theorem Seg.pre_eq {h : ν → Links ν} {p q : Option ν} {s t : List ν} {a : ν}
    (hs : Seg h p (s ++ a :: t) q) : (h a).pre = s.getLast?.or p := by
  rw [seg_append] at hs
  exact hs.2.1

end Wjos.Lib
