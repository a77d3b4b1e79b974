/-
Wjos.Lib.Tiling — pieces that follow each other without a gap.

A loop that serves a request piece by piece cuts the range of the request
into intervals. `start` and `len` give the interval of a piece, and
`Tiles start len ps lo hi` says that the pieces `ps` lie end to end from `lo`
to `hi` and that none of them is empty. What a piece is does not matter here.

* `Tiles.exists_covers` and `Tiles.eq_of_covers`: each point of the range lies
  in exactly one piece;
* `Tiles.forall_iff`: so what is said of every point with the piece it lies in
  may be said of every piece with its points.

`covered_iff` is about intervals in any order that may overlap: they leave no
gap in a range exactly when its first point is covered and the point behind
each interval that ends inside the range is.
-/
import Mathlib.Data.Nat.Init
import Mathlib.Tactic.Common

namespace Wjos.Lib

variable {ι : Type*} {start len : ι → Nat} {ps : List ι} {p q : ι} {lo hi i : Nat}

/-- The pieces lie end to end from `lo` to `hi`. -/
def Tiles (start len : ι → Nat) : List ι → Nat → Nat → Prop
  | [], lo, hi => lo = hi
  | p :: ps, lo, hi => start p = lo ∧ 0 < len p ∧ Tiles start len ps (lo + len p) hi

/-- The point `i` lies in the piece `p`. -/
def Covers (start len : ι → Nat) (p : ι) (i : Nat) : Prop := start p ≤ i ∧ i < start p + len p

theorem Tiles.le (h : Tiles start len ps lo hi) : lo ≤ hi := by
  induction ps generalizing lo with
  | nil => exact Nat.le_of_eq h
  | cons q ps ih => exact Nat.le_trans (Nat.le_add_right _ _) (ih h.2.2)

/-- Where a piece lies. -/
theorem Tiles.bounds (h : Tiles start len ps lo hi) (hp : p ∈ ps) :
    lo ≤ start p ∧ 0 < len p ∧ start p + len p ≤ hi := by
  induction ps generalizing lo with
  | nil => simp at hp
  | cons q ps ih =>
    obtain ⟨hq, hpos, hrest⟩ := h
    rcases List.mem_cons.mp hp with rfl | hmem
    · exact ⟨Nat.le_of_eq hq.symm, hpos, hq.symm ▸ hrest.le⟩
    · have hin := ih hrest hmem
      omega

/-- Each point of the range lies in a piece. -/
theorem Tiles.exists_covers (h : Tiles start len ps lo hi) (hlo : lo ≤ i) (hhi : i < hi) :
    ∃ p ∈ ps, Covers start len p i := by
  induction ps generalizing lo with
  | nil =>
    have heq : lo = hi := h
    omega
  | cons q ps ih =>
    obtain ⟨hq, -, hrest⟩ := h
    rcases Nat.lt_or_ge i (lo + len q) with hlt | hge
    · exact ⟨q, List.mem_cons_self, by unfold Covers; omega⟩
    · obtain ⟨p, hp, hcov⟩ := ih hrest hge
      exact ⟨p, List.mem_cons_of_mem _ hp, hcov⟩

/-- No two pieces have a point in common. -/
theorem Tiles.eq_of_covers (h : Tiles start len ps lo hi) (hp : p ∈ ps) (hq : q ∈ ps)
    (hpi : Covers start len p i) (hqi : Covers start len q i) : p = q := by
  induction ps generalizing lo with
  | nil => simp at hp
  | cons r ps ih =>
    obtain ⟨hr, -, hrest⟩ := h
    unfold Covers at hpi hqi
    rcases List.mem_cons.mp hp with rfl | hp'
    · rcases List.mem_cons.mp hq with rfl | hq'
      · rfl
      · have hle := (hrest.bounds hq').1
        omega
    · rcases List.mem_cons.mp hq with rfl | hq'
      · have hle := (hrest.bounds hp').1
        omega
      · exact ih hrest hp' hq'

/-- A property of every point and its piece is one of every piece and its points. -/
theorem Tiles.forall_iff (h : Tiles start len ps lo hi) {P : ι → Nat → Prop} :
    (∀ i, lo ≤ i → i < hi → ∃ p ∈ ps, Covers start len p i ∧ P p i) ↔
      ∀ p ∈ ps, ∀ i, Covers start len p i → P p i := by
  constructor
  · intro hall p hp i hi
    have hb := h.bounds hp
    obtain ⟨q, hq, hqi, hP⟩ := hall i (Nat.le_trans hb.1 hi.1) (Nat.lt_of_lt_of_le hi.2 hb.2.2)
    exact h.eq_of_covers hp hq hi hqi ▸ hP
  · intro hall i hlo hhi
    obtain ⟨p, hp, hpi⟩ := h.exists_covers hlo hhi
    exact ⟨p, hp, hpi, hall p hp i hpi⟩

/-- The intervals from `a r` to `b r` leave no gap between `lo` and `hi`. -/
theorem covered_iff {rs : List ι} {a b : ι → Nat} :
    (∀ k, lo ≤ k → k < hi → ∃ r ∈ rs, a r ≤ k ∧ k < b r) ↔
      (lo < hi → ∃ r ∈ rs, a r ≤ lo ∧ lo < b r) ∧
      ∀ r ∈ rs, lo < b r → a r < b r → b r < hi → ∃ s ∈ rs, a s ≤ b r ∧ b r < b s := by
  constructor
  · intro h
    exact ⟨h lo (Nat.le_refl lo), fun r _ hlo _ hhi => h (b r) (Nat.le_of_lt hlo) hhi⟩
  · rintro ⟨hfirst, hnext⟩ k hlo
    induction k, hlo using Nat.le_induction with
    | base => exact hfirst
    | succ k hlo ih =>
      intro hhi
      obtain ⟨r, hr, hak, hkb⟩ := ih (by omega)
      rcases Nat.lt_or_ge (k + 1) (b r) with hlt | hge
      · exact ⟨r, hr, by omega, hlt⟩
      · have hend : b r = k + 1 := by omega
        have hgap := hnext r hr (by omega) (by omega) (by omega)
        rwa [hend] at hgap

end Wjos.Lib
