/-
Wjos.Lib.Chain — chains of a successor function.

`next` maps every cell to its successor and `valid` says which cells a walk
may stand on. `OnChain next valid a b` says that the walk from `a` comes
to `b`; nothing is assumed of `next`, which may run in circles or run
into other chains. `Path next a l e` says that the walk from `a` goes
through exactly the cells of `l` and then points to `e`.

* `OnChain.closed` is the induction rule: a set that contains the start and
  the valid successors of its members contains the chain;
* `OnChain.of_update` says that a chain cut at one cell is part of the old one;
* `path_append`, `Path.congr`, `Path.relink` cut, frame and extend a path;
* `Holds next valid a n` says that the first `n` cells of the walk from `a`
  are valid, and `Path.iterate_eq` reads the cells of a walk off a path.
-/
import Mathlib.Data.List.Nodup
import Mathlib.Logic.Function.Basic
import Mathlib.Logic.Function.Iterate
import Mathlib.Logic.Relation

namespace Wjos.Lib

variable {α : Type*} {next next' : α → α} {valid : α → Prop} {a b c e x : α} {l m : List α}

/-! ## Reachable cells -/

/-- The walk from `a` comes to the valid cell `b`. -/
def OnChain (next : α → α) (valid : α → Prop) (a b : α) : Prop :=
  Relation.ReflTransGen (fun x y => valid x ∧ next x = y) a b ∧ valid b

theorem OnChain.refl (h : valid a) : OnChain next valid a a := ⟨.refl, h⟩

theorem OnChain.head (h : valid a) (hb : OnChain next valid (next a) b) :
    OnChain next valid a b :=
  ⟨.head ⟨h, rfl⟩ hb.1, hb.2⟩

/-- The start of a chain is valid. -/
theorem OnChain.valid_left (h : OnChain next valid a b) : valid a := by
  obtain ⟨h, hb⟩ := h
  cases h.cases_head with
  | inl he => exact he ▸ hb
  | inr hs =>
    obtain ⟨y, hy, -⟩ := hs
    exact hy.1

theorem OnChain.cases (h : OnChain next valid a b) :
    a = b ∨ OnChain next valid (next a) b := by
  obtain ⟨h, hb⟩ := h
  cases h.cases_head with
  | inl he => exact .inl he
  | inr hs =>
    obtain ⟨y, ⟨-, rfl⟩, hy⟩ := hs
    exact .inr ⟨hy, hb⟩

/-- A chain goes on to a valid successor. -/
theorem OnChain.tail (h : OnChain next valid a b) (hb : valid (next b)) :
    OnChain next valid a (next b) :=
  ⟨h.1.tail ⟨h.2, rfl⟩, hb⟩

/-- A property of the start that passes to valid successors holds along the
chain. -/
theorem OnChain.closed {P : α → Prop} (hstep : ∀ x, P x → valid (next x) → P (next x))
    (h : OnChain next valid a b) (ha : P a) : P b := by
  obtain ⟨h, hb⟩ := h
  induction h using Relation.ReflTransGen.head_induction_on with
  | refl => exact ha
  | head hxy hyb ih =>
    obtain ⟨-, rfl⟩ := hxy
    exact ih (hstep _ ha (OnChain.valid_left ⟨hyb, hb⟩))

/-- When one cell is made to point nowhere, what can still be reached could
be reached before. -/
theorem OnChain.of_update [DecidableEq α] (hx : ¬valid x)
    (h : OnChain (Function.update next c x) valid a b) : OnChain next valid a b := by
  obtain ⟨h, hb⟩ := h
  induction h using Relation.ReflTransGen.head_induction_on with
  | refl => exact OnChain.refl hb
  | @head u w huw hwb ih =>
    obtain ⟨hu, rfl⟩ := huw
    have hw : valid (Function.update next c x u) := OnChain.valid_left ⟨hwb, hb⟩
    have huc : u ≠ c := by
      rintro rfl
      rw [Function.update_self] at hw
      exact hx hw
    rw [Function.update_of_ne huc] at ih
    exact OnChain.head hu ih

/-! ## Paths -/

/-- From `a` the walk goes through the cells of `l` and then points to `e`. -/
def Path (next : α → α) : α → List α → α → Prop
  | a, [], e => a = e
  | a, b :: l, e => a = b ∧ Path next (next b) l e

@[simp] theorem path_nil : Path next a [] e ↔ a = e := Iff.rfl

@[simp] theorem path_cons : Path next a (b :: l) e ↔ a = b ∧ Path next (next b) l e := Iff.rfl

theorem path_append : Path next a (l ++ m) e ↔ ∃ b, Path next a l b ∧ Path next b m e := by
  induction l generalizing a with
  | nil => simp
  | cons c l ih => simp [ih, and_assoc]

/-- A path with one more cell at its end. -/
theorem path_concat : Path next a (l ++ [b]) e ↔ Path next a l b ∧ next b = e := by
  simp [path_append]

/-- Frame rule: only the successors of the cells on the path count. -/
theorem Path.congr (h : Path next a l e) (heq : ∀ b ∈ l, next' b = next b) :
    Path next' a l e := by
  induction l generalizing a with
  | nil => exact h
  | cons b l ih =>
    obtain ⟨rfl, h⟩ := h
    refine ⟨rfl, ?_⟩
    rw [heq a (by simp)]
    exact ih h fun c hc => heq c (by simp [hc])

/-- The last cell of a path made to point to `x`. -/
theorem Path.relink [DecidableEq α] (h : Path next a (l ++ [b]) e) (hb : b ∉ l) :
    Path (Function.update next b x) a (l ++ [b]) x := by
  rw [path_concat] at h ⊢
  refine ⟨h.1.congr fun c hc => ?_, Function.update_self ..⟩
  exact Function.update_of_ne (ne_of_mem_of_not_mem hc hb) _ _

/-- The cell at an index, and where it points. -/
theorem Path.getElem_next (h : Path next a l e) {i : Nat} (hi : i < l.length) :
    next l[i] = if hj : i + 1 < l.length then l[i + 1] else e := by
  induction l generalizing a i with
  | nil => exact absurd hi (Nat.not_lt_zero i)
  | cons b l ih =>
    obtain ⟨-, h⟩ := h
    cases i with
    | zero =>
      cases l with
      | nil => simpa using h
      | cons c l => simpa using h.1
    | succ i =>
      have hlt : i < l.length := by simpa using hi
      simpa using ih h hlt

/-- Where the cell at an index points: to the next one or to the end. -/
theorem Path.next_eq (h : Path next a l e) {i : Nat} (hb : l[i]? = some b) :
    next b = l[i + 1]?.getD e := by
  obtain ⟨hi, rfl⟩ := List.getElem?_eq_some_iff.mp hb
  rw [h.getElem_next hi]
  split
  next hj => rw [List.getElem?_eq_getElem hj, Option.getD_some]
  next hj => rw [List.getElem?_eq_none (Nat.le_of_not_lt hj), Option.getD_none]

/-- A path with cells starts at one of them. -/
theorem Path.start_mem (h : Path next a l e) (hl : l ≠ []) : a ∈ l := by
  cases l with
  | nil => exact absurd rfl hl
  | cons b l => simp [h.1]

/-- The first cell of a path is its start. -/
theorem Path.getElem_zero (h : Path next a l e) (hl : 0 < l.length) : l[0] = a := by
  cases l with
  | nil => exact absurd hl (Nat.lt_irrefl 0)
  | cons b l => exact h.1.symm

/-- The walk comes to the cells of a path. -/
theorem Path.onChain (h : Path next a l e) (hl : ∀ b ∈ l, valid b) (hb : b ∈ l) :
    OnChain next valid a b := by
  induction l generalizing a with
  | nil => exact absurd hb List.not_mem_nil
  | cons c l ih =>
    obtain ⟨rfl, h⟩ := h
    rcases List.mem_cons.mp hb with rfl | hb
    · exact OnChain.refl (hl b List.mem_cons_self)
    · exact OnChain.head (hl a List.mem_cons_self)
        (ih h (fun d hd => hl d (List.mem_cons_of_mem _ hd)) hb)

/-! ## Walks -/

/-- The first `n` cells of the walk from `a` are valid. -/
def Holds (next : α → α) (valid : α → Prop) (a : α) (n : Nat) : Prop :=
  ∀ i < n, valid (next^[i] a)

theorem holds_zero (next : α → α) (valid : α → Prop) (a : α) : Holds next valid a 0 :=
  fun _ hi => absurd hi (Nat.not_lt_zero _)

theorem holds_succ {n : Nat} :
    Holds next valid a (n + 1) ↔ valid a ∧ Holds next valid (next a) n := by
  constructor
  · intro h
    exact ⟨h 0 (Nat.succ_pos n), fun i hi => h (i + 1) (Nat.succ_lt_succ hi)⟩
  · rintro ⟨ha, h⟩ i hi
    cases i with
    | zero => exact ha
    | succ i => exact h i (Nat.lt_of_succ_lt_succ hi)

/-- A path lists the cells of the walk from its start; behind them is its end. -/
theorem Path.iterate_eq (h : Path next a l e) {i : Nat} (hi : i ≤ l.length) :
    next^[i] a = l[i]?.getD e := by
  induction l generalizing a i with
  | nil =>
    obtain rfl := Nat.le_zero.mp hi
    exact h
  | cons b l ih =>
    obtain ⟨rfl, h⟩ := h
    cases i with
    | zero => rfl
    | succ i => simpa using ih h (Nat.le_of_succ_le_succ hi)

/-- The valid cells at the start of the walk are those of the path, when its end
is not valid. -/
theorem Path.holds_iff (h : Path next a l e) (hl : ∀ b ∈ l, valid b) (he : ¬valid e) {n : Nat} :
    Holds next valid a n ↔ n ≤ l.length := by
  constructor
  · intro hn
    by_contra hlt
    have hend := hn l.length (Nat.lt_of_not_le hlt)
    rw [h.iterate_eq (Nat.le_refl _), List.getElem?_eq_none (Nat.le_refl _)] at hend
    exact he hend
  · intro hle i hi
    have hlt := Nat.lt_of_lt_of_le hi hle
    rw [h.iterate_eq (Nat.le_of_lt hlt), List.getElem?_eq_getElem hlt]
    exact hl _ (List.getElem_mem hlt)

end Wjos.Lib
