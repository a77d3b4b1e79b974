/-
Wjos.Lib.RefCount — reference counts over a table of pointers.

`f i = some k` says that entry `i` of a table points to object `k`.
`holders I f k` is the number of entries in `I` that do, and
`Counted I f ref` says that every object's counter is that number. Writing
an entry and adjusting one counter keeps `Counted`; nothing else about the
table or the objects is used.
-/
import Mathlib.Data.Finset.Card

namespace Wjos.Lib

variable {ι κ : Type*} [DecidableEq ι] [DecidableEq κ]

/-- The number of entries that point to `k`. -/
def holders (I : Finset ι) (f : ι → Option κ) (k : κ) : Nat := (I.filter fun i => f i = some k).card

/-- Every counter is the number of entries that point to its object. -/
def Counted (I : Finset ι) (f : ι → Option κ) (ref : κ → Int) : Prop :=
  ∀ k, ref k = holders I f k

variable {I : Finset ι} {f : ι → Option κ} {ref : κ → Int} {i : ι} {k : κ}

omit [DecidableEq ι] in
/-- An object with a pointer to it has a holder. -/
theorem holders_pos (hi : i ∈ I) (hf : f i = some k) : 0 < holders I f k :=
  Finset.card_pos.mpr ⟨i, Finset.mem_filter.mpr ⟨hi, hf⟩⟩

/-- The entry `i` counted apart from the others. -/
theorem holders_split (hi : i ∈ I) (f : ι → Option κ) (k : κ) :
    holders I f k = holders (I.erase i) f k + if f i = some k then 1 else 0 := by
  unfold holders
  rw [← Finset.insert_erase hi, Finset.filter_insert, Finset.erase_insert_eq_erase,
    Finset.erase_idem]
  split
  · rw [Finset.card_insert_of_notMem]
    exact fun hm => Finset.notMem_erase i I (Finset.mem_of_mem_filter i hm)
  · rfl

/-- The others do not see a write to `i`. -/
theorem holders_erase_update (f : ι → Option κ) (i : ι) (v : Option κ) (k : κ) :
    holders (I.erase i) (Function.update f i v) k = holders (I.erase i) f k := by
  unfold holders
  congr 1
  refine Finset.filter_congr fun j hj => ?_
  rw [Function.update_of_ne (Finset.ne_of_mem_erase hj)]

/-- Writing one entry. -/
theorem holders_update (hi : i ∈ I) (v : Option κ) (k : κ) :
    holders I (Function.update f i v) k + (if f i = some k then 1 else 0)
      = holders I f k + (if v = some k then 1 else 0) := by
  rw [holders_split hi (Function.update f i v), holders_split hi f, holders_erase_update,
    Function.update_self]
  omega

omit [DecidableEq ι] in
theorem Counted.pos (h : Counted I f ref) (hi : i ∈ I) (hf : f i = some k) : 0 < ref k := by
  rw [h k]
  exact Int.natCast_pos.mpr (holders_pos hi hf)

/-- A free entry is pointed at an object and the counter raised. -/
theorem Counted.set (h : Counted I f ref) (hi : i ∈ I) (hf : f i = none) (k : κ) :
    Counted I (Function.update f i (some k)) (Function.update ref k (ref k + 1)) := by
  intro l
  have hu := holders_update (f := f) hi (some k) l
  rw [hf, if_neg (by simp)] at hu
  by_cases hl : l = k
  · subst hl
    rw [if_pos rfl] at hu
    rw [Function.update_self, h l]
    omega
  · rw [if_neg fun he => hl (Option.some.inj he).symm] at hu
    rw [Function.update_of_ne hl, h l]
    omega

/-- An entry is cleared and the counter of its object lowered. -/
theorem Counted.clear (h : Counted I f ref) (hi : i ∈ I) (hf : f i = some k) :
    Counted I (Function.update f i none) (Function.update ref k (ref k - 1)) := by
  intro l
  have hu := holders_update (f := f) hi none l
  rw [hf, if_neg (c := none = some l) (by simp)] at hu
  by_cases hl : l = k
  · subst hl
    rw [if_pos rfl] at hu
    rw [Function.update_self, h l]
    omega
  · rw [if_neg fun he => hl (Option.some.inj he).symm] at hu
    rw [Function.update_of_ne hl, h l]
    omega

end Wjos.Lib
