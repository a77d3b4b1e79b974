/-
Wjos.Lib.Blocks — a sequence of cells spread over blocks of equal size.

`data b o` is the cell at offset `o` of block `b`. `Spread q data l content n`
says that the first `n` cells of `content` lie in the blocks `l`, in order, `q`
to a block. The list may have more blocks than the cells need.

* `Spread.append`, `Spread.frame` keep a sequence when blocks are added or
  other blocks change;
* `Spread.write` extends it by a part that lies in one block, `Spread.read`
  reads such a part back;
* `storeBlocks` stores a sequence block by block; `storeBlocks_getElem` says
  what each cell holds then, counted from the start of the first block;
* `le_ceilDiv_mul`, `ceilDiv_le`, `ceilDiv_cases` bound the number of blocks for `n` cells, and
  `and_mask` rounds down to whole blocks by clearing low bits.
-/
import Mathlib.Data.List.Nodup
import Mathlib.Logic.Function.Basic
import Wjos.Lib.Memory

namespace Wjos.Lib

variable {α β : Type*} {q : Nat} {data data' : β → Nat → α} {l m : List β}
  {content content' : Nat → α} {n w : Nat} {b : β}

def Spread (q : Nat) (data : β → Nat → α) (l : List β) (content : Nat → α) (n : Nat) : Prop :=
  ∀ k < n, ∃ b, l[k / q]? = some b ∧ data b (k % q) = content k

/-! ## Offsets -/

/-- A cell of the same block, `i` further on. -/
theorem add_div_of_lt {i : Nat} (h : n % q + i < q) : (n + i) / q = n / q := by
  have hq : 0 < q := Nat.lt_of_le_of_lt (Nat.zero_le _) h
  rw [Nat.add_div hq, Nat.mod_eq_of_lt (by omega : i < q), Nat.div_eq_of_lt (by omega : i < q),
    if_neg (by omega), Nat.add_zero]

theorem add_mod_of_lt {i : Nat} (h : n % q + i < q) : (n + i) % q = n % q + i := by
  rw [Nat.add_mod, Nat.mod_eq_of_lt (by omega : i < q), Nat.mod_eq_of_lt h]

/-- The end of a block is the start of the next one. -/
theorem add_div_of_eq {i : Nat} (hq : 0 < q) (h : n % q + i = q) : (n + i) / q = n / q + 1 := by
  have hsplit := Nat.div_add_mod n q
  have he : n + i = (n / q + 1) * q := by
    rw [Nat.add_mul, Nat.one_mul, Nat.mul_comm]
    omega
  rw [he, Nat.mul_div_cancel _ hq]

theorem add_mod_of_eq {i : Nat} (h : n % q + i = q) : (n + i) % q = 0 := by
  have hsplit := Nat.div_add_mod n q
  have he : n + i = (n / q + 1) * q := by
    rw [Nat.add_mul, Nat.one_mul, Nat.mul_comm]
    omega
  rw [he, Nat.mul_mod_left]

/-! ## Sequences -/

namespace Spread

theorem zero (q : Nat) (data : β → Nat → α) (l : List β) (content : Nat → α) :
    Spread q data l content 0 := fun _ hk => absurd hk (Nat.not_lt_zero _)

/-- More blocks behind. -/
theorem append (h : Spread q data l content n) (m : List β) :
    Spread q data (l ++ m) content n := fun k hk => by
  obtain ⟨b, hb, hd⟩ := h k hk
  obtain ⟨hlt, -⟩ := List.getElem?_eq_some_iff.mp hb
  exact ⟨b, by rw [List.getElem?_append_left hlt, hb], hd⟩

/-- Frame rule: only the blocks of the list count. -/
theorem frame (h : Spread q data l content n) (he : ∀ b ∈ l, data' b = data b) :
    Spread q data' l content n := fun k hk => by
  obtain ⟨b, hb, hd⟩ := h k hk
  exact ⟨b, hb, by rw [he b (List.mem_of_getElem? hb), hd]⟩

/-- Only the first `n` cells count. -/
theorem congr (h : Spread q data l content n) (he : ∀ k < n, content' k = content k) :
    Spread q data l content' n := fun k hk => by
  obtain ⟨b, hb, hd⟩ := h k hk
  exact ⟨b, hb, by rw [hd, he k hk]⟩

/-- The next `w` cells stored where they belong, all in one block. -/
theorem write [DecidableEq β] (h : Spread q data l content n) (hnd : l.Nodup)
    (hb : l[n / q]? = some b) (hw : n % q + w ≤ q) {src : Nat → α}
    (hsrc : ∀ i < w, content (n + i) = src i) :
    Spread q (Function.update data b (copyTo (data b) (n % q) w src)) l content (n + w) := by
  intro k hk
  rcases Nat.lt_or_ge k n with hkn | hkn
  · obtain ⟨c, hc, hd⟩ := h k hkn
    refine ⟨c, hc, ?_⟩
    by_cases hcb : c = b
    · subst hcb
      have hdiv : k / q = n / q := by
        obtain ⟨hlt, -⟩ := List.getElem?_eq_some_iff.mp hc
        exact (List.getElem?_inj hlt hnd).mp (hc.trans hb.symm)
      have hmod : k % q < n % q := by
        have h₁ := Nat.div_add_mod k q
        have h₂ := Nat.div_add_mod n q
        rw [hdiv] at h₁
        omega
      rw [Function.update_self, copyTo_of_lt hmod, hd]
    · rw [Function.update_of_ne hcb, hd]
  · obtain ⟨i, rfl⟩ := Nat.exists_eq_add_of_le hkn
    have hi : n % q + i < q := by omega
    refine ⟨b, by rw [add_div_of_lt hi, hb], ?_⟩
    rw [Function.update_self, add_mod_of_lt hi, copyTo_add (by omega), hsrc i (by omega)]

/-- The cells of one block, from the `k`-th cell on. -/
theorem read (h : Spread q data l content n) {k : Nat} (hb : l[k / q]? = some b)
    (hw : k % q + w ≤ q) (hk : k + w ≤ n) :
    ∀ i < w, data b (k % q + i) = content (k + i) := by
  intro i hi
  have hlt : k % q + i < q := by omega
  obtain ⟨c, hc, hd⟩ := h (k + i) (by omega)
  rw [add_div_of_lt hlt, hb] at hc
  obtain rfl := Option.some.inj hc
  rwa [add_mod_of_lt hlt] at hd

end Spread

/-! ## Storing over several blocks -/

section Store

variable [DecidableEq β] {src : Nat → α} {o : Nat}

/-- `n` cells of `src` stored in the blocks `l`, from offset `o` of the first
one. -/
def storeBlocks (q : Nat) : List β → (o n : Nat) → (Nat → α) → (β → Nat → α) → β → Nat → α
  | [], _, _, _, data => data
  | b :: l, o, n, src, data =>
    storeBlocks q l 0 (n - (q - o)) (fun i => src (q - o + i))
      (Function.update data b (copyTo (data b) o (min n (q - o)) src))

theorem storeBlocks_cons (l : List β) :
    storeBlocks q (b :: l) o n src data =
      storeBlocks q l 0 (n - (q - o)) (fun i => src (q - o + i))
        (Function.update data b (copyTo (data b) o (min n (q - o)) src)) := rfl

theorem storeBlocks_zero (q o : Nat) (l : List β) (src : Nat → α) (data : β → Nat → α) :
    storeBlocks q l o 0 src data = data := by
  induction l generalizing o src data with
  | nil => rfl
  | cons b l ih =>
    rw [storeBlocks_cons, Nat.zero_sub, ih, Nat.zero_min]
    refine Function.update_eq_self_iff.mpr (funext fun a => ?_)
    exact if_neg fun h => by omega

/-- What lies in the first block is stored there. -/
theorem storeBlocks_single (l : List β) (h : o + n ≤ q) :
    storeBlocks q (b :: l) o n src data =
      Function.update data b (copyTo (data b) o n src) := by
  rw [storeBlocks_cons, Nat.sub_eq_zero_of_le (by omega), storeBlocks_zero,
    Nat.min_eq_left (by omega)]

/-- Blocks behind those that hold the cells do not count. -/
theorem storeBlocks_append (h : o + n ≤ l.length * q) (m : List β) :
    storeBlocks q (l ++ m) o n src data = storeBlocks q l o n src data := by
  induction l generalizing o n src data with
  | nil =>
    obtain rfl : n = 0 := by simp at h; omega
    rw [storeBlocks_zero, storeBlocks_zero]
  | cons b l ih =>
    rw [List.length_cons, Nat.succ_mul] at h
    rw [List.cons_append, storeBlocks_cons, storeBlocks_cons, ih (by omega)]

/-- Frame rule: other blocks stay. -/
theorem storeBlocks_of_not_mem (h : b ∉ l) : storeBlocks q l o n src data b = data b := by
  induction l generalizing o n src data with
  | nil => rfl
  | cons c l ih =>
    obtain ⟨hbc, hbl⟩ := not_or.mp (mt List.mem_cons.mpr h)
    rw [storeBlocks_cons, ih hbl, Function.update_of_ne hbc]

/-- Each cell holds what was stored for it, or what it held. -/
theorem storeBlocks_getElem (hnd : l.Nodup) (ho : o ≤ q) {i x : Nat} (hi : l[i]? = some b)
    (hx : x < q) : storeBlocks q l o n src data b x =
      if o ≤ i * q + x ∧ i * q + x < o + n then src (i * q + x - o) else data b x := by
  induction l generalizing o n src data i with
  | nil => simp at hi
  | cons c l ih =>
    obtain ⟨hcl, hnd'⟩ := List.nodup_cons.mp hnd
    rw [storeBlocks_cons]
    cases i with
    | zero =>
      obtain rfl : c = b := by simpa using hi
      rw [storeBlocks_of_not_mem hcl, Function.update_self, Nat.zero_mul, Nat.zero_add, copyTo]
      by_cases hin : o ≤ x ∧ x < o + n
      · rw [if_pos hin, if_pos ⟨hin.1, by omega⟩]
      · rw [if_neg hin, if_neg (by omega)]
    | succ i =>
      have hi' : l[i]? = some b := by simpa using hi
      have hbc : b ≠ c := ne_of_mem_of_not_mem (List.mem_of_getElem? hi') hcl
      have hmul : (i + 1) * q + x = i * q + x + q := by rw [Nat.succ_mul]; omega
      rw [ih hnd' (Nat.zero_le q) hi', Function.update_of_ne hbc, hmul]
      generalize i * q + x = y
      by_cases hin : o ≤ y + q ∧ y + q < o + n
      · rw [if_pos hin, if_pos (by omega)]
        congr 1
        omega
      · rw [if_neg hin, if_neg (by omega)]

end Store

/-! ## Numbers of blocks -/

/-- Rounding up loses nothing and adds less than one block. -/
theorem le_ceilDiv_mul (hq : 0 < q) (n : Nat) : n ≤ (n + q - 1) / q * q := by
  have h := Nat.lt_div_mul_add hq (a := n + q - 1)
  omega

theorem ceilDiv_le (hq : 0 < q) (n : Nat) : (n + q - 1) / q ≤ n / q + 1 := by
  calc (n + q - 1) / q ≤ (n + q) / q := Nat.div_le_div_right (Nat.sub_le _ _)
    _ = n / q + 1 := Nat.add_div_right n hq

/-- The cells fill their blocks, or one block more than the full ones has some. -/
theorem ceilDiv_cases (hq : 0 < q) (n : Nat) :
    n = (n + q - 1) / q * q ∧ n / q = (n + q - 1) / q ∨
      n < (n + q - 1) / q * q ∧ n / q + 1 = (n + q - 1) / q := by
  have hle := ceilDiv_le hq n
  rcases Nat.lt_or_eq_of_le (le_ceilDiv_mul hq n) with hlt | heq
  · have hdiv : n / q < (n + q - 1) / q := Nat.div_lt_of_lt_mul (by rwa [Nat.mul_comm])
    exact .inr ⟨hlt, Nat.le_antisymm hdiv hle⟩
  · refine .inl ⟨heq, ?_⟩
    calc n / q = (n + q - 1) / q * q / q := by rw [← heq]
      _ = (n + q - 1) / q := Nat.mul_div_cancel _ hq

/-- Clearing the low `k` bits of a `w`-bit number. -/
theorem and_mask {a k w : Nat} (hk : k ≤ w) (ha : a < 2 ^ w) :
    a &&& (2 ^ w - 1 - (2 ^ k - 1)) = a / 2 ^ k * 2 ^ k := by
  have hle : 2 ^ k ≤ 2 ^ w := Nat.pow_le_pow_right (by decide) hk
  have hpos := Nat.two_pow_pos k
  have hmask : 2 ^ w - 1 - (2 ^ k - 1) = 2 ^ w - (2 ^ k - 1 + 1) := by omega
  refine Nat.eq_of_testBit_eq fun i => ?_
  rw [hmask, Nat.testBit_and, Nat.testBit_two_pow_sub_succ (by omega),
    Nat.testBit_two_pow_sub_one, Nat.testBit_mul_two_pow, Nat.testBit_div_two_pow]
  rcases Nat.lt_or_ge i w with hi | hi
  · rcases Nat.lt_or_ge i k with hik | hik
    · simp [hi, hik, Nat.not_le_of_lt hik]
    · simp [hi, hik, Nat.not_lt_of_ge hik]
  · have hbit : a.testBit i = false :=
      Nat.testBit_lt_two_pow (Nat.lt_of_lt_of_le ha (Nat.pow_le_pow_right (by decide) hi))
    simp [hbit, show k ≤ i by omega]

end Wjos.Lib
