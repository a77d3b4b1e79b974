/-
Wjos.Lib.Numeral — numbers as text in a base of at most 16.

`numeralDigits base n` are the digits of `n`, least significant first, with
one digit for 0; `digitChar` writes a digit as a character. `parseNumeral`
reads a text back, with an optional sign, and `Plain` says that it has no
leading zero to spare. `IsNumeral` joins the two. A program that writes
numbers is compared with `isNumeral_digits` and `isNumeral_neg`, and a text of
digits in another order with `value_eq_iff`.
-/
import Mathlib.Data.Nat.Digits.Lemmas
import Mathlib.Data.UInt
import Mathlib.Tactic.Common
import Mathlib.Tactic.IntervalCases

namespace Wjos.Lib

/-- The digits of `n`, least significant first. -/
def numeralDigits (base n : Nat) : List Nat := if n = 0 then [0] else Nat.digits base n

/-- The character of a digit. -/
def digitChar (d : Nat) : UInt8 := UInt8.ofNat (if d < 10 then 48 + d else 55 + d)

/-- The digit that a character is in the base. -/
def digitValue (base : Nat) (c : UInt8) : Option Nat :=
  let d := if c.toNat < 58 then c.toNat - 48 else c.toNat - 55
  if digitChar d = c ∧ d < base then some d else none

/-- The value of a text of digits. -/
def parseDigits (base : Nat) (s : List UInt8) : Option Nat :=
  if s = [] then none
  else (s.mapM (digitValue base)).map fun ds => Nat.ofDigits base ds.reverse

/-- The value of a text of digits with an optional `-` before them. -/
def parseNumeral (base : Nat) : List UInt8 → Option Int
  | [] => none
  | c :: s =>
    if c = 45 then (parseDigits base s).map fun (n : Nat) => -(n : Int)
    else (parseDigits base (c :: s)).map fun (n : Nat) => (n : Int)

/-- Only the text `0` starts with that digit. -/
def Plain : List UInt8 → Prop
  | [] => False
  | c :: s => if c = 45 then s.head? ≠ some 48 else c = 48 → s = []

/-- `s` is the text of `v`. -/
structure IsNumeral (base : Nat) (v : Int) (s : List UInt8) : Prop where
  parse : parseNumeral base s = some v
  plain : Plain s

variable {base n d : Nat} {ds : List Nat}

/-! ## The digits -/

theorem numeralDigits_lt (hb : 2 ≤ base) (hd : d ∈ numeralDigits base n) : d < base := by
  rw [numeralDigits] at hd
  split at hd
  · rw [List.mem_singleton.mp hd]
    omega
  · exact Nat.digits_lt_base hb hd

theorem ofDigits_numeralDigits (base n : Nat) : Nat.ofDigits base (numeralDigits base n) = n := by
  rw [numeralDigits]
  split
  next h0 => rw [h0, Nat.ofDigits_singleton]
  · exact Nat.ofDigits_digits base n

theorem numeralDigits_ne_nil (base n : Nat) : numeralDigits base n ≠ [] := by
  rw [numeralDigits]
  split
  · exact List.cons_ne_nil 0 []
  next h0 => exact Nat.digits_ne_nil_iff_ne_zero.mpr h0

/-- The least significant digit, and the digits of what is left. -/
theorem numeralDigits_step (hb : 2 ≤ base) (n : Nat) :
    numeralDigits base n =
      n % base :: if n / base = 0 then [] else numeralDigits base (n / base) := by
  by_cases h0 : n = 0
  · simp [numeralDigits, h0]
  · rw [numeralDigits, if_neg h0, Nat.digits_def' hb (Nat.pos_of_ne_zero h0)]
    congr 1
    split
    next hq => rw [hq, Nat.digits_zero]
    next hq => rw [numeralDigits, if_neg hq]

theorem numeralDigits_length_le_iff {k : Nat} (hb : 2 ≤ base) (hk : 1 ≤ k) (n : Nat) :
    (numeralDigits base n).length ≤ k ↔ n < base ^ k := by
  rw [numeralDigits]
  split
  next h0 =>
    rw [h0]
    exact iff_of_true hk (Nat.pow_pos (by omega))
  · exact Nat.digits_length_le_iff hb n

/-- The leading digit is 0 for 0 only. -/
theorem getLast_numeralDigits (base : Nat) (hn : n ≠ 0) :
    (numeralDigits base n).getLast (numeralDigits_ne_nil base n) ≠ 0 := by
  have heq : numeralDigits base n = Nat.digits base n := if_neg hn
  rw [List.getLast_congr _ (Nat.digits_ne_nil_iff_ne_zero.mpr hn) heq]
  exact Nat.getLast_digit_ne_zero base hn

/-! ## Reading back -/

theorem digitChar_ne (hd : d < 16) : digitChar d ≠ 45 ∧ digitChar d ≠ 0 := by
  interval_cases d <;> decide

theorem digitChar_eq_zero (hd : d < 16) : digitChar d = 48 ↔ d = 0 := by
  interval_cases d <;> decide

theorem digitValue_digitChar (hd : d < base) (h16 : d < 16) :
    digitValue base (digitChar d) = some d := by
  have hval : (if (digitChar d).toNat < 58 then (digitChar d).toNat - 48
      else (digitChar d).toNat - 55) = d := by
    clear hd
    interval_cases d <;> rfl
  rw [digitValue]
  simp only [hval]
  exact if_pos ⟨trivial, hd⟩

theorem mapM_digitValue (hds : ∀ d ∈ ds, d < base) (h16 : base ≤ 16) :
    (ds.map digitChar).mapM (digitValue base) = some ds := by
  induction ds with
  | nil => rfl
  | cons d ds ih =>
    have hd := hds d List.mem_cons_self
    rw [List.map_cons, List.mapM_cons, digitValue_digitChar hd (by omega),
      ih fun e he => hds e (List.mem_cons_of_mem d he)]
    rfl

/-- The text of digits, most significant first, has their value. -/
theorem parseDigits_chars (hne : ds ≠ []) (hds : ∀ d ∈ ds, d < base) (h16 : base ≤ 16) :
    parseDigits base (ds.reverse.map digitChar) = some (Nat.ofDigits base ds) := by
  have hrev : ds.reverse.map digitChar ≠ [] := by simpa using hne
  rw [parseDigits, if_neg hrev, mapM_digitValue (fun d hd => hds d (List.mem_reverse.mp hd)) h16,
    Option.map_some, List.reverse_reverse]

theorem parseNumeral_chars (hne : ds ≠ []) (hds : ∀ d ∈ ds, d < base) (h16 : base ≤ 16) :
    parseNumeral base (ds.reverse.map digitChar) = some ((Nat.ofDigits base ds : Nat) : Int) := by
  have hparse := parseDigits_chars hne hds h16
  cases hs : ds.reverse with
  | nil => exact absurd (List.reverse_eq_nil_iff.mp hs) hne
  | cons d s =>
    have hd : d < 16 := by
      have hmem : d ∈ ds.reverse := hs ▸ List.mem_cons_self
      have hlt := hds d (List.mem_reverse.mp hmem)
      omega
    rw [hs, List.map_cons] at hparse
    rw [List.map_cons, parseNumeral, if_neg (digitChar_ne hd).1, hparse, Option.map_some]

/-- The text of a number other than 0 starts with neither a sign nor a zero. -/
theorem numeral_head (hb : 2 ≤ base) (h16 : base ≤ 16) (hn : n ≠ 0) :
    ∃ c s, (numeralDigits base n).reverse.map digitChar = c :: s ∧ c ≠ 45 ∧ c ≠ 48 := by
  have hlast := getLast_numeralDigits base hn
  have hlt := numeralDigits_lt hb (List.getLast_mem (numeralDigits_ne_nil base n))
  have hd : (numeralDigits base n).getLast (numeralDigits_ne_nil base n) < 16 := by omega
  refine ⟨digitChar ((numeralDigits base n).getLast (numeralDigits_ne_nil base n)),
    (numeralDigits base n).dropLast.reverse.map digitChar, ?_, (digitChar_ne hd).1, ?_⟩
  · conv_lhs => rw [← List.dropLast_append_getLast (numeralDigits_ne_nil base n)]
    rw [List.reverse_append, List.reverse_singleton, List.singleton_append, List.map_cons]
  · exact fun h => hlast ((digitChar_eq_zero hd).mp h)

/-- The digits of `n`, most significant first, are its text. -/
theorem isNumeral_digits (hb : 2 ≤ base) (h16 : base ≤ 16) (n : Nat) :
    IsNumeral base n ((numeralDigits base n).reverse.map digitChar) := by
  refine ⟨?_, ?_⟩
  · rw [parseNumeral_chars (numeralDigits_ne_nil base n) (fun d hd => numeralDigits_lt hb hd) h16,
      ofDigits_numeralDigits]
  · by_cases h0 : n = 0
    · rw [h0]
      exact fun _ => rfl
    · obtain ⟨c, s, hs, h45, h48⟩ := numeral_head hb h16 h0
      rw [hs, Plain, if_neg h45]
      exact fun h => absurd h h48

/-- With a sign before them they are the text of `-n`. -/
theorem isNumeral_neg (hb : 2 ≤ base) (h16 : base ≤ 16) (hn : n ≠ 0) :
    IsNumeral base (-(n : Int)) (45 :: (numeralDigits base n).reverse.map digitChar) := by
  refine ⟨?_, ?_⟩
  · rw [parseNumeral, if_pos rfl, parseDigits_chars (numeralDigits_ne_nil base n)
      (fun d hd => numeralDigits_lt hb hd) h16, ofDigits_numeralDigits, Option.map_some]
  · obtain ⟨c, s, hs, h45, h48⟩ := numeral_head hb h16 hn
    rw [Plain, if_pos rfl, hs, List.head?_cons]
    exact fun h => h48 (Option.some.inj h)

/-- Digits in any order have the value of `n` only if they are its digits. -/
theorem value_eq_iff (hb : 2 ≤ base) (hds : ∀ d ∈ ds, d < base)
    (hlen : ds.length = (numeralDigits base n).length) :
    Nat.ofDigits base ds = n ↔ ds = numeralDigits base n := by
  constructor
  · intro h
    refine Nat.ofDigits_inj_of_len_eq hb hlen hds (fun d hd => numeralDigits_lt hb hd) ?_
    rw [h, ofDigits_numeralDigits]
  · rintro rfl
    exact ofDigits_numeralDigits base n

end Wjos.Lib
