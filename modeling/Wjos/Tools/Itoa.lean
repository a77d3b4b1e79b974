/-
Wjos.Tools.Itoa — `kernel_itoa` of `kernel/tools/klib.c`.

The digits come out least significant first, from signed remainders when a
`-` was written and from unsigned ones otherwise, and are then turned round
in place. `kernelItoa_eq` says what is in the buffer at the end. The reversal
starts behind the first character unless the number is positive. That is
right for a number with a sign, and for 0, which has one digit; but in base 2,
8 or 16 a negative number has no sign, and its last digit stays in front. So
the text is the numeral unless the number is negative, the base not 10 and the
digits not all the same (`kernelItoa_numeral_iff`).
-/
import Mathlib.Data.List.Induction
import Mathlib.Data.List.Rotate
import Wjos.Lib.Numeral
import Wjos.Lib.Track

namespace Wjos

open Lib

/-- The characters of a string literal. -/
def literal (s : String) : List UInt8 := s.toList.map Char.toUInt8

/-- `num2ch[i]`. -/
def num2ch (i : Int) : UInt8 := (literal "FEDCBA9876543210123456789ABCDEF").getD i.toNat 0

/-- The loops leave off fewer digits at each pass. -/
theorem div_base_lt {base n : Nat} (hb : 2 ≤ base) (h : n / base ≠ 0) : n / base < n := by
  refine Nat.div_lt_self (Nat.pos_of_ne_zero fun h0 => h ?_) hb
  rw [h0, Nat.zero_div]

/-- The loop over the digits of a negative number: the memory and `p`. -/
def itoaSigned (base : Nat) (hbase : 2 ≤ base) (m : Track UInt8) (p num : Int) :
    Track UInt8 × Int :=
  let m := m.put p (num2ch (num.tmod base + 15))
  if h : num.tdiv base = 0 then (m, p + 1) else itoaSigned base hbase m (p + 1) (num.tdiv base)
termination_by num.natAbs
decreasing_by
  have hne := mt Int.natAbs_eq_zero.mp h
  rw [Int.natAbs_tdiv, Int.natAbs_natCast] at hne ⊢
  exact div_base_lt hbase hne

/-- The loop over the digits of an unsigned number. -/
def itoaUnsigned (base : Nat) (hbase : 2 ≤ base) (m : Track UInt8) (p : Int) (uNum : Nat) :
    Track UInt8 × Int :=
  let m := m.put p (num2ch ((uNum % base : Nat) + 15))
  if h : uNum / base = 0 then (m, p + 1) else itoaUnsigned base hbase m (p + 1) (uNum / base)
termination_by uNum
decreasing_by exact div_base_lt hbase h

/-- The reversal between `start` and `p`. -/
def itoaReverse (m : Track UInt8) (start p : Int) : Track UInt8 :=
  if start < p then
    itoaReverse ((m.put start (m.cell p)).put p (m.cell start)) (start + 1) (p - 1)
  else m
termination_by (p - start).toNat

/-- `kernel_itoa`. -/
def kernelItoa (m : Track UInt8) (buf : Int) (num : BitVec 32) (base : Nat) : Track UInt8 :=
  if h : base = 2 ∨ base = 8 ∨ base = 10 ∨ base = 16 then
    let r :=
      if num.toInt < 0 ∧ base = 10 then
        itoaSigned base (by omega) (m.put buf 45) (buf + 1) num.toInt
      else itoaUnsigned base (by omega) m buf num.toNat
    itoaReverse (r.1.put r.2 0) (if 0 < num.toInt then buf else buf + 1) (r.2 - 1)
  else m.put buf 0

/-! ## What is in the buffer -/

/-- The digits as the reversal leaves them when it skips the first. -/
def skewed : List Nat → List Nat
  | [] => []
  | d :: ds => d :: ds.reverse

/-- The text that `kernel_itoa` leaves. -/
def itoaText (num : BitVec 32) (base : Nat) : List UInt8 :=
  if num.toInt < 0 ∧ base = 10 then
    45 :: (numeralDigits base num.toInt.natAbs).reverse.map digitChar
  else if num.toInt < 0 then (skewed (numeralDigits base num.toNat)).map digitChar
  else (numeralDigits base num.toNat).reverse.map digitChar

variable {m : Track UInt8} {buf p num : Int} {base n : Nat}

theorem num2ch_eq {d : Nat} (hd : d < 16) :
    num2ch ((d : Int) + 15) = digitChar d ∧ num2ch (-(d : Int) + 15) = digitChar d := by
  interval_cases d <;> decide

theorem itoaUnsigned_eq (hb : 2 ≤ base) (h16 : base ≤ 16) (n : Nat) (m : Track UInt8) (p : Int) :
    itoaUnsigned base hb m p n =
      (m.write p ((numeralDigits base n).map digitChar), p + (numeralDigits base n).length) := by
  induction n using Nat.strong_induction_on generalizing m p with
  | _ n ih =>
    have hmod : n % base < base := Nat.mod_lt n (by omega)
    rw [itoaUnsigned.eq_def, (num2ch_eq (by omega : n % base < 16)).1, numeralDigits_step hb n]
    by_cases hq : n / base = 0
    · rw [dif_pos hq, if_pos hq]
      rfl
    · rw [dif_neg hq, if_neg hq, ih _ (div_base_lt hb hq), List.map_cons, Track.write_cons,
        List.length_cons]
      congr 1
      omega

theorem itoaSigned_eq (hb : 2 ≤ base) (h16 : base ≤ 16) (n : Nat) (m : Track UInt8) (p : Int) :
    itoaSigned base hb m p (-(n : Int)) =
      (m.write p ((numeralDigits base n).map digitChar), p + (numeralDigits base n).length) := by
  induction n using Nat.strong_induction_on generalizing m p with
  | _ n ih =>
    have hmod : n % base < base := Nat.mod_lt n (by omega)
    have htmod : (-(n : Int)).tmod base = -((n % base : Nat) : Int) := by
      rw [Int.neg_tmod, ← Int.ofNat_tmod]
    have htdiv : (-(n : Int)).tdiv base = -((n / base : Nat) : Int) := by
      rw [Int.neg_tdiv, ← Int.ofNat_tdiv]
    have hzero : -((n / base : Nat) : Int) = 0 ↔ n / base = 0 := by omega
    rw [itoaSigned.eq_def, htmod, (num2ch_eq (by omega : n % base < 16)).2,
      numeralDigits_step hb n]
    by_cases hq : n / base = 0
    · rw [dif_pos (htdiv.trans (hzero.mpr hq)), if_pos hq]
      rfl
    · rw [dif_neg (fun h => hq (hzero.mp (htdiv.symm.trans h))), if_neg hq, htdiv,
        ih _ (div_base_lt hb hq), List.map_cons, Track.write_cons, List.length_cons]
      congr 1
      omega

/-- The part `mid` of what was written is turned round. -/
theorem itoaReverse_eq (mid pre post : List UInt8) :
    itoaReverse (m.write buf (pre ++ mid ++ post)) (buf + pre.length)
        (buf + pre.length + mid.length - 1) =
      m.write buf (pre ++ mid.reverse ++ post) := by
  induction mid using List.bidirectionalRec generalizing pre post with
  | nil =>
    rw [itoaReverse, if_neg (by simp), List.reverse_nil]
  | singleton c =>
    rw [itoaReverse, if_neg (by simp), List.reverse_singleton]
  | cons_append c mid e ih =>
    -- the two ends change places, and the rest lies between them
    have hlen : (c :: (mid ++ [e])).length = mid.length + 2 := by simp
    have hlast : buf + (pre.length : Int) + (mid.length + 2 : Nat) - 1 =
        buf + ((pre.length + mid.length + 1 : Nat) : Int) := by omega
    have hc : (m.write buf (pre ++ (c :: (mid ++ [e])) ++ post)).cell (buf + pre.length) = c := by
      rw [Track.write_cell (by simp)]
      simp
    have he : (m.write buf (pre ++ (c :: (mid ++ [e])) ++ post)).cell
        (buf + ((pre.length + mid.length + 1 : Nat) : Int)) = e := by
      rw [Track.write_cell (by simp; omega)]
      simp [Nat.add_assoc]
    have hswap : ((pre ++ (c :: (mid ++ [e])) ++ post).set pre.length e).set
        (pre.length + mid.length + 1) c = (pre ++ [e]) ++ mid ++ ([c] ++ post) := by
      simp [Nat.add_assoc]
    rw [itoaReverse, hlen, hlast, if_pos (by omega), hc, he, Track.put_write (by simp),
      Track.put_write (by simp; omega), hswap]
    have hih := ih (pre ++ [e]) ([c] ++ post)
    rw [List.length_append, List.length_singleton] at hih
    have hstart : buf + (pre.length : Int) + 1 = buf + ((pre.length + 1 : Nat) : Int) := by omega
    have hstop : buf + ((pre.length + mid.length + 1 : Nat) : Int) - 1 =
        buf + ((pre.length + 1 : Nat) : Int) + mid.length - 1 := by omega
    rw [hstart, hstop, hih]
    simp

/-- A NUL is put behind what was written, and the part behind `pre` is turned
round. -/
theorem itoaReverse_ended (m : Track UInt8) (buf : Int) (pre mid : List UInt8) :
    itoaReverse ((m.write buf (pre ++ mid)).put (buf + (pre ++ mid).length) 0) (buf + pre.length)
        (buf + (pre ++ mid).length - 1) =
      m.write buf (pre ++ mid.reverse ++ [0]) := by
  have hstop : buf + ((pre ++ mid).length : Int) - 1 = buf + pre.length + mid.length - 1 := by
    rw [List.length_append]
    omega
  rw [← Track.write_concat, hstop, itoaReverse_eq]

theorem toNat_of_nonneg {num : BitVec 32} (h : ¬num.toInt < 0) : (num.toNat : Int) = num.toInt := by
  have hlt := num.isLt
  rw [BitVec.toInt_eq_toNat_bmod] at h ⊢
  rw [Int.bmod_def] at h ⊢
  norm_num at h ⊢
  split at h <;> omega

/-- The buffer holds the text and a NUL, and nothing else was stored to. -/
theorem kernelItoa_eq (hbase : base = 2 ∨ base = 8 ∨ base = 10 ∨ base = 16) (num : BitVec 32) :
    kernelItoa m buf num base = m.write buf (itoaText num base ++ [0]) := by
  have hb : 2 ≤ base := by omega
  have h16 : base ≤ 16 := by omega
  rw [kernelItoa, dif_pos hbase, itoaText]
  by_cases hneg : num.toInt < 0
  · rw [if_neg (by omega : ¬0 < num.toInt)]
    by_cases h10 : base = 10
    · -- the sign stays in front
      have hsigned : num.toInt < 0 ∧ base = 10 := ⟨hneg, h10⟩
      have habs : num.toInt = -(num.toInt.natAbs : Int) := by omega
      have hloop := itoaSigned_eq hb h16 num.toInt.natAbs (m.put buf 45) (buf + 1)
      rw [← habs, ← Track.write_cons] at hloop
      have hturn := itoaReverse_ended m buf [45]
        ((numeralDigits base num.toInt.natAbs).map digitChar)
      have hend : buf + 1 + ((numeralDigits base num.toInt.natAbs).length : Int) =
          buf + (([45] ++ (numeralDigits base num.toInt.natAbs).map digitChar).length : Int) := by
        simp
        omega
      rw [if_pos hsigned, if_pos hsigned, hloop, hend, List.map_reverse]
      exact hturn
    · -- the last digit does
      have hunsigned : ¬(num.toInt < 0 ∧ base = 10) := fun h => h10 h.2
      obtain ⟨d, ds, hds⟩ := List.exists_cons_of_ne_nil (numeralDigits_ne_nil base num.toNat)
      have hturn := itoaReverse_ended m buf [digitChar d] (ds.map digitChar)
      rw [if_neg hunsigned, if_neg hunsigned, if_pos hneg, itoaUnsigned_eq hb h16, hds, skewed,
        List.map_cons, List.map_cons, List.map_reverse]
      have hend : ((d :: ds).length : Int) =
          (([digitChar d] ++ ds.map digitChar).length : Int) := by simp
      rw [hend]
      exact hturn
  · have hunsigned : ¬(num.toInt < 0 ∧ base = 10) := fun h => hneg h.1
    rw [if_neg hunsigned, if_neg hunsigned, if_neg hneg, itoaUnsigned_eq hb h16]
    by_cases hpos : 0 < num.toInt
    · have hturn := itoaReverse_ended m buf []
        ((numeralDigits base num.toNat).map digitChar)
      rw [List.length_nil, Int.natCast_zero, Int.add_zero, List.nil_append,
        List.length_map] at hturn
      rw [if_pos hpos, List.map_reverse]
      exact hturn
    · -- 0 has one digit, and there is nothing behind it
      have hzero : num.toNat = 0 := by
        have := toNat_of_nonneg hneg
        omega
      rw [if_neg hpos, hzero]
      exact itoaReverse_ended m buf [48] []

/-! ## When the text is the numeral -/

/-- The number that is to be written: only base 10 has a sign. -/
def itoaValue (num : BitVec 32) (base : Nat) : Int :=
  if base = 10 then num.toInt else num.toNat

/-- The buffer holds the numeral of the argument, in 33 characters at most. -/
def WritesNumeral (m : Track UInt8) (buf : Int) (num : BitVec 32) (base : Nat) : Prop :=
  ∃ s, (kernelItoa m buf num base).Spells buf s ∧ IsNumeral base (itoaValue num base) s ∧
    s.length ≤ 33

theorem skewed_rotate (ds : List Nat) : skewed ds = (ds.rotate 1).reverse := by
  cases ds with
  | nil => rfl
  | cons d ds => simp [skewed]

/-- The text has the digits of the number, and a sign in front of them at most. -/
theorem itoaText_ne_zero (hb : 2 ≤ base) (h16 : base ≤ 16) (num : BitVec 32) :
    ∀ c ∈ itoaText num base, c ≠ 0 := by
  have hdigit : ∀ n, ∀ d ∈ numeralDigits base n, digitChar d ≠ 0 := fun n d hd =>
    (digitChar_ne (Nat.lt_of_lt_of_le (numeralDigits_lt hb hd) h16)).2
  intro c hc
  rw [itoaText] at hc
  split at hc
  · rcases List.mem_cons.mp hc with rfl | hc
    · decide
    · obtain ⟨d, hd, rfl⟩ := List.mem_map.mp hc
      exact hdigit _ d (List.mem_reverse.mp hd)
  split at hc
  · obtain ⟨d, hd, rfl⟩ := List.mem_map.mp hc
    rw [skewed_rotate, List.mem_reverse, List.mem_rotate] at hd
    exact hdigit _ d hd
  · obtain ⟨d, hd, rfl⟩ := List.mem_map.mp hc
    exact hdigit _ d (List.mem_reverse.mp hd)

theorem itoaText_length (num : BitVec 32) (base : Nat) :
    (itoaText num base).length =
      if num.toInt < 0 ∧ base = 10 then (numeralDigits base num.toInt.natAbs).length + 1
      else (numeralDigits base num.toNat).length := by
  rw [itoaText]
  split
  · simp
  split <;> simp [skewed_rotate]

theorem itoaText_length_le (hb : 2 ≤ base) (num : BitVec 32) : (itoaText num base).length ≤ 33 := by
  have hlt := num.isLt
  have hpow : 2 ^ 32 ≤ base ^ 32 := Nat.pow_le_pow_left hb 32
  rw [itoaText_length]
  split
  · refine Nat.succ_le_succ ((numeralDigits_length_le_iff hb (by decide) _).mpr ?_)
    have hlow := num.le_toInt
    norm_num at hlow hpow ⊢
    omega
  · exact Nat.le_succ_of_le ((numeralDigits_length_le_iff hb (by decide) _).mpr (by omega))

/-- What the buffer spells is the text. -/
theorem writesNumeral_iff (hbase : base = 2 ∨ base = 8 ∨ base = 10 ∨ base = 16)
    (num : BitVec 32) :
    WritesNumeral m buf num base ↔ IsNumeral base (itoaValue num base) (itoaText num base) := by
  have hb : 2 ≤ base := by omega
  have hspells : (kernelItoa m buf num base).Spells buf (itoaText num base) := by
    rw [kernelItoa_eq hbase]
    exact Track.spells_write (itoaText_ne_zero hb (by omega) num)
  constructor
  · rintro ⟨s, hs, hnum, -⟩
    exact hspells.unique hs ▸ hnum
  · exact fun h => ⟨_, hspells, h, itoaText_length_le hb num⟩

/-- The last digit in front is right only where all digits are the same. -/
theorem skewed_numeral_iff (hb : 2 ≤ base) (h16 : base ≤ 16) (n : Nat) :
    IsNumeral base n ((skewed (numeralDigits base n)).map digitChar) ↔
      ∃ d, numeralDigits base n = List.replicate (numeralDigits base n).length d := by
  have hlt : ∀ d ∈ (numeralDigits base n).rotate 1, d < base := fun d hd =>
    numeralDigits_lt hb (List.mem_rotate.mp hd)
  have hne : (numeralDigits base n).rotate 1 ≠ [] := by
    simpa using numeralDigits_ne_nil base n
  rw [← List.rotate_one_eq_self_iff_eq_replicate, ← value_eq_iff hb hlt (List.length_rotate ..),
    skewed_rotate]
  constructor
  · intro h
    have hparse := h.parse
    rw [parseNumeral_chars hne hlt h16] at hparse
    exact Int.ofNat.inj (Option.some.inj hparse)
  · intro h
    rw [(value_eq_iff hb hlt (List.length_rotate ..)).mp h]
    exact isNumeral_digits hb h16 n

/-- The text is the numeral of the argument, unless the argument is negative,
the base is not 10 and two of the digits differ. -/
theorem kernelItoa_numeral_iff (m : Track UInt8) (buf : Int) (num : BitVec 32) (base : Nat)
    (hbase : base = 2 ∨ base = 8 ∨ base = 10 ∨ base = 16) :
    WritesNumeral m buf num base ↔ 0 ≤ num.toInt ∨ base = 10 ∨
      ∃ d, numeralDigits base num.toNat =
        List.replicate (numeralDigits base num.toNat).length d := by
  have hb : 2 ≤ base := by omega
  have h16 : base ≤ 16 := by omega
  rw [writesNumeral_iff hbase, itoaText]
  by_cases hneg : num.toInt < 0
  · by_cases h10 : base = 10
    · have hne : num.toInt.natAbs ≠ 0 := by omega
      have habs : num.toInt = -(num.toInt.natAbs : Int) := by omega
      have hnum := isNumeral_neg hb h16 hne
      rw [← habs] at hnum
      rw [if_pos ⟨hneg, h10⟩, itoaValue, if_pos h10]
      exact iff_of_true hnum (.inr (.inl h10))
    · rw [if_neg (fun h => h10 h.2), if_pos hneg, itoaValue, if_neg h10,
        skewed_numeral_iff hb h16]
      constructor
      · exact fun h => .inr (.inr h)
      · rintro (h | h | h)
        · omega
        · exact absurd h h10
        · exact h
  · have hvalue : itoaValue num base = num.toNat := by
      rw [itoaValue, toNat_of_nonneg hneg, ite_self]
    rw [if_neg (fun h => hneg h.1), if_neg hneg, hvalue]
    exact iff_of_true (isNumeral_digits hb h16 _) (.inl (Int.not_lt.mp hneg))

/-- 255 in base 16. -/
theorem kernelItoa_numeral_iff_ff :
    WritesNumeral (Track.start fun _ => 0) 0 255 16 ↔ 0 ≤ (255 : BitVec 32).toInt ∨ 16 = 10 ∨
      ∃ d, numeralDigits 16 (255 : BitVec 32).toNat =
        List.replicate (numeralDigits 16 (255 : BitVec 32).toNat).length d :=
  kernelItoa_numeral_iff (Track.start fun _ => 0) 0 255 16 (by decide)

/-- The register value 0x80000000 comes out as `08000000`. -/
theorem kernelItoa_numeral_iff_high :
    ¬WritesNumeral (Track.start fun _ => 0) 0 0x80000000 16 := by
  intro h
  have hdigits : numeralDigits 16 2147483648 = [0, 0, 0, 0, 0, 0, 0, 8] := by
    norm_num [numeralDigits]
  have htext : itoaText 0x80000000 16 = (skewed (numeralDigits 16 2147483648)).map digitChar := rfl
  have hvalue : itoaValue 0x80000000 16 = (2147483648 : Nat) := rfl
  rw [writesNumeral_iff (by decide), htext, hvalue] at h
  obtain ⟨d, hd⟩ := (skewed_numeral_iff (by decide) (by decide) 2147483648).mp h
  rw [hdigits] at hd
  simp [List.replicate] at hd
  omega

end Wjos
