/-
Wjos.Fs.Fatfs.Names — the 8.3 names of `kernel/fs/fatfs/fatfs.c`: what
`to_sfn` stores in an entry and what `diritem_get_name` gives back.

`sfnSource` runs the loop of `to_sfn` on positions instead of characters: it
says which character of the path each column of the entry holds. What
`to_sfn` stores is read off it (`toSfn_eq_source`), and so is whether a
column of the extension still holds a character from before a dot.

The round trip has one hole. `diritem_get_name` clears `SFN_LEN + 1` bytes
of its buffer, which counts the eleven characters and the NUL but not the
dot it puts between them. A name with eight characters and three of
extension fills these twelve bytes, and the byte that should end it is
whatever was there before. For paths that are no 8.3 names `to_sfn` writes
each part after a dot over the one before and blanks nothing, so a shorter
part leaves the end of a longer one in place.
-/
import Mathlib.Data.List.GetD
import Wjos.Fs.Fatfs.Fatfs

namespace Wjos

open Lib

/-! ## 8.3 names -/

/-- The letter case that `to_sfn` stores. -/
def sfnUpper (c : UInt8) : UInt8 := if 97 ≤ c ∧ c ≤ 122 then c - 97 + 65 else c

/-- A character of an 8.3 name: no NUL, space, dot or slash. -/
def SfnChar (c : UInt8) : Prop := c ≠ 0 ∧ c ≠ 32 ∧ c ≠ 46 ∧ c ≠ 47

/-- A valid 8.3 name. `ext` is empty where the name has no dot. -/
structure SfnName where
  base : List UInt8
  ext : List UInt8
  base_ne : base ≠ []
  base_le : base.length ≤ 8
  ext_le : ext.length ≤ 3
  chars : ∀ c ∈ base ++ ext, SfnChar c

/-- The name as it is written. -/
def SfnName.text (n : SfnName) : List UInt8 :=
  if n.ext = [] then n.base else n.base ++ 46 :: n.ext

/-- `buf` holds the string `s` with the NUL that ends it. -/
def HoldsString (buf : Nat → UInt8) (s : List UInt8) : Prop := ∀ i ≤ s.length, buf i = cString s i

/-- A letter is stored as a capital, another character as it is. -/
theorem sfnUpper_cases (c : UInt8) :
    (65 ≤ (sfnUpper c).toNat ∧ (sfnUpper c).toNat ≤ 90) ∨
      (sfnUpper c = c ∧ ¬(97 ≤ c ∧ c ≤ 122)) := by
  unfold sfnUpper
  split
  next h =>
    have h₁ : 97 ≤ c.toNat := UInt8.le_iff_toNat_le.mp h.1
    have h₂ : c.toNat ≤ 122 := UInt8.le_iff_toNat_le.mp h.2
    refine .inl ?_
    simp only [UInt8.toNat_add, UInt8.toNat_sub, UInt8.reduceToNat]
    omega
  next h => exact .inr ⟨rfl, h⟩

theorem sfnUpper_sfnUpper (c : UInt8) : sfnUpper (sfnUpper c) = sfnUpper c := by
  rcases sfnUpper_cases c with h | h
  · rw [sfnUpper, if_neg fun hl => ?_]
    have := UInt8.le_iff_toNat_le.mp hl.1
    simp only [UInt8.reduceToNat] at this
    omega
  · rw [h.1, h.1]

theorem SfnChar.upper {c : UInt8} (h : SfnChar c) : SfnChar (sfnUpper c) := by
  rcases sfnUpper_cases c with hc | hc
  · have hne : ∀ d : UInt8, d.toNat < 65 → sfnUpper c ≠ d := fun d hd he => by
      rw [he] at hc
      omega
    exact ⟨hne 0 (by decide), hne 32 (by decide), hne 46 (by decide), hne 47 (by decide)⟩
  · rw [hc.1]
    exact h

/-! ## The loop of `to_sfn` on positions -/

/-- The loop of `to_sfn`, storing where each character comes from; `i` is the
position of the next one. -/
def sfnSourceLoop : List UInt8 → (Nat → Option Nat) → (curr i : Nat) → Nat → Option Nat
  | [], source, _, _ => source
  | c :: src, source, curr, i =>
    if c = 0 ∨ curr ≥ sfnLen then source
    else if c = 46 then sfnSourceLoop src source 8 (i + 1)
    else sfnSourceLoop src (fun a => if a = curr then some i else source a) (curr + 1) (i + 1)

/-- The position of the character that column `a` holds, `none` for a blank. -/
def sfnSource (path : List UInt8) : Nat → Option Nat := sfnSourceLoop path (fun _ => none) 0 0

/-- What a column holds. -/
def sfnColumn (path : List UInt8) : Option Nat → UInt8
  | none => 32
  | some i => sfnUpper (path.getD i 0)

theorem toSfnLoop_eq_source {path src : List UInt8} {dest : Nat → UInt8}
    {source : Nat → Option Nat} {curr i : Nat} (hsrc : src = path.drop i)
    (hd : ∀ a, dest a = sfnColumn path (source a)) (a : Nat) :
    toSfnLoop src dest curr a = sfnColumn path (sfnSourceLoop src source curr i a) := by
  induction src generalizing dest source curr i with
  | nil => exact hd a
  | cons c src ih =>
    have htail : src = path.drop (i + 1) := by
      rw [← List.tail_drop, ← hsrc, List.tail_cons]
    have hc : path.getD i 0 = c := by
      have h := congrArg (fun l => l.getD 0 0) hsrc
      simpa using h.symm
    rw [toSfnLoop, sfnSourceLoop]
    split
    · exact hd a
    · split
      · exact ih htail hd
      · refine ih htail fun b => ?_
        split
        · rw [sfnColumn, hc]
          rfl
        · exact hd b

/-- `to_sfn` stores in each column the character it comes from. -/
theorem toSfn_eq_source (path : List UInt8) :
    toSfn path = (List.range sfnLen).map fun a => sfnColumn path (sfnSource path a) :=
  List.map_congr_left fun a _ =>
    @toSfnLoop_eq_source path path (fun _ => 32) (fun _ => none) 0 0 List.drop_zero.symm
      (fun _ => rfl) a

/-- A part without a dot fills the columns from `curr` on. -/
theorem sfnSourceLoop_append {part rest : List UInt8} {source : Nat → Option Nat} {curr i : Nat}
    (hp : ∀ c ∈ part, c ≠ 0 ∧ c ≠ 46) (hc : curr + part.length ≤ sfnLen) :
    sfnSourceLoop (part ++ rest) source curr i =
      sfnSourceLoop rest
        (fun a => if curr ≤ a ∧ a < curr + part.length then some (i + (a - curr)) else source a)
        (curr + part.length) (i + part.length) := by
  induction part generalizing source curr i with
  | nil =>
    have h : (fun a => if curr ≤ a ∧ a < curr + 0 then some (i + (a - curr)) else source a) =
        source := funext fun a => if_neg (by omega)
    simp only [List.nil_append, List.length_nil, Nat.add_zero] at h ⊢
    rw [h]
  | cons c part ih =>
    obtain ⟨h0, h46⟩ := hp c List.mem_cons_self
    rw [List.length_cons] at hc
    rw [List.cons_append, sfnSourceLoop, if_neg (by simp only [h0, false_or]; omega), if_neg h46,
      ih (fun d hd => hp d (List.mem_cons_of_mem c hd)) (by omega)]
    have hs : ∀ a, (if curr + 1 ≤ a ∧ a < curr + 1 + part.length
          then some (i + 1 + (a - (curr + 1))) else if a = curr then some i else source a) =
        if curr ≤ a ∧ a < curr + (part.length + 1) then some (i + (a - curr)) else source a := by
      intro a
      by_cases h : a = curr
      · rw [h, if_neg (by omega), if_pos rfl, if_pos (by omega), Nat.sub_self, Nat.add_zero]
      · by_cases h' : curr ≤ a ∧ a < curr + (part.length + 1)
        · rw [if_pos (by omega), if_pos h']
          congr 1
          omega
        · rw [if_neg (by omega), if_neg h, if_neg h']
    rw [funext hs, List.length_cons, Nat.add_right_comm curr, Nat.add_right_comm i]
    rfl

/-- A part that reaches the last column ends the loop. -/
theorem sfnSourceLoop_full {part rest : List UInt8} {source : Nat → Option Nat} {curr i a : Nat}
    (hp : ∀ c ∈ part, c ≠ 0 ∧ c ≠ 46) (hc : sfnLen ≤ curr + part.length) (ha : curr ≤ a)
    (ha' : a < sfnLen) :
    sfnSourceLoop (part ++ rest) source curr i a = some (i + (a - curr)) := by
  have hlen : (part.take (sfnLen - curr)).length = sfnLen - curr := by
    rw [List.length_take]
    omega
  rw [← List.take_append_drop (sfnLen - curr) part, List.append_assoc,
    sfnSourceLoop_append (fun c h => hp c (List.mem_of_mem_take h)) (by omega), hlen,
    show curr + (sfnLen - curr) = sfnLen by omega]
  cases part.drop (sfnLen - curr) ++ rest with
  | nil => exact if_pos ⟨ha, ha'⟩
  | cons c l =>
    rw [sfnSourceLoop, if_pos (.inr (Nat.le_refl _))]
    exact if_pos ⟨ha, ha'⟩

/-- The last part, up to the last column. -/
theorem sfnSourceLoop_last {part : List UInt8} {source : Nat → Option Nat} {curr i a : Nat}
    (hp : ∀ c ∈ part, c ≠ 0 ∧ c ≠ 46) (ha : curr ≤ a) (ha' : a < sfnLen) :
    sfnSourceLoop part source curr i a =
      if a < curr + part.length then some (i + (a - curr)) else source a := by
  rw [← List.append_nil part]
  rcases Nat.le_total (curr + part.length) sfnLen with hc | hc
  · rw [sfnSourceLoop_append hp hc, sfnSourceLoop, List.append_nil]
    simp only [ha, true_and]
  · rw [sfnSourceLoop_full hp hc ha ha', List.append_nil, if_pos (by omega)]

/-! ## The entry of a valid name -/

theorem SfnName.base_chars (n : SfnName) : ∀ c ∈ n.base, c ≠ 0 ∧ c ≠ 46 := fun c h =>
  have hc := n.chars c (List.mem_append_left n.ext h)
  ⟨hc.1, hc.2.2.1⟩

theorem SfnName.ext_chars (n : SfnName) : ∀ c ∈ n.ext, c ≠ 0 ∧ c ≠ 46 := fun c h =>
  have hc := n.chars c (List.mem_append_right n.base h)
  ⟨hc.1, hc.2.2.1⟩

/-- Where the columns of a valid name come from. -/
theorem SfnName.source (n : SfnName) (a : Nat) :
    sfnSource n.text a =
      if a < n.base.length then some a
      else if 8 ≤ a ∧ a < 8 + n.ext.length then some (n.base.length + 1 + (a - 8)) else none := by
  have hb := n.base_le
  have he := n.ext_le
  have hbase : ∀ rest, sfnSource (n.base ++ rest) =
      sfnSourceLoop rest (fun a => if a < n.base.length then some a else none)
        n.base.length n.base.length := by
    intro rest
    rw [sfnSource, sfnSourceLoop_append n.base_chars (by rw [sfnLen]; omega)]
    simp
  unfold SfnName.text
  split
  next h =>
    rw [← List.append_nil n.base, hbase, sfnSourceLoop, List.append_nil, h, List.length_nil]
    split
    · rfl
    · rw [if_neg (by omega)]
  · rw [hbase, sfnSourceLoop, if_neg (by rw [sfnLen]; simp; omega), if_pos rfl,
      ← List.append_nil n.ext, sfnSourceLoop_append n.ext_chars (by rw [sfnLen]; omega),
      sfnSourceLoop, List.append_nil]
    by_cases ha : a < n.base.length
    · rw [if_neg (by omega), if_pos ha, if_pos ha]
    · rw [if_neg ha, if_neg ha]

/-- The columns of a valid name: the base from the first on, the extension
from the ninth on, blanks elsewhere. -/
theorem SfnName.column (n : SfnName) (a : Nat) :
    sfnColumn n.text (sfnSource n.text a) =
      if a < 8 then (n.base.map sfnUpper).getD a 32 else (n.ext.map sfnUpper).getD (a - 8) 32 := by
  have hb := n.base_le
  rw [n.source]
  split
  next ha =>
    have ht : n.text.getD a 0 = n.base.getD a 0 := by
      unfold SfnName.text
      split
      · rfl
      · exact List.getD_append _ _ _ _ ha
    rw [if_pos (by omega), sfnColumn, ht]
    simp [List.getD, ha]
  next ha =>
    split
    next h8 =>
      have hne : n.ext ≠ [] := List.ne_nil_of_length_pos (by omega)
      have ht : n.text.getD (n.base.length + 1 + (a - 8)) 0 = n.ext.getD (a - 8) 0 := by
        rw [SfnName.text, if_neg hne, List.getD_append_right _ _ _ _ (by omega),
          show n.base.length + 1 + (a - 8) - n.base.length = a - 8 + 1 by omega,
          List.getD_cons_succ]
      rw [if_neg (by omega), sfnColumn, ht]
      simp [List.getD, show a - 8 < n.ext.length by omega]
    next h8 =>
      split
      · simp [sfnColumn, List.getD, show n.base.length ≤ a by omega]
      · simp [sfnColumn, List.getD, show n.ext.length ≤ a - 8 by omega]

/-- A field of `m` columns is padded with blanks. -/
theorem map_range_getD {l : List UInt8} {m : Nat} (h : l.length ≤ m) :
    (List.range m).map (fun a => l.getD a 32) = l ++ List.replicate (m - l.length) 32 := by
  refine List.ext_getElem (by simp; omega) fun a h₁ h₂ => ?_
  rw [List.getElem_map, List.getElem_range, List.getElem_append]
  split
  next ha => exact List.getD_eq_getElem l 32 ha
  next ha => rw [List.getElem_replicate, List.getD_eq_default _ _ (by omega)]

/-- The entry of a valid name: both fields, padded with blanks. -/
theorem SfnName.toSfn_text (n : SfnName) :
    toSfn n.text =
      (n.base.map sfnUpper ++ List.replicate (8 - n.base.length) 32) ++
        (n.ext.map sfnUpper ++ List.replicate (3 - n.ext.length) 32) := by
  have hb := map_range_getD (l := n.base.map sfnUpper) (by simpa using n.base_le)
  have he := map_range_getD (l := n.ext.map sfnUpper) (by simpa using n.ext_le)
  rw [List.length_map] at hb he
  rw [← hb, ← he, toSfn_eq_source]
  simp only [n.column]
  rfl

/-- The name in capitals. -/
def SfnName.upper (n : SfnName) : SfnName where
  base := n.base.map sfnUpper
  ext := n.ext.map sfnUpper
  base_ne := mt List.map_eq_nil_iff.mp n.base_ne
  base_le := by simpa using n.base_le
  ext_le := by simpa using n.ext_le
  chars := by
    intro c hc
    rw [← List.map_append] at hc
    obtain ⟨d, hd, rfl⟩ := List.mem_map.mp hc
    exact (n.chars d hd).upper

theorem SfnName.upper_text (n : SfnName) : n.upper.text = n.text.map sfnUpper := by
  simp only [SfnName.text, SfnName.upper, List.map_eq_nil_iff]
  split
  · rfl
  · rw [List.map_append, List.map_cons]
    rfl

/-- The capitals match the entry again. -/
theorem SfnName.toSfn_upper (n : SfnName) : toSfn (n.text.map sfnUpper) = toSfn n.text := by
  have hm : ∀ l : List UInt8, (l.map sfnUpper).map sfnUpper = l.map sfnUpper := fun l => by
    rw [List.map_map, show sfnUpper ∘ sfnUpper = sfnUpper from funext sfnUpper_sfnUpper]
  rw [← n.upper_text, n.upper.toSfn_text, n.toSfn_text]
  simp only [SfnName.upper, hm, List.length_map]

/-- The blanks of a field can be taken out again. -/
theorem filter_field {l : List UInt8} (h : ∀ c ∈ l, SfnChar c) (k : Nat) :
    (l.map sfnUpper ++ List.replicate k 32).filter (· ≠ 32) = l.map sfnUpper := by
  rw [List.filter_append, List.filter_eq_self.mpr, List.filter_eq_nil_iff.mpr, List.append_nil]
  · intro c hc
    simp [List.eq_of_mem_replicate hc]
  · intro c hc
    obtain ⟨d, hd, rfl⟩ := List.mem_map.mp hc
    simpa using (h d hd).upper.2.1

theorem SfnName.base_field (n : SfnName) :
    ((toSfn n.text).take 8).filter (· ≠ 32) = n.base.map sfnUpper := by
  have hb := n.base_le
  rw [n.toSfn_text, List.take_left' (by simp; omega)]
  exact filter_field (fun c h => n.chars c (List.mem_append_left _ h)) _

theorem SfnName.ext_field (n : SfnName) :
    ((toSfn n.text).drop 8).filter (· ≠ 32) = n.ext.map sfnUpper := by
  have hb := n.base_le
  rw [n.toSfn_text, List.drop_left' (by simp; omega)]
  exact filter_field (fun c h => n.chars c (List.mem_append_right _ h)) _

/-- Two valid names with one entry differ in letter case at most. -/
theorem SfnName.eq_of_toSfn {n m : SfnName} (h : toSfn n.text = toSfn m.text) :
    n.text.map sfnUpper = m.text.map sfnUpper := by
  have hb : n.base.map sfnUpper = m.base.map sfnUpper := by
    rw [← n.base_field, ← m.base_field, h]
  have he : n.ext.map sfnUpper = m.ext.map sfnUpper := by
    rw [← n.ext_field, ← m.ext_field, h]
  rw [← n.upper_text, ← m.upper_text]
  simp only [SfnName.text, SfnName.upper, hb, he]
  rfl

/-! ## Reading a name back -/

/-- `dest` with the characters `chars` stored from offset `c` on. -/
def storeChars (dest : Nat → UInt8) (c : Nat) (chars : List UInt8) : Nat → UInt8 :=
  copyTo dest c chars.length (cString chars)

theorem storeChars_nil (dest : Nat → UInt8) (c : Nat) : storeChars dest c [] = dest :=
  funext fun _ => if_neg (by rw [List.length_nil]; omega)

theorem storeChars_append (dest : Nat → UInt8) (c : Nat) (xs ys : List UInt8) :
    storeChars (storeChars dest c xs) (c + xs.length) ys = storeChars dest c (xs ++ ys) := by
  funext a
  unfold storeChars
  by_cases h₁ : a < c + xs.length
  · rw [copyTo_of_lt h₁]
    by_cases h₂ : c ≤ a
    · rw [copyTo_of_mem h₂ h₁, copyTo_of_mem h₂ (by simp; omega), cString, cString,
        List.getD_append _ _ _ _ (by omega)]
    · rw [copyTo_of_lt (by omega), copyTo_of_lt (by omega)]
  · by_cases h₂ : a < c + xs.length + ys.length
    · rw [copyTo_of_mem (by omega) h₂, copyTo_of_mem (by omega) (by simp; omega), cString, cString,
        List.getD_append_right _ _ _ _ (by omega), Nat.sub_sub]
    · rw [copyTo_of_ge (by omega), copyTo_of_ge (by omega), copyTo_of_ge (by simp; omega)]

theorem storeChars_singleton (dest : Nat → UInt8) (c : Nat) (x : UInt8) :
    storeChars dest c [x] = fun a => if a = c then x else dest a := by
  funext a
  by_cases h : a = c
  · rw [if_pos h, h, storeChars, copyTo_of_mem (Nat.le_refl c) (by simp), Nat.sub_self]
    rfl
  · rw [if_neg h]
    rcases Nat.lt_or_gt_of_ne h with h | h
    · exact copyTo_of_lt h
    · exact copyTo_of_ge h

/-- The character that the loop of `diritem_get_name` copies from column
`i`, if any. -/
def columnChars (item : DirItem) (i : Nat) : List UInt8 := if item i ≠ 32 then [item i] else []

/-- One round: the character of the column, and after the eighth the dot. -/
theorem diritemGetNameLoop_round (item : DirItem) (n : Nat) (dest : Nat → UInt8) (i c : Nat)
    (ext : Option Nat) :
    diritemGetNameLoop item (n + 1) dest i c ext =
      if i = 7 then
        diritemGetNameLoop item n (storeChars dest c (columnChars item i ++ [46])) (i + 1)
          (c + (columnChars item i).length + 1) (some (c + (columnChars item i).length))
      else
        diritemGetNameLoop item n (storeChars dest c (columnChars item i)) (i + 1)
          (c + (columnChars item i).length) ext := by
  rw [← storeChars_append, storeChars_singleton]
  by_cases hb : item i = 32
  · simp [diritemGetNameLoop, columnChars, hb, storeChars_nil]
  · simp [diritemGetNameLoop, columnChars, hb, storeChars_singleton]

/-- The characters of `n` columns from `i` on. -/
def fieldChars (item : DirItem) (i n : Nat) : List UInt8 :=
  ((List.range' i n).map item).filter (· ≠ 32)

theorem fieldChars_succ (item : DirItem) (i n : Nat) :
    fieldChars item i (n + 1) = columnChars item i ++ fieldChars item (i + 1) n := by
  unfold fieldChars columnChars
  rw [List.range'_succ, List.map_cons]
  by_cases hb : item i = 32
  · simp [hb]
  · simp [hb]

/-- Rounds without the dot copy the characters of their columns. -/
theorem diritemGetNameLoop_field (item : DirItem) {n m i c : Nat} {dest : Nat → UInt8}
    {ext : Option Nat} (hi : i + n ≤ 7 ∨ 7 < i) :
    diritemGetNameLoop item (n + m) dest i c ext =
      diritemGetNameLoop item m (storeChars dest c (fieldChars item i n)) (i + n)
        (c + (fieldChars item i n).length) ext := by
  induction n generalizing dest i c with
  | zero => simp [fieldChars, storeChars_nil]
  | succ n ih =>
    rw [Nat.add_right_comm, diritemGetNameLoop_round, if_neg (by omega), ih (by omega),
      storeChars_append, ← fieldChars_succ]
    congr 1
    · omega
    · rw [fieldChars_succ, List.length_append, Nat.add_assoc]

/-- All eleven rounds: the base, the dot, the extension. -/
theorem diritemGetNameLoop_all (item : DirItem) (dest : Nat → UInt8) :
    diritemGetNameLoop item 11 dest 0 0 none =
      (storeChars dest 0 (fieldChars item 0 8 ++ 46 :: fieldChars item 8 3),
        some (fieldChars item 0 8).length) := by
  have hbase : fieldChars item 0 8 = fieldChars item 0 7 ++ columnChars item 7 := by
    simp only [fieldChars_succ, List.append_assoc]
    simp [fieldChars]
  rw [diritemGetNameLoop_field item (n := 7) (m := 4) (.inl (by omega)),
    diritemGetNameLoop_round, if_pos rfl,
    diritemGetNameLoop_field item (n := 3) (m := 0) (.inr (by omega)), diritemGetNameLoop,
    storeChars_append]
  have hlen : 0 + (fieldChars item 0 7).length + (columnChars item 7).length + 1 =
      0 + (fieldChars item 0 7 ++ (columnChars item 7 ++ [46])).length := by
    simp only [List.length_append, List.length_singleton, Nat.add_assoc]
  rw [hlen, storeChars_append, hbase]
  simp

theorem diritemGetName_eq (item : DirItem) (dest : Nat → UInt8) :
    diritemGetName item dest =
      let buf := storeChars (copyTo dest 0 (sfnLen + 1) fun _ => 0) 0
        (fieldChars item 0 8 ++ 46 :: fieldChars item 8 3)
      if buf ((fieldChars item 0 8).length + 1) = 0 then
        fun a => if a = (fieldChars item 0 8).length then 0 else buf a
      else buf := by
  unfold diritemGetName
  dsimp only
  rw [diritemGetNameLoop_all]

/-- Stored characters are a string when a NUL follows them. -/
theorem holdsString_storeChars {dest : Nat → UInt8} {chars : List UInt8} :
    HoldsString (storeChars dest 0 chars) chars ↔ dest chars.length = 0 := by
  have hend : storeChars dest 0 chars chars.length = dest chars.length := copyTo_of_ge (by omega)
  have hnul : cString chars chars.length = 0 := List.getD_eq_default _ _ (Nat.le_refl _)
  constructor
  · intro h
    rw [← hend, h _ (Nat.le_refl _), hnul]
  · intro h i hi
    rcases Nat.lt_or_eq_of_le hi with hi | rfl
    · exact copyTo_zero_of_lt hi
    · rw [hend, hnul, h]

/-- The fields of an entry that `to_sfn` made of a valid name. -/
theorem SfnName.fields (n : SfnName) {item : DirItem} (h : item.name = toSfn n.text) :
    fieldChars item 0 8 = n.base.map sfnUpper ∧ fieldChars item 8 3 = n.ext.map sfnUpper := by
  constructor
  · rw [← n.base_field, ← h]
    rfl
  · rw [← n.ext_field, ← h]
    rfl

theorem SfnName.length_text (n : SfnName) : n.text.length ≤ 12 := by
  have hb := n.base_le
  have he := n.ext_le
  unfold SfnName.text
  split
  · omega
  · rw [List.length_append, List.length_cons]
    omega

/-- `diritem_get_name` gives the name back in capitals, ended by a NUL that
is the caller's when the name has twelve characters. -/
theorem SfnName.getName (n : SfnName) {item : DirItem} (h : item.name = toSfn n.text)
    (dest : Nat → UInt8) :
    HoldsString (diritemGetName item dest) (n.text.map sfnUpper) ↔
      n.text.length < 12 ∨ dest 12 = 0 := by
  obtain ⟨hbase, hext⟩ := n.fields h
  have hb := n.base_le
  have hlen := n.length_text
  have hclear : ∀ a < 12, copyTo dest 0 (sfnLen + 1) (fun _ => 0) a = 0 :=
    fun a ha => copyTo_zero_of_lt ha
  rw [diritemGetName_eq, hbase, hext, List.length_map]
  by_cases he : n.ext = []
  · have htext : n.text = n.base := if_pos he
    have hnul : storeChars (copyTo dest 0 (sfnLen + 1) fun _ => 0) 0 (n.base.map sfnUpper ++ [46])
        (n.base.length + 1) = 0 := by
      rw [storeChars, copyTo_of_ge (by simp), hclear _ (by omega)]
    rw [he, List.map_nil, if_pos hnul]
    refine iff_of_true (fun i hi => ?_) (.inl (by rw [htext]; omega))
    rw [htext, List.length_map] at hi
    rw [htext]
    dsimp only
    split
    next hi' =>
      rw [hi', cString, List.getD_eq_default _ _ (by rw [List.length_map])]
    next hi' =>
      rw [storeChars, copyTo_zero_of_lt (by simp; omega), cString, cString,
        List.getD_append _ _ _ _ (by rw [List.length_map]; omega)]
  · have htext : n.text.map sfnUpper = n.base.map sfnUpper ++ 46 :: n.ext.map sfnUpper := by
      rw [SfnName.text, if_neg he, List.map_append, List.map_cons]
      rfl
    have hne : storeChars (copyTo dest 0 (sfnLen + 1) fun _ => 0) 0
        (n.base.map sfnUpper ++ 46 :: n.ext.map sfnUpper) (n.base.length + 1) ≠ 0 := by
      obtain ⟨e, l, hel⟩ := List.exists_cons_of_ne_nil he
      have hchar : SfnChar e := n.chars e (List.mem_append_right _ (hel ▸ List.mem_cons_self))
      rw [storeChars, copyTo_zero_of_lt (by simp [hel]), cString,
        List.getD_append_right _ _ _ _ (by simp), List.length_map, Nat.add_sub_cancel_left, hel]
      exact hchar.upper.1
    rw [if_neg hne, ← htext, holdsString_storeChars, List.length_map]
    rcases Nat.lt_or_eq_of_le hlen with hl | hl
    · exact iff_of_true (hclear _ hl) (.inl hl)
    · rw [hl, copyTo_of_ge (by decide)]
      simp

/-! ## Characters from before a dot -/

/-- No column of the extension holds a character that a dot follows. -/
def StaleFree (path : List UInt8) : Prop :=
  ∀ a i, 8 ≤ a → a < sfnLen → sfnSource path a = some i → 46 ∉ path.drop i

/-- How many columns of the extension a part reaches: the first part starts
at the first column, the others at the ninth. -/
def partReaches : List (List UInt8) → List Nat
  | [] => []
  | base :: exts => (base.length - 8) :: exts.map List.length

/-- The last part reaches as far as each one before it, and none of these
fills the extension. -/
def LastPartCovers (parts : List (List UInt8)) : Prop :=
  ∀ last ∈ parts.tail.getLast?, ∀ r ∈ (partReaches parts).dropLast, r ≤ 2 ∧ r ≤ last.length

/-- Induction over the parts of a path. -/
theorem parts_induction {motive : List UInt8 → Prop} (last : ∀ s, 46 ∉ s → motive s)
    (part : ∀ part rest, 46 ∉ part → motive rest → motive (part ++ 46 :: rest))
    (s : List UInt8) : motive s := by
  induction hn : s.length using Nat.strong_induction_on generalizing s with
  | _ n ih =>
    by_cases h : 46 ∈ s
    · obtain ⟨before, rest, rfl, hb⟩ := List.eq_append_cons_of_mem h
      refine part before rest hb (ih rest.length ?_ rest rfl)
      rw [← hn, List.length_append, List.length_cons]
      omega
    · exact last s h

/-- From a position in the part after the dot on, the path is that part. -/
theorem dot_not_mem_drop {part rest : List UInt8} {i k : Nat} :
    (i ≤ k ∧ 46 ∉ (part ++ 46 :: rest).drop (k - i)) ↔
      i + part.length + 1 ≤ k ∧ 46 ∉ rest.drop (k - (i + part.length + 1)) := by
  by_cases hk : i + part.length + 1 ≤ k
  · have hd : (part ++ 46 :: rest).drop (k - i) = rest.drop (k - (i + part.length + 1)) := by
      rw [show k - i = part.length + (1 + (k - (i + part.length + 1))) by omega,
        ← List.drop_drop, List.drop_left, ← List.drop_drop]
      rfl
    rw [hd]
    exact and_congr_left fun _ => iff_of_true (by omega) hk
  · refine iff_of_false (fun h => h.2 ?_) fun h => hk h.1
    rw [List.drop_append_of_le_length (by omega)]
    exact List.mem_append_right _ List.mem_cons_self

/-- The parts after a dot, `r` columns of the extension being written
before. -/
theorem sfnSourceLoop_fresh {path : List UInt8} (h0 : 0 ∉ path) {source : Nat → Option Nat}
    {i r : Nat} (hr : r ≤ 2) (hw : ∀ a, 8 ≤ a → a < sfnLen → (source a ≠ none ↔ a < 8 + r))
    (hold : ∀ a k, source a = some k → k < i) :
    (∀ a k, 8 ≤ a → a < sfnLen → sfnSourceLoop path source 8 i a = some k →
        i ≤ k ∧ 46 ∉ path.drop (k - i)) ↔
      ∀ last ∈ (path.splitOn 46).getLast?,
        ∀ m ∈ r :: (path.splitOn 46).dropLast.map List.length, m ≤ 2 ∧ m ≤ last.length := by
  induction path using parts_induction generalizing source i r with
  | last s hs =>
    have hchars : ∀ c ∈ s, c ≠ 0 ∧ c ≠ 46 :=
      fun c hc => ⟨fun h => h0 (h ▸ hc), fun h => hs (h ▸ hc)⟩
    have hright : (∀ last ∈ (s.splitOn 46).getLast?,
        ∀ m ∈ r :: (s.splitOn 46).dropLast.map List.length, m ≤ 2 ∧ m ≤ last.length) ↔
          r ≤ s.length := by
      rw [List.splitOn_eq_singleton hs]
      simp [hr]
    rw [hright]
    constructor
    · intro h
      by_contra hlt
      obtain ⟨k, hk⟩ := Option.ne_none_iff_exists'.mp
        ((hw (8 + s.length) (by omega) (by rw [sfnLen]; omega)).mpr (by omega))
      have hlate := h (8 + s.length) k (by omega) (by rw [sfnLen]; omega) (by
        rw [sfnSourceLoop_last hchars (by omega) (by rw [sfnLen]; omega), if_neg (by omega), hk])
      exact absurd (hold _ _ hk) (by omega)
    · intro h a k ha ha' hk
      rw [sfnSourceLoop_last hchars ha ha'] at hk
      split at hk
      · exact ⟨by have := Option.some.inj hk; omega, fun hd => hs (List.mem_of_mem_drop hd)⟩
      · exact absurd ((hw a ha ha').mp (by simp [hk])) (by omega)
  | part part rest hp ih =>
    have hchars : ∀ c ∈ part, c ≠ 0 ∧ c ≠ 46 :=
      fun c hc => ⟨fun h => h0 (h ▸ List.mem_append_left _ hc), fun h => hp (h ▸ hc)⟩
    have hparts : ((part ++ 46 :: rest).splitOn 46).dropLast =
        part :: (rest.splitOn 46).dropLast := by
      rw [List.splitOn_append_cons_self_of_not_mem hp,
        List.dropLast_cons_of_ne_nil (List.splitOn_ne_nil _ _)]
    have hlast : ((part ++ 46 :: rest).splitOn 46).getLast? = (rest.splitOn 46).getLast? := by
      obtain ⟨p, ps, hps⟩ := List.exists_cons_of_ne_nil (List.splitOn_ne_nil 46 rest)
      rw [List.splitOn_append_cons_self_of_not_mem hp, hps, List.getLast?_cons_cons]
    rw [hparts, hlast]
    by_cases hlen : part.length ≤ 2
    · have hw' : ∀ a, 8 ≤ a → a < sfnLen →
          ((if 8 ≤ a ∧ a < 8 + part.length then some (i + (a - 8)) else source a) ≠ none ↔
            a < 8 + max r part.length) := by
        intro a ha ha'
        split
        · exact iff_of_true (by simp) (by omega)
        · rw [hw a ha ha']
          omega
      have hold' : ∀ a k, (if 8 ≤ a ∧ a < 8 + part.length then some (i + (a - 8)) else source a) =
          some k → k < i + part.length + 1 := by
        intro a k hk
        split at hk
        · have := Option.some.inj hk
          omega
        · have := hold a k hk
          omega
      have hih := ih (fun h => h0 (List.mem_append_right _ (List.mem_cons_of_mem _ h)))
        (by omega) hw' hold'
      simp only [dot_not_mem_drop, sfnSourceLoop_append hchars (show 8 + part.length ≤ sfnLen by
        rw [sfnLen]; omega)]
      rw [sfnSourceLoop, if_neg (by rw [sfnLen]; simp; omega), if_pos rfl, hih]
      simp only [List.map_cons, List.forall_mem_cons, Nat.max_le]
      exact forall₂_congr fun last _ => by tauto
    · refine iff_of_false (fun h => ?_) fun h => ?_
      · have hfull := h 8 i (Nat.le_refl 8) (by decide) (by
          rw [sfnSourceLoop_full hchars (by rw [sfnLen]; omega) (Nat.le_refl 8) (by decide)]
          rfl)
        rw [Nat.sub_self] at hfull
        exact hfull.2 (List.mem_append_right _ List.mem_cons_self)
      · obtain ⟨last, hl⟩ := Option.ne_none_iff_exists'.mp
          (mt List.getLast?_eq_none_iff.mp (List.splitOn_ne_nil 46 rest))
        exact hlen (h last hl part.length (by simp)).1

/-- No stale character stays exactly when the last part covers the others. -/
theorem staleFree_iff {path : List UInt8} (h0 : 0 ∉ path) :
    StaleFree path ↔ LastPartCovers (path.splitOn 46) := by
  by_cases hdot : 46 ∈ path
  · obtain ⟨base, rest, rfl, hb⟩ := List.eq_append_cons_of_mem hdot
    have hchars : ∀ c ∈ base, c ≠ 0 ∧ c ≠ 46 :=
      fun c hc => ⟨fun h => h0 (h ▸ List.mem_append_left _ hc), fun h => hb (h ▸ hc)⟩
    have hne := List.splitOn_ne_nil 46 rest
    have hstale : StaleFree (base ++ 46 :: rest) ↔ ∀ a k, 8 ≤ a → a < sfnLen →
        sfnSourceLoop (base ++ 46 :: rest) (fun _ => none) 0 0 a = some k →
          0 ≤ k ∧ 46 ∉ (base ++ 46 :: rest).drop (k - 0) := by
      simp only [StaleFree, sfnSource, Nat.zero_le, true_and, Nat.sub_zero]
    have hcovers : LastPartCovers (base :: rest.splitOn 46) ↔
        ∀ last ∈ (rest.splitOn 46).getLast?, ∀ r ∈
          (base.length - 8) :: (rest.splitOn 46).dropLast.map List.length,
            r ≤ 2 ∧ r ≤ last.length := by
      rw [LastPartCovers, List.tail_cons, partReaches,
        List.dropLast_cons_of_ne_nil (by simp), List.map_dropLast]
    rw [List.splitOn_append_cons_self_of_not_mem hb, hstale, hcovers]
    by_cases hlen : base.length < sfnLen
    · simp only [dot_not_mem_drop,
        sfnSourceLoop_append hchars (show 0 + base.length ≤ sfnLen by omega)]
      rw [sfnSourceLoop, if_neg (by simp; omega), if_pos rfl]
      rw [sfnLen] at hlen
      refine sfnSourceLoop_fresh (fun h => h0 (List.mem_append_right _ (List.mem_cons_of_mem _ h)))
        (by omega) (fun a ha ha' => ?_) fun a k hk => ?_
      · split
        · exact iff_of_true (by simp) (by omega)
        · exact iff_of_false (by simp) (by omega)
      · split at hk
        · have := Option.some.inj hk
          omega
        · cases hk
    · refine iff_of_false (fun h => ?_) fun h => ?_
      · have hfull := h 8 8 (Nat.le_refl 8) (by decide)
          (by rw [sfnSourceLoop_full hchars (by omega) (by omega) (by decide)])
        rw [sfnLen] at hlen
        exact absurd (dot_not_mem_drop.mp hfull).1 (by omega)
      · obtain ⟨last, hl⟩ := Option.ne_none_iff_exists'.mp (mt List.getLast?_eq_none_iff.mp hne)
        have hr := (h last hl (base.length - 8) List.mem_cons_self).1
        rw [sfnLen] at hlen
        omega
  · rw [List.splitOn_eq_singleton hdot]
    refine iff_of_true (fun _ _ _ _ _ h => hdot (List.mem_of_mem_drop h)) fun last h => ?_
    simp at h

/-! ## The round trip -/

/-- `path` is a valid 8.3 name. -/
def IsSfnName (path : List UInt8) : Prop := ∃ n : SfnName, n.text = path

/-- Names survive the entry: a valid one comes back in capitals as a string
that matches the entry, and shares its entry with no other valid name; any
other path leaves no stale character in the extension. -/
def SfnRoundTrip (path : List UInt8) (dest : Nat → UInt8) : Prop :=
  (IsSfnName path →
    (∀ item : DirItem, item.name = toSfn path →
      HoldsString (diritemGetName item dest) (path.map sfnUpper) ∧
        diritemNameMatch item (path.map sfnUpper)) ∧
    ∀ other, IsSfnName other → toSfn other = toSfn path →
      other.map sfnUpper = path.map sfnUpper) ∧
  (¬IsSfnName path → StaleFree path)

/-- The name leaves room for the NUL in the bytes that `diritem_get_name`
clears, or the byte after them is 0; a path that is no name is covered by
its last part. -/
def SfnFits (path : List UInt8) (dest : Nat → UInt8) : Prop :=
  (IsSfnName path → path.length < 12 ∨ dest 12 = 0) ∧
    (¬IsSfnName path → LastPartCovers (path.splitOn 46))

/-- An entry with a given name. -/
def itemNamed (name : List UInt8) : DirItem := fun j => name.getD j 0

theorem itemNamed_toSfn (path : List UInt8) : (itemNamed (toSfn path)).name = toSfn path := by
  unfold DirItem.name itemNamed toSfn
  exact List.map_congr_left fun a ha => by
    simp [List.getD, List.mem_range.mp ha]

theorem sfn_round_trip_iff (path : List UInt8) (dest : Nat → UInt8) (h0 : 0 ∉ path) :
    SfnRoundTrip path dest ↔ SfnFits path dest := by
  refine and_congr (forall_congr' fun hname => ?_) (forall_congr' fun _ => staleFree_iff h0)
  obtain ⟨n, rfl⟩ := hname
  constructor
  · intro h
    exact (n.getName (itemNamed_toSfn _) dest).mp (h.1 _ (itemNamed_toSfn _)).1
  · intro h
    constructor
    · intro item hitem
      refine ⟨(n.getName hitem dest).mpr h, ?_⟩
      rw [diritemNameMatch, n.toSfn_upper, hitem]
      exact decide_eq_true rfl
    · rintro other ⟨m, rfl⟩ hm
      exact SfnName.eq_of_toSfn hm

/-- `notes.txt` over a buffer full of ones. -/
theorem sfn_round_trip_iff_notes :
    SfnRoundTrip [110, 111, 116, 101, 115, 46, 116, 120, 116] (fun _ => 1) ↔
      SfnFits [110, 111, 116, 101, 115, 46, 116, 120, 116] (fun _ => 1) :=
  sfn_round_trip_iff _ _ (by decide)

/-- `ABCDEFGH.TXT` over a buffer full of ones comes back without a NUL. -/
theorem full_name_not_terminated :
    ¬SfnRoundTrip [65, 66, 67, 68, 69, 70, 71, 72, 46, 84, 88, 84] fun _ => 1 := by
  intro h
  let n : SfnName :=
    { base := [65, 66, 67, 68, 69, 70, 71, 72]
      ext := [84, 88, 84]
      base_ne := by decide
      base_le := by decide
      ext_le := by decide
      chars := by simp [SfnChar] }
  have hend := (h.1 ⟨n, rfl⟩).1 _ (itemNamed_toSfn _)
  exact absurd (hend.1 12 (by decide)) (by decide)

/-- `ABCDEFGHIJ.T` leaves the `J` in the extension. -/
example : toSfn [65, 66, 67, 68, 69, 70, 71, 72, 73, 74, 46, 84] =
    [65, 66, 67, 68, 69, 70, 71, 72, 84, 74, 32] := by decide

end Wjos
