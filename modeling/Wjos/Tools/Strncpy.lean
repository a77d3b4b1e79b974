/-
Wjos.Tools.Strncpy — where `kernel_strncpy` stores.

`kernelStrncpyTracked` is the function on a memory that keeps track of its
stores, in which `dest` is the cell 0 and -1 the byte in front of it; `src` is
a string that does not overlap `dest`. The loop tests `size` and lowers it in
one expression, so after it `size` is 0 when the string was one shorter than
the buffer, and -1 when the buffer was full. The test for the full buffer is
`size == 0`. Hence the copy is right for a string that leaves two bytes or more
of the buffer, and only for those (`kernelStrncpy_right_iff`): a string of
`size - 1` characters loses its last one, and a longer one has its NUL put
behind the buffer.
-/
import Wjos.Lib.Track
import Wjos.Tools.Klib

namespace Wjos

open Lib

/-- `strncpyLoop` with its stores. -/
def strncpyTracked (src : Nat → UInt8) : (size : Nat) → (m : Track UInt8) → (d : Nat) → Track UInt8
  | 0, m, d => m.put d 0
  | size + 1, m, d =>
    if src d = 0 then m.put (if size = 0 then d - 1 else d) 0
    else strncpyTracked src size (m.put d (src d)) (d + 1)

/-- `kernel_strncpy` with its stores. -/
def kernelStrncpyTracked (m : Track UInt8) (src : Nat → UInt8) (size : Nat) : Track UInt8 :=
  if size = 0 then m else strncpyTracked src size m 0

/-- `src` is a string of `len` characters. -/
structure StrLen (src : Nat → UInt8) (len : Nat) : Prop where
  nonzero : ∀ k < len, src k ≠ 0
  ended : src len = 0

/-- The copy stores to the `size` bytes of the buffer only, and what is in it
afterwards is the string of the first characters of `src`, as many as fit. -/
structure StrncpyRight (dest : Int → UInt8) (src : Nat → UInt8) (size len : Nat) : Prop where
  inside : ∀ a ∈ (kernelStrncpyTracked (Track.start dest) src size).stored, 0 ≤ a ∧ a < size
  copied : ∀ i < min len (size - 1),
    (kernelStrncpyTracked (Track.start dest) src size).cell i = src i
  ended : (kernelStrncpyTracked (Track.start dest) src size).cell (min len (size - 1) : Nat) = 0

variable {m : Track UInt8} {src : Nat → UInt8} {size len d : Nat} {dest : Int → UInt8}

/-! ## The loop -/

/-- From `d` on the loop copies `n` characters, which is what is left of the
string or of `size`; then `size` decides where the NUL goes. -/
theorem strncpyTracked_eq (hs : StrLen src len) (hd : d ≤ len) :
    strncpyTracked src size m d =
      (m.write d ((List.range (min (len - d) size)).map fun k => src (d + k))).put
        (if len + 1 = d + size then len - 1 else (d + min (len - d) size : Nat)) 0 := by
  induction size generalizing m d with
  | zero =>
    rw [if_neg (by omega), Nat.min_zero]
    rfl
  | succ size ih =>
    rw [strncpyTracked]
    by_cases h0 : src d = 0
    · have hlen : d = len := Nat.le_antisymm hd (Nat.le_of_not_lt fun h => hs.nonzero d h h0)
      subst hlen
      rw [if_pos h0, Nat.sub_self, Nat.zero_min]
      have hsize : d + 1 = d + (size + 1) ↔ size = 0 := by omega
      simp only [hsize]
      rfl
    · have hlt : d < len := by
        refine Nat.lt_of_le_of_ne hd fun h => h0 ?_
        rw [h]
        exact hs.ended
      have hmin : min (len - d) (size + 1) = min (len - (d + 1)) size + 1 := by omega
      have hlist : ((List.range (min (len - d) (size + 1))).map fun k => src (d + k)) =
          src d :: (List.range (min (len - (d + 1)) size)).map fun k => src (d + 1 + k) := by
        rw [hmin, List.range_succ_eq_map, List.map_cons, List.map_map]
        refine congrArg (List.cons _) (List.map_congr_left fun k _ => ?_)
        rw [Function.comp_apply]
        congr 1
        omega
      rw [if_neg h0, ih hlt, hlist, Track.write_cons]
      congr 1
      have hsize : len + 1 = d + 1 + size ↔ len + 1 = d + (size + 1) := by omega
      simp only [hsize]
      split
      · rfl
      · omega

/-- The model that counts from `dest` on is this one without the byte in front. -/
theorem kernelStrncpyTracked_cell (a : Nat) :
    (kernelStrncpyTracked m src size).cell a = kernelStrncpy (fun k => m.cell k) src size a := by
  have hput : ∀ (m : Track UInt8) (i : Nat) (v : UInt8),
      (fun k : Nat => (m.put i v).cell k) = Function.update (fun k : Nat => m.cell k) i v := by
    intro m i v
    funext k
    by_cases hk : k = i
    · rw [hk, Track.put_cell_self, Function.update_self]
    · rw [Track.put_cell_of_ne (by omega), Function.update_of_ne hk]
  have hloop : ∀ (size : Nat) (m : Track UInt8) (d : Nat),
      (fun k : Nat => (strncpyTracked src size m d).cell k) =
        strncpyLoop src size (fun k => m.cell k) d := by
    intro size
    induction size with
    | zero => exact fun m d => hput m d 0
    | succ size ih =>
      intro m d
      rw [strncpyTracked, strncpyLoop]
      by_cases h0 : src d = 0
      · rw [if_pos h0, if_pos h0]
        by_cases hsize : size = 0
        · rw [if_pos hsize, if_pos hsize]
          by_cases hd : d = 0
          · -- the store in front of the buffer
            rw [if_pos hd]
            exact funext fun k => Track.put_cell_of_ne (by omega)
          · have hpred : (d : Int) - 1 = (d - 1 : Nat) := by omega
            rw [if_neg hd, hpred, hput]
        · rw [if_neg hsize, if_neg hsize, hput]
      · rw [if_neg h0, if_neg h0, ih, hput]
  rw [kernelStrncpyTracked, kernelStrncpy]
  split
  · rfl
  · exact congrFun (hloop size m 0) a

/-! ## When the copy is right -/

/-- A string that leaves two bytes of the buffer is copied with its NUL. -/
theorem kernelStrncpyTracked_short (hs : StrLen src len) (hfit : len + 2 ≤ size) :
    kernelStrncpyTracked m src size = m.write 0 ((List.range len).map src ++ [0]) := by
  rw [kernelStrncpyTracked, if_neg (by omega), strncpyTracked_eq hs (Nat.zero_le len),
    if_neg (by omega), Track.write_append, Track.write_singleton]
  have hmin : min len size = len := by omega
  simp [hmin]

/-- One of `size - 1` characters has its last one overwritten. -/
theorem kernelStrncpyTracked_tight (hs : StrLen src len) (hfit : len + 1 = size) :
    kernelStrncpyTracked m src size = (m.write 0 ((List.range len).map src)).put (len - 1) 0 := by
  rw [kernelStrncpyTracked, if_neg (by omega), strncpyTracked_eq hs (Nat.zero_le len),
    if_pos (by omega)]
  have hmin : min len size = len := by omega
  simp [hmin]

/-- A longer one fills the buffer, and the NUL goes behind it. -/
theorem kernelStrncpyTracked_long (hs : StrLen src len) (hpos : size ≠ 0) (hfit : size ≤ len) :
    kernelStrncpyTracked m src size = m.write 0 ((List.range size).map src ++ [0]) := by
  rw [kernelStrncpyTracked, if_neg hpos, strncpyTracked_eq hs (Nat.zero_le len),
    if_neg (by omega), Track.write_append, Track.write_singleton]
  have hmin : min len size = size := by omega
  simp [hmin]

/-- The copy is right exactly for a string that leaves two bytes of the buffer. -/
theorem kernelStrncpy_right_iff (dest : Int → UInt8) (src : Nat → UInt8) (size len : Nat)
    (hsize : 1 ≤ size) (hs : StrLen src len) :
    StrncpyRight dest src size len ↔ len + 2 ≤ size := by
  constructor
  · intro h
    refine Nat.le_of_not_lt fun hshort => ?_
    rcases Nat.lt_or_ge len size with hlt | hge
    · have hone : len + 1 = size := by omega
      have htight := kernelStrncpyTracked_tight (m := Track.start dest) hs hone
      by_cases hzero : len = 0
      · -- the NUL is put in front of the buffer
        have hin := h.inside (len - 1) (by rw [htight, Track.mem_put]; exact .inl rfl)
        omega
      · have hlast := h.copied (len - 1) (by omega)
        have hcast : ((len - 1 : Nat) : Int) = len - 1 := by omega
        rw [htight, hcast, Track.put_cell_self] at hlast
        exact hs.nonzero (len - 1) (by omega) hlast.symm
    · have hlong := kernelStrncpyTracked_long (m := Track.start dest) hs (by omega) hge
      have hin := h.inside size (by
        rw [hlong, Track.mem_write, List.length_append, List.length_map, List.length_range]
        right
        simp)
      omega
  · intro hfit
    have hmin : min len (size - 1) = len := by omega
    have hr := kernelStrncpyTracked_short (m := Track.start dest) hs hfit
    refine ⟨fun a ha => ?_, fun i hi => ?_, ?_⟩
    · rw [hr, Track.mem_write, List.length_append, List.length_map, List.length_range,
        List.length_singleton] at ha
      rcases ha with ha | ha
      · exact absurd ha (Finset.notMem_empty a)
      · omega
    · have hcell := Track.write_cell (m := Track.start dest) (a := 0)
        (l := (List.range len).map src ++ [0]) (i := i) (by simp; omega)
      rw [hr, ← Int.zero_add (i : Int), hcell, List.getElem_append_left (by simp; omega)]
      simp
    · have hcell := Track.write_cell (m := Track.start dest) (a := 0)
        (l := (List.range len).map src ++ [0]) (i := len) (by simp)
      rw [hmin, hr, ← Int.zero_add (len : Int), hcell]
      simp

theorem strLen_cString {bytes : List UInt8} (h : ∀ b ∈ bytes, b ≠ 0) :
    StrLen (cString bytes) bytes.length := by
  refine ⟨fun k hk => ?_, ?_⟩
  · rw [cString, List.getD_eq_getElem _ _ hk]
    exact h _ (List.getElem_mem hk)
  · rw [cString, List.getD_eq_default _ _ (Nat.le_refl _)]

/-- Four bytes hold `sh`. -/
theorem kernelStrncpy_right_iff_sh :
    StrncpyRight (fun _ => 1) (cString [115, 104]) 4 2 ↔ 2 + 2 ≤ 4 :=
  kernelStrncpy_right_iff (fun _ => 1) (cString [115, 104]) 4 2 (by decide)
    (strLen_cString (by simp))

/-- Three bytes would, with the NUL; but the `h` is lost. -/
theorem kernelStrncpy_right_iff_tight : ¬StrncpyRight (fun _ => 1) (cString [115, 104]) 3 2 := by
  intro h
  have h1 := h.copied 1 (by decide)
  exact absurd h1 (by decide)

end Wjos
